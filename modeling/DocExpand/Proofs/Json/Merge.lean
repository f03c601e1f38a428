/-
  DocExpand.Proofs.Json.Merge — what laying one object over another leaves of both.

  Under each key a merge holds what the two sides make of that key (`get?_mergeMembers`). Along
  a path of keys, a merge that keeps existing values adds to the first object and takes nothing
  from it (`mergeMembers_fills`): what is not an object stays, an object stays an object, and
  what the second object alone has is copied whole, unless something that is no object stands
  in its way. An array is therefore always one side's array, never a mixture.

  The two policies are one merge with its sides exchanged. What has been merged in, be it the
  object itself, changes nothing when it is merged in again (`mergeMembers_algebra`).
-/

import DocExpand.Json.Merge
import DocExpand.Proofs.Json.Ordered
import DocExpand.Proofs.Locator.Walk

namespace DocExpand.Json

variable {old new v : Json} {dst src : Members Json} {p : List String} {policy : MergePolicy}

/-! ## Under one key -/

theorem get?_mergeMembers (policy : MergePolicy) (hs : Members.Ascending src) (key : String) (dst : Members Json) :
    Members.get? key (mergeMembers policy dst src) =
      Option.merge (mergeNode policy) (Members.get? key dst) (Members.get? key src) := by
  induction src generalizing dst with
  | nil =>
    rw [mergeMembers, Members.get?_nil]
    cases Members.get? key dst <;> rfl
  | cons m rest ih =>
    obtain ⟨k, new⟩ := m
    rw [mergeMembers, ih hs.tail]
    by_cases hk : k = key
    · subst hk
      rw [Members.get?_insert_self, Members.get?_cons_self, Members.get?_eq_none_iff.mpr hs.not_mem]
      cases Members.get? k dst <;> rfl
    · rw [Members.get?_insert_of_ne hk, Members.get?_cons_of_ne hk]

/-- Only two objects are merged; of anything else the existing value stays. -/
theorem mergeNode_keep (h : old.kind ≠ .object ∨ new.kind ≠ .object) : mergeNode .keepExisting old new = old := by
  cases new with
  | null | bool _ | num _ | str _ | arr _ => rfl
  | obj incoming =>
    cases old with
    | null | bool _ | num _ | str _ | arr _ => rfl
    | obj existing => exact absurd rfl (h.resolve_right fun h => h rfl)

theorem kind_mergeNode_keep (old new : Json) : (mergeNode .keepExisting old new).kind = old.kind := by
  cases old <;> cases new <;> rfl

/-! ## Along a path -/

/-- The node that a path of keys leads to. -/
def follow (path : List String) (j : Json) : Option Json := Locator.walk (path.map .key) j

@[simp] theorem follow_nil (j : Json) : follow [] j = some j := rfl

theorem follow_cons (k : String) (p : List String) (j : Json) :
    follow (k :: p) j = (j.step? (.key k)).bind (follow p) := rfl

theorem follow_child {k : String} (h : old.step? (.key k) = some v) (p : List String) :
    follow (k :: p) old = follow p v := by
  rw [follow_cons, h, Option.bind_some]

/-- What stands under a key of a merge: the existing side where it is no object or the other has
    nothing there, the other side where the existing has nothing, and else both merged. -/
theorem step?_mergeNode (ho : new.Ordered) (old : Json) (k : String) :
    ((old.kind ≠ .object ∨ new.step? (.key k) = none) ∧
      (mergeNode .keepExisting old new).step? (.key k) = old.step? (.key k)) ∨
    (old.step? (.key k) = none ∧ (mergeNode .keepExisting old new).step? (.key k) = new.step? (.key k)) ∨
    ∃ child incoming, incoming.Ordered ∧ old.step? (.key k) = some child ∧ new.step? (.key k) = some incoming ∧
      (mergeNode .keepExisting old new).step? (.key k) = some (mergeNode .keepExisting child incoming) := by
  by_cases hold : old.kind = .object
  case neg => exact .inl ⟨.inl hold, by rw [mergeNode_keep (.inl hold)]⟩
  cases old with
  | null | bool _ | num _ | str _ | arr _ => cases hold
  | obj dst =>
    cases new with
    | null | bool _ | num _ | str _ | arr _ => exact .inl ⟨.inr rfl, rfl⟩
    | obj src =>
      have hget := get?_mergeMembers .keepExisting (ordered_obj.mp ho).1 k dst
      cases hs : Members.get? k src with
      | none =>
        rw [hs, Option.merge_none_right] at hget
        exact .inl ⟨.inr hs, hget⟩
      | some incoming =>
        rw [hs] at hget
        cases hd : Members.get? k dst with
        | none =>
          rw [hd] at hget
          exact .inr (.inl ⟨hd, hget.trans hs.symm⟩)
        | some child =>
          rw [hd] at hget
          exact .inr (.inr ⟨child, incoming, ho.get? hs, hd, hs, hget⟩)

/-- Two nodes at one place: the second is the first, unless both are objects. -/
structure Stays (old new : Json) : Prop where
  same : old.kind ≠ .object → new = old
  object : old.kind = .object → new.kind = .object

theorem Stays.refl (j : Json) : Stays j j := ⟨fun _ => rfl, id⟩

theorem stays_mergeNode (old new : Json) : Stays old (mergeNode .keepExisting old new) :=
  ⟨fun h => mergeNode_keep (.inl h), fun h => (kind_mergeNode_keep old new).trans h⟩

theorem follow_mergeNode_kept (ho : new.Ordered) (h : follow p old = some v) :
    ∃ now, follow p (mergeNode .keepExisting old new) = some now ∧ Stays v now := by
  induction p generalizing old new with
  | nil =>
    cases h
    exact ⟨_, rfl, stays_mergeNode ..⟩
  | cons k p ih =>
    rcases step?_mergeNode ho old k with ⟨-, hm⟩ | ⟨hd, -⟩ | ⟨child, incoming, hi, hd, -, hm⟩
    · exact ⟨v, by rw [follow_cons, hm, ← follow_cons, h], .refl v⟩
    · rw [follow_cons, hd] at h
      cases h
    · rw [follow_child hd] at h
      rw [follow_child hm]
      exact ih hi h

-- Here the root counts as a place on the way, for below it anything may stand there.
theorem follow_mergeNode_filled (ho : new.Ordered) (hn : follow p new = some v) (hd : follow p old = none)
    (hway : ∀ q n, q <+: p → q ≠ p → follow q old = some n → n.kind = .object) :
    follow p (mergeNode .keepExisting old new) = some v := by
  induction p generalizing old new with
  | nil => cases hd
  | cons k p ih =>
    rcases step?_mergeNode ho old k with ⟨hside | hside, -⟩ | ⟨-, hm⟩ | ⟨child, incoming, hi, hc, hs, hm⟩
    · exact absurd (hway [] old List.nil_prefix (fun h => nomatch h) rfl) hside
    · rw [follow_cons, hside] at hn
      cases hn
    · rw [follow_cons, hm, ← follow_cons, hn]
    · rw [follow_child hs] at hn
      rw [follow_child hc] at hd
      rw [follow_child hm]
      refine ih hi hn hd fun q n hq hne hf => ?_
      refine hway (k :: q) n (List.cons_prefix_cons.mpr ⟨rfl, hq⟩) (fun h => hne (List.cons.inj h).2) ?_
      rw [follow_child hc, hf]

theorem follow_mergeNode_covered (ho : new.Ordered) (h : follow p (mergeNode .keepExisting old new) = some v) :
    (follow p old).isSome ∨ (follow p new).isSome := by
  induction p generalizing old new with
  | nil => exact .inl rfl
  | cons k p ih =>
    rcases step?_mergeNode ho old k with ⟨-, hm⟩ | ⟨-, hm⟩ | ⟨child, incoming, hi, hc, hs, hm⟩
    · rw [follow_cons, hm, ← follow_cons] at h
      exact .inl (Option.isSome_of_eq_some h)
    · rw [follow_cons, hm, ← follow_cons] at h
      exact .inr (Option.isSome_of_eq_some h)
    · rw [follow_child hm] at h
      rw [follow_child hc, follow_child hs]
      exact ih hi h

theorem follow_mergeNode_whole (ho : new.Ordered) (h : follow p (mergeNode .keepExisting old new) = some v)
    (hv : v.kind ≠ .object) : follow p old = some v ∨ follow p old = none ∧ follow p new = some v := by
  induction p generalizing old new with
  | nil =>
    cases h
    rw [kind_mergeNode_keep] at hv
    exact .inl (by rw [mergeNode_keep (.inl hv), follow_nil])
  | cons k p ih =>
    rcases step?_mergeNode ho old k with ⟨-, hm⟩ | ⟨hd, hm⟩ | ⟨child, incoming, hi, hc, hs, hm⟩
    · rw [follow_cons, hm, ← follow_cons] at h
      exact .inl h
    · rw [follow_cons, hm, ← follow_cons] at h
      exact .inr ⟨by rw [follow_cons, hd, Option.bind_none], h⟩
    · rw [follow_child hm] at h
      rw [follow_child hc, follow_child hs]
      exact ih hi h

/-- `merged` is `dst` with what it lacked of `src`, and nothing else. -/
structure Fills (dst src merged : Json) : Prop where
  kept : ∀ p old, follow p dst = some old → ∃ now, follow p merged = some now ∧ Stays old now
  /-- Nothing but objects may stand on the way to what is new. -/
  filled : ∀ p v, follow p src = some v → follow p dst = none →
    (∀ q n, q ≠ [] → q <+: p → q ≠ p → follow q dst = some n → n.kind = .object) → follow p merged = some v
  covered : ∀ p v, follow p merged = some v → (follow p dst).isSome ∨ (follow p src).isSome
  /-- A scalar or an array comes whole from one side; the other has a say only where `dst` has nothing. -/
  whole : ∀ p v, follow p merged = some v → v.kind ≠ .object →
    follow p dst = some v ∨ follow p dst = none ∧ follow p src = some v

/-- A merge that keeps existing values fills the first object from the second. -/
theorem mergeMembers_fills (h : (obj src).Ordered) : Fills (obj dst) (obj src) (obj (mergeMembers .keepExisting dst src)) where
  kept p old hd := follow_mergeNode_kept h hd
  filled p v hs hd hway := by
    refine follow_mergeNode_filled h hs hd fun q n hq hne hf => ?_
    by_cases hroot : q = []
    · subst hroot
      cases hf
      rfl
    · exact hway q n hroot hq hne hf
  covered p v hm := follow_mergeNode_covered h hm
  whole p v hm hv := follow_mergeNode_whole h hm hv

/-- Under `a` two objects meet, under `b` an object meets an array, under `c` an array an object. -/
theorem mergeMembers_fills_collisions :
    let dst := [("a", obj [("x", .null)]), ("b", .arr [.null]), ("c", obj [])]
    let src := [("a", obj [("x", .bool true), ("y", obj [])]), ("b", obj [("z", .null)]), ("c", .arr [.bool true]), ("d", .null)]
    let merged := [("a", obj [("x", .null), ("y", obj [])]), ("b", .arr [.null]), ("c", obj []), ("d", .null)]
    (obj src).Ordered ∧ mergeMembers .keepExisting dst src = merged ∧ Fills (obj dst) (obj src) (obj merged) := by
  intro dst src merged
  have hs : (obj src).Ordered := by decide
  have hm : mergeMembers .keepExisting dst src = merged := by decide
  exact ⟨hs, hm, hm ▸ mergeMembers_fills hs⟩

/-! ## Algebra -/

/-- Of two nodes that are not both objects the incoming one stays. -/
theorem mergeNode_overwrite (h : old.kind ≠ .object ∨ new.kind ≠ .object) : mergeNode .overwrite old new = new := by
  cases new with
  | null | bool _ | num _ | str _ | arr _ => rfl
  | obj incoming =>
    cases old with
    | null | bool _ | num _ | str _ | arr _ => rfl
    | obj existing => exact absurd rfl (h.resolve_right fun h => h rfl)

/-- What objects have when their members have it, and other nodes anyway, all nodes have. -/
theorem induction_members {P : Json → Prop} (other : ∀ j, j.kind ≠ .object → P j)
    (object : ∀ ms, (∀ k v, Members.get? k ms = some v → P v) → P (.obj ms)) (j : Json) : P j :=
  match j with
  | .obj ms => object ms fun k v _ => induction_members other object v
  | .null | .bool _ | .num _ | .str _ | .arr _ => other _ fun h => nomatch h
termination_by j.nesting
decreasing_by exact child?_nesting (s := .key k) ‹_›

/-- A merge of objects is told by what it holds under each key. -/
theorem mergeMembers_eq_of_get? {ms : Members Json} (hd : (obj dst).Ordered) (hs : (obj src).Ordered)
    (hm : Members.Ascending ms)
    (h : ∀ k, Option.merge (mergeNode policy) (Members.get? k dst) (Members.get? k src) = Members.get? k ms) :
    mergeMembers policy dst src = ms := by
  have hmerged := mergeMembers_ordered policy src hd (ordered_obj.mp hs).2
  refine Members.eq_of_get? (ordered_obj.mp hmerged).1 hm fun k => ?_
  rw [get?_mergeMembers policy (ordered_obj.mp hs).1, h]

theorem mergeNode_mirror (ho : old.Ordered) (hn : new.Ordered) :
    mergeNode .keepExisting old new = mergeNode .overwrite new old := by
  induction old using induction_members generalizing new with
  | other old hold => rw [mergeNode_keep (.inl hold), mergeNode_overwrite (.inr hold)]
  | object dst ih =>
    by_cases hnew : new.kind = .object
    case neg => rw [mergeNode_keep (.inr hnew), mergeNode_overwrite (.inl hnew)]
    cases new with
    | null | bool _ | num _ | str _ | arr _ => cases hnew
    | obj src =>
      have hmirrored := mergeMembers_ordered .overwrite dst hn (ordered_obj.mp ho).2
      refine congrArg obj (mergeMembers_eq_of_get? ho hn (ordered_obj.mp hmirrored).1 fun k => ?_)
      rw [get?_mergeMembers .overwrite (ordered_obj.mp ho).1]
      cases hd : Members.get? k dst with
      | none => cases Members.get? k src <;> rfl
      | some child =>
        cases hs : Members.get? k src with
        | none => rfl
        | some incoming => exact congrArg some (ih k child hd (ho.get? hd) (hn.get? hs))

theorem mergeNode_self (policy : MergePolicy) (ho : old.Ordered) : mergeNode policy old old = old := by
  induction old using induction_members with
  | other old hold =>
    cases policy
    · exact mergeNode_keep (.inl hold)
    · exact mergeNode_overwrite (.inl hold)
  | object dst ih =>
    refine congrArg obj (mergeMembers_eq_of_get? ho ho (ordered_obj.mp ho).1 fun k => ?_)
    cases hd : Members.get? k dst with
    | none => rfl
    | some child => exact congrArg some (ih k child hd (ho.get? hd))

/-- Where an object and something else meet, the second merge finds the node that stayed after the first. -/
theorem mergeNode_again_unlike (policy : MergePolicy) (hn : new.Ordered) (h : old.kind ≠ .object ∨ new.kind ≠ .object) :
    mergeNode policy (mergeNode policy old new) new = mergeNode policy old new := by
  cases policy
  · rw [mergeNode_keep h, mergeNode_keep h]
  · rw [mergeNode_overwrite h, mergeNode_self .overwrite hn]

theorem mergeNode_again (policy : MergePolicy) (ho : old.Ordered) (hn : new.Ordered) :
    mergeNode policy (mergeNode policy old new) new = mergeNode policy old new := by
  induction old using induction_members generalizing new with
  | other old hold => exact mergeNode_again_unlike policy hn (.inl hold)
  | object dst ih =>
    by_cases hnew : new.kind = .object
    case neg => exact mergeNode_again_unlike policy hn (.inr hnew)
    cases new with
    | null | bool _ | num _ | str _ | arr _ => cases hnew
    | obj src =>
      have hmerged := mergeMembers_ordered policy src ho (ordered_obj.mp hn).2
      refine congrArg obj (mergeMembers_eq_of_get? hmerged hn (ordered_obj.mp hmerged).1 fun k => ?_)
      rw [get?_mergeMembers policy (ordered_obj.mp hn).1]
      cases hs : Members.get? k src with
      | none => cases Members.get? k dst <;> rfl
      | some incoming =>
        cases hd : Members.get? k dst with
        | none => exact congrArg some (mergeNode_self policy (hn.get? hs))
        | some child => exact congrArg some (ih k child hd (ho.get? hd) (hn.get? hs))

theorem mergeMembers_nil_left (policy : MergePolicy) (hs : (obj src).Ordered) : mergeMembers policy [] src = src := by
  refine mergeMembers_eq_of_get? Reading.ordered_nil hs (ordered_obj.mp hs).1 fun k => ?_
  rw [Members.get?_nil, Option.merge_none_left]

/-- The policies mirror each other; under either one, merging again or merging an object into itself changes nothing, and
    the empty object is neutral. -/
theorem mergeMembers_algebra (hd : (obj dst).Ordered) (hs : (obj src).Ordered) :
    mergeMembers .keepExisting dst src = mergeMembers .overwrite src dst ∧ ∀ policy,
      mergeMembers policy (mergeMembers policy dst src) src = mergeMembers policy dst src ∧
        mergeMembers policy dst dst = dst ∧ mergeMembers policy [] dst = dst ∧ mergeMembers policy dst [] = dst := by
  refine ⟨Json.obj.inj (mergeNode_mirror hd hs), fun policy => ⟨?_, ?_, mergeMembers_nil_left policy hd, rfl⟩⟩
  · exact Json.obj.inj (mergeNode_again policy hd hs)
  · exact Json.obj.inj (mergeNode_self policy hd)

/-- Both ways round an object meets an array, and under `a` two objects meet; what is overwritten stays so. -/
theorem mergeMembers_algebra_collisions :
    let dst := [("a", obj [("x", .null)]), ("b", .arr [.null]), ("c", obj [("z", .null)])]
    let src := [("a", obj [("x", .bool true), ("y", obj [])]), ("b", obj [("z", .null)]), ("c", .arr [.bool true])]
    (obj dst).Ordered ∧ (obj src).Ordered ∧ mergeMembers .overwrite dst src = src ∧
      mergeMembers .overwrite (mergeMembers .overwrite dst src) src = src ∧ mergeMembers .keepExisting src dst = src := by
  intro dst src
  have hd : (obj dst).Ordered := by decide
  have hs : (obj src).Ordered := by decide
  have hm : mergeMembers .overwrite dst src = src := by decide
  obtain ⟨hmirror, -⟩ := mergeMembers_algebra hs hd
  obtain ⟨-, hlaws⟩ := mergeMembers_algebra hd hs
  exact ⟨hd, hs, hm, (hlaws .overwrite).1.trans hm, hmirror.trans hm⟩

end DocExpand.Json
