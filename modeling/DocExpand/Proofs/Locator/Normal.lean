/-
  DocExpand.Proofs.Locator.Normal — a document as a store of nodes.

  One node can be named in several ways, since an array takes a numeral for a position and an
  object a position for its numeral. The normal form of a locator in a document enters objects
  by keys and arrays by positions, and it leads where the locator leads (`walk_normal`).

  Whatever the spelling, what was written is read (`write?_resolve`), of two writes the later
  one counts (`write?_write?`), writing what was read changes nothing (`write?_same`) and
  removing a member that was added undoes it (`remove?_write?`). A write, and the removal of a
  member, are not seen from a place whose normal form parts from theirs (`write?_parted`,
  `remove?_parted`).
-/

import DocExpand.Proofs.Locator.Assign

namespace DocExpand

namespace Members

variable {α : Type} {key : String} {value : α} {ms : Members α}

theorem insert_of_get? (ha : Ascending ms) (h : get? key ms = some value) : insert key value ms = ms := by
  refine eq_of_get? ha.insert ha fun k => ?_
  by_cases hk : key = k
  · subst hk
    rw [get?_insert_self, h]
  · rw [get?_insert_of_ne hk]

theorem erase_insert (ha : Ascending ms) (h : get? key ms = none) : erase key (insert key value ms) = ms := by
  refine eq_of_get? ha.insert.erase ha fun k => ?_
  by_cases hk : key = k
  · subst hk
    rw [get?_erase_self ha.insert, h]
  · rw [get?_erase_of_ne hk, get?_insert_of_ne hk]

end Members

namespace Json

variable {c d d' v : Json} {s t : Segment} {ms : Members Json}

/-! ## Steps -/

/-- The step as a node of this kind has it: a key of an object, a position of an array. -/
def normalStep : Json → Segment → Segment
  | obj _, s => .key s.text
  | arr _, s => (s.index?.map Segment.index).getD s
  | _, s => s

theorem normalStep_of_kind (h : d'.kind = d.kind) (s : Segment) : d'.normalStep s = d.normalStep s := by
  cases d <;> cases d' <;> first | rfl | cases h

theorem child?_eq_step? (d : Json) (s : Segment) : d.child? s = d.step? (d.normalStep s) := by
  cases d with
  | null | bool _ | num _ | str _ => rfl
  | obj ms => rfl
  | arr items =>
    rw [child?, normalStep]
    cases hs : s.index? with
    | some n => rfl
    | none =>
      cases s with
      | key k => rfl
      | index n => cases hs

theorem child?_normalStep (d : Json) (s : Segment) : d.child? (d.normalStep s) = d.child? s := by
  cases d with
  | null | bool _ | num _ | str _ => rfl
  | obj ms => rfl
  | arr items =>
    rw [normalStep]
    cases hs : s.index? with
    | none => rfl
    | some n => rw [child?, child?, hs, Option.map_some, Option.getD_some, Segment.index?]

/-- Two spellings of one step. -/
theorem child?_congr (h : d.normalStep s = d.normalStep t) : d.child? s = d.child? t := by
  rw [child?_eq_step?, child?_eq_step?, h]

/-! ## Changes of one child -/

theorem child?_setChild?_self (h : d.setChild? s v = some d') : d'.child? s = some v := by
  cases d with
  | null | bool _ | num _ | str _ => cases h
  | obj ms =>
    cases h
    exact Members.get?_insert_self ..
  | arr items =>
    obtain ⟨n, hn, hc⟩ := Option.bind_eq_some_iff.mp h
    split at hc
    · rename_i hlt
      cases hc
      rw [child?, hn]
      exact List.getElem?_set_self hlt
    · cases hc

theorem child?_setChild?_of_ne (h : d.setChild? s v = some d') (hne : d.normalStep t ≠ d.normalStep s) :
    d'.child? t = d.child? t := by
  cases d with
  | null | bool _ | num _ | str _ => cases h
  | obj ms =>
    cases h
    exact Members.get?_insert_of_ne (fun he => hne (congrArg Segment.key he.symm)) ..
  | arr items =>
    obtain ⟨n, hn, hc⟩ := Option.bind_eq_some_iff.mp h
    split at hc
    · cases hc
      rw [child?, child?]
      refine Option.bind_congr fun m hm => ?_
      have hnm : n ≠ m := by
        intro he
        subst he
        have hsame : (arr items).normalStep t = (arr items).normalStep s := by
          rw [normalStep, normalStep, hn, Option.mem_def.mp hm]
          rfl
        exact hne hsame
      exact List.getElem?_set_ne hnm
    · cases hc

theorem setChild?_same (ho : d.Ordered) (h : d.child? s = some c) : d.setChild? s c = some d := by
  cases d with
  | null | bool _ | num _ | str _ => cases h
  | obj ms => exact congrArg (fun ms => some (Json.obj ms)) (Members.insert_of_get? (ordered_obj.mp ho).1 h)
  | arr items =>
    obtain ⟨n, hn, hc⟩ := Option.bind_eq_some_iff.mp h
    obtain ⟨hlt, rfl⟩ := List.getElem?_eq_some_iff.mp hc
    rw [setChild?, hn, Option.bind_some, if_pos hlt, List.set_getElem_self]

theorem eraseChild?_obj (h : (obj ms).eraseChild? s = some d') : d' = .obj (Members.erase s.text ms) := by
  rw [eraseChild?] at h
  split at h
  · exact (Option.some.inj h).symm
  · cases h

theorem eraseChild?_arr {items : List Json} (h : (arr items).eraseChild? s = some d') :
    ∃ n, s.index? = some n ∧ n < items.length ∧ d' = .arr (items.eraseIdx n) := by
  obtain ⟨n, hn, hc⟩ := Option.bind_eq_some_iff.mp h
  split at hc
  · rename_i hlt
    exact ⟨n, hn, hlt, (Option.some.inj hc).symm⟩
  · cases hc

end Json

namespace Locator

variable {b p q : Locator} {s : Segment} {d d' n v w : Json} {ms : Members Json} {items : List Json}
  {f : Json → Option Json}

/-! ## Normal forms -/

/-- The locator with keys out of objects and positions out of arrays. Beyond the nodes of the document it is as it was. -/
def normal : Locator → Json → Locator
  | [], _ => []
  | s :: p, d => d.normalStep s :: (d.child? s).elim p (normal p)

theorem normal_cons (s : Segment) (p : Locator) (d : Json) :
    normal (s :: p) d = d.normalStep s :: (d.child? s).elim p (normal p) := rfl

theorem walk_normal (p : Locator) (d : Json) : walk (normal p d) d = resolve p d := by
  induction p generalizing d with
  | nil => rfl
  | cons s p ih =>
    rw [normal_cons, walk_cons, resolve_cons, ← Json.child?_eq_step?]
    exact Option.bind_congr fun c hc => by rw [Option.mem_def.mp hc, Option.elim_some, ih c]

theorem resolve_normal (p : Locator) (d : Json) : resolve (normal p d) d = resolve p d := by
  induction p generalizing d with
  | nil => rfl
  | cons s p ih =>
    rw [normal_cons, resolve_cons, resolve_cons, Json.child?_normalStep]
    refine Option.bind_congr fun c hc => ?_
    rw [Option.mem_def.mp hc, Option.elim_some, ih]

theorem normal_snoc (hr : resolve p d = some n) (s : Segment) : normal (p ++ [s]) d = normal p d ++ [n.normalStep s] := by
  induction p generalizing d with
  | nil =>
    cases hr
    rw [List.nil_append, normal_cons]
    cases n.child? s <;> rfl
  | cons t p ih =>
    obtain ⟨c, hc, hr⟩ := Option.bind_eq_some_iff.mp hr
    rw [List.cons_append, normal_cons, normal_cons, hc, Option.elim_some, Option.elim_some, ih hr, List.cons_append]

/-! ## Places that part -/

/-- A change of one child is not seen from a place that parts from it. -/
theorem modify?_parted (hm : modify? f p d = some d')
    (hf : ∀ n m, resolve p d = some n → f n = some m → ∀ t, n.normalStep t ≠ n.normalStep s → m.child? t = n.child? t)
    (hq : Diverge (normal (p ++ [s]) d) (normal q d)) : resolve q d' = resolve q d := by
  induction p generalizing q d d' with
  | nil =>
    cases q with
    | nil => exact absurd List.nil_prefix hq.right
    | cons t q =>
      have hne : d.normalStep t ≠ d.normalStep s := by
        intro he
        refine hq.left ⟨(d.child? t).elim q (normal q), ?_⟩
        rw [normal_snoc rfl, normal_cons, he]
        rfl
      rw [resolve_cons, resolve_cons, hf d d' rfl hm t hne]
  | cons u p ih =>
    rw [modify?_cons] at hm
    obtain ⟨c, hc, hm⟩ := Option.bind_eq_some_iff.mp hm
    obtain ⟨c', hm, hset⟩ := Option.bind_eq_some_iff.mp hm
    cases q with
    | nil => exact absurd List.nil_prefix hq.right
    | cons t q =>
      rw [resolve_cons, resolve_cons]
      by_cases he : d.normalStep t = d.normalStep u
      · -- both enter the same child
        have hkind := Json.setChild?_kind hset
        have htc : d.child? t = some c := (Json.child?_congr he).trans hc
        have htc' : d'.child? t = some c' := by
          rw [Json.child?_congr (t := u) (by rw [Json.normalStep_of_kind hkind, he, Json.normalStep_of_kind hkind])]
          exact Json.child?_setChild?_self hset
        rw [List.cons_append, normal_cons, normal_cons, hc, htc, he] at hq
        rw [htc, htc', Option.bind_some, Option.bind_some]
        refine ih hm (fun n m hr => ?_) hq.tail
        exact hf n m (by rw [resolve_cons, hc, Option.bind_some, hr])
      · rw [Json.child?_setChild?_of_ne hset he]

theorem write?_parted (h : write? b v d = some d') (hq : Diverge (normal b d) (normal q d)) : resolve q d' = resolve q d := by
  rcases List.eq_nil_or_concat' b with rfl | ⟨p, s, rfl⟩
  · exact absurd List.nil_prefix hq.left
  · rw [write?_snoc] at h
    exact modify?_parted h (fun n m _ hset t hne => Json.child?_setChild?_of_ne hset hne) hq

theorem remove?_parted (hp : resolve p d = some (.obj ms)) (h : remove? (p ++ [s]) d = some d')
    (hq : Diverge (normal (p ++ [s]) d) (normal q d)) : resolve q d' = resolve q d := by
  rw [remove?_snoc] at h
  refine modify?_parted h (fun n m hn herase t hne => ?_) hq
  cases hp.symm.trans hn
  rw [Json.eraseChild?_obj herase]
  exact Members.get?_erase_of_ne fun he => hne (congrArg Segment.key he.symm)

/-! ## Reading what was written -/

theorem write?_resolve (h : write? b v d = some d') : resolve b d' = some v := by
  rcases List.eq_nil_or_concat' b with rfl | ⟨p, s, rfl⟩
  · cases h
    rfl
  · rw [write?_snoc] at h
    obtain ⟨n, m, -, hset, hr⟩ := modify?_eq_some h
    rw [resolve_snoc, hr, Option.bind_some, Json.child?_setChild?_self hset]

/-- Of two writes at one place the later one counts. -/
theorem write?_write? (h : write? b v d = some d') (w : Json) : write? b w d' = write? b w d := by
  rcases List.eq_nil_or_concat' b with rfl | ⟨p, s, rfl⟩
  · rfl
  · rw [write?_snoc] at h
    obtain ⟨n, m, hr, hset, -⟩ := modify?_eq_some h
    rw [write?_snoc, write?_snoc, modify?_modify? h]
    refine modify?_congr hr ?_
    rw [hset, Option.bind_some, Json.setChild?_setChild? hset]

theorem replace?_same (ho : d.Ordered) (h : resolve p d = some n) : replace? p n d = some d := by
  induction p generalizing d with
  | nil => exact h.symm
  | cons s p ih =>
    obtain ⟨c, hc, hr⟩ := Option.bind_eq_some_iff.mp h
    rw [replace?, modify?_cons, hc, Option.bind_some, ← replace?, ih (ho.child? hc) hr, Option.bind_some,
      Json.setChild?_same ho hc]

theorem write?_same (ho : d.Ordered) (h : resolve b d = some n) : write? b n d = some d :=
  (write?_eq_replace? h n).trans (replace?_same ho h)

/-! ## Removing -/

/-- Adding a member and removing it again restores the document. -/
theorem remove?_write? (ho : d.Ordered) (hp : resolve p d = some (.obj ms)) (habsent : resolve (p ++ [s]) d = none)
    (h : write? (p ++ [s]) v d = some d') : remove? (p ++ [s]) d' = some d := by
  rw [resolve_snoc, hp] at habsent
  have hms : Members.Ascending ms := (Json.ordered_obj.mp (resolve_ordered ho hp)).1
  have hundone : (Json.obj (Members.insert s.text v ms)).eraseChild? s = some (.obj ms) := by
    have hthere : Members.contains s.text (Members.insert s.text v ms) = true := by
      rw [Members.contains, Members.get?_insert_self]
      rfl
    rw [Json.eraseChild?, if_pos hthere, Members.erase_insert hms habsent]
  rw [write?_snoc] at h
  calc remove? (p ++ [s]) d'
      = modify? (fun n => (n.setChild? s v).bind (·.eraseChild? s)) p d := by rw [remove?_snoc, modify?_modify? h]
    _ = replace? p (.obj ms) d := modify?_congr hp hundone
    _ = some d := replace?_same ho hp

theorem remove?_member (ho : d.Ordered) (hp : resolve p d = some (.obj ms)) (h : remove? (p ++ [s]) d = some d') :
    resolve (p ++ [s]) d' = none := by
  rw [remove?_snoc] at h
  obtain ⟨n, m, hn, herase, hr⟩ := modify?_eq_some h
  cases hp.symm.trans hn
  rw [resolve_snoc, hr, Json.eraseChild?_obj herase]
  exact Members.get?_erase_self (Json.ordered_obj.mp (resolve_ordered ho hp)).1

theorem remove?_item (hp : resolve p d = some (.arr items)) (h : remove? (p ++ [s]) d = some d') :
    ∃ n, s.index? = some n ∧ n < items.length ∧ resolve p d' = some (.arr (items.eraseIdx n)) := by
  rw [remove?_snoc] at h
  obtain ⟨a, m, ha, herase, hr⟩ := modify?_eq_some h
  cases hp.symm.trans ha
  obtain ⟨n, hn, hlt, rfl⟩ := Json.eraseChild?_arr herase
  exact ⟨n, hn, hlt, hr⟩

end Locator

end DocExpand
