/-
  DocExpand.Proofs.Locator.Walk — what a change of one node leaves as it is.

  A walk steps into an object by a key and into an array by a position, so different
  locators walk to different nodes. A change beneath a place is one change of the node there;
  every node that is not at or beneath it keeps its kind and gets no new child (`modify?_walk`).
-/

import DocExpand.Proofs.Locator.Store

namespace DocExpand

namespace Json

variable {a b c d d' v : Json} {s t : Segment}

/-- The child under a key of an object, or at a position of an array. -/
def step? : Json → Segment → Option Json
  | obj ms, .key k => Members.get? k ms
  | arr items, .index n => items[n]?
  | _, _ => none

theorem child?_of_step? (h : d.step? s = some c) : d.child? s = some c := by
  cases d with
  | null | bool _ | num _ | str _ => cases s <;> cases h
  | obj ms =>
    cases s with
    | key k => exact h
    | index n => cases h
  | arr items =>
    cases s with
    | key k => cases h
    | index n => exact h

/-- A node that is still there: of its kind, and with no child that it did not have. -/
structure Kept (a b : Json) : Prop where
  kind : b.kind = a.kind
  steps : ∀ s, (b.step? s).isSome → (a.step? s).isSome

theorem Kept.refl (a : Json) : Kept a a := ⟨rfl, fun _ h => h⟩

theorem Kept.trans (h : Kept a b) (h' : Kept b c) : Kept a c :=
  ⟨h'.kind.trans h.kind, fun s hs => h.steps s (h'.steps s hs)⟩

theorem Kept.obj {ms : Members Json} (h : Kept (obj ms) b) : ∃ ms', b = .obj ms' := by
  have hk := h.kind
  cases b with
  | obj ms' => exact ⟨ms', rfl⟩
  | null | bool _ | num _ | str _ | arr _ => cases hk

/-- Setting a child changes that child alone. -/
theorem step?_setChild? (h : d.step? s = some c) (hs : d.setChild? s v = some d') :
    d'.kind = d.kind ∧ d'.step? s = some v ∧ ∀ t, t ≠ s → d'.step? t = d.step? t := by
  cases d with
  | null | bool _ | num _ | str _ => cases s <;> cases h
  | obj ms =>
    cases s with
    | index n => cases h
    | key k =>
      cases hs
      refine ⟨rfl, Members.get?_insert_self .., fun t ht => ?_⟩
      cases t with
      | index n => rfl
      | key l => exact Members.get?_insert_of_ne (fun h => ht (congrArg Segment.key h.symm)) _ _
  | arr items =>
    cases s with
    | key k => cases h
    | index n =>
      have hlt : n < items.length := (List.getElem?_eq_some_iff.mp h).1
      have hset : some (Json.arr (items.set n v)) = some d' := (if_pos hlt).symm.trans hs
      cases hset
      refine ⟨rfl, List.getElem?_set_self hlt, fun t ht => ?_⟩
      cases t with
      | key k => rfl
      | index m => exact List.getElem?_set_ne fun h => ht (congrArg Segment.index h.symm)

theorem kept_setChild? (h : d.step? s = some c) (hs : d.setChild? s v = some d') : Kept d d' := by
  obtain ⟨hk, hv, ht⟩ := step?_setChild? h hs
  refine ⟨hk, fun t hsome => ?_⟩
  by_cases he : t = s
  · rw [he, h]
    rfl
  · rwa [← ht t he]

end Json

namespace Locator

variable {p q : Locator} {s : Segment} {d d' n : Json} {f : Json → Option Json}

/-- The node that a locator leads to by keys of objects and positions of arrays. -/
def walk : Locator → Json → Option Json
  | [], d => some d
  | s :: p, d => (d.step? s).bind (walk p)

@[simp] theorem walk_nil (d : Json) : walk [] d = some d := rfl

theorem walk_cons (s : Segment) (p : Locator) (d : Json) : walk (s :: p) d = (d.step? s).bind (walk p) := rfl

theorem walk_append (p q : Locator) (d : Json) : walk (p ++ q) d = (walk p d).bind (walk q) := by
  induction p generalizing d with
  | nil => rfl
  | cons s p ih =>
    rw [List.cons_append, walk_cons, walk_cons, Option.bind_assoc]
    exact Option.bind_congr fun c _ => ih c

theorem walk_snoc (p : Locator) (s : Segment) (d : Json) : walk (p ++ [s]) d = (walk p d).bind (·.step? s) := by
  rw [walk_append]
  refine Option.bind_congr fun c _ => ?_
  rw [walk_cons]
  cases c.step? s <;> rfl

theorem resolve_of_walk (h : walk p d = some n) : resolve p d = some n := by
  induction p generalizing d with
  | nil => exact h
  | cons s p ih =>
    obtain ⟨c, hc, hw⟩ := Option.bind_eq_some_iff.mp h
    rw [resolve_cons, Json.child?_of_step? hc]
    exact ih hw

theorem walk_parent {k : String} (h : walk (p ++ [.key k]) d = some n) : ∃ ms, walk p d = some (.obj ms) := by
  rw [walk_snoc] at h
  obtain ⟨parent, hp, hc⟩ := Option.bind_eq_some_iff.mp h
  cases parent with
  | null | bool _ | num _ | str _ | arr _ => cases hc
  | obj ms => exact ⟨ms, hp⟩

theorem resolve_member {ms : Members Json} {k : String} (h : walk p d = some (.obj ms)) :
    resolve (p ++ [.key k]) d = walk (p ++ [.key k]) d := by
  rw [resolve_snoc, walk_snoc, h, resolve_of_walk h]
  rfl

/-- A place above a child, other than the child, is the node or above it. -/
theorem not_prefix_snoc (h : ¬ p <+: q) (hne : p ≠ q ++ [s]) : ¬ p <+: q ++ [s] := by
  intro hp
  rcases List.prefix_concat_iff.mp hp with heq | hp
  · exact hne heq
  · exact h hp

/-- What a place held is still there, and nothing new stands where nothing was. -/
structure Retains (p : Locator) (d d' : Json) : Prop where
  there : ∀ n, walk p d = some n → ∃ n', walk p d' = some n' ∧ n.Kept n'
  back : ∀ n', walk p d' = some n' → ∃ n, walk p d = some n ∧ n.Kept n'

theorem Retains.of_eq (h : walk p d = walk p d') : Retains p d d' :=
  ⟨fun n hn => ⟨n, h ▸ hn, .refl n⟩, fun n hn => ⟨n, h ▸ hn, .refl n⟩⟩

theorem Retains.refl (p : Locator) (d : Json) : Retains p d d := .of_eq rfl

theorem Retains.trans {d'' : Json} (h : Retains p d d') (h' : Retains p d' d'') : Retains p d d'' := by
  constructor
  · intro n hn
    obtain ⟨n', hn', hk⟩ := h.there n hn
    obtain ⟨n'', hn'', hk'⟩ := h'.there n' hn'
    exact ⟨n'', hn'', hk.trans hk'⟩
  · intro n'' hn''
    obtain ⟨n', hn', hk'⟩ := h'.back n'' hn''
    obtain ⟨n, hn, hk⟩ := h.back n' hn'
    exact ⟨n, hn, hk.trans hk'⟩

/-- A place is taken after the change exactly if it was before. -/
theorem Retains.isSome_eq (h : Retains p d d') : (walk p d').isSome = (walk p d).isSome := by
  rw [Bool.eq_iff_iff, Option.isSome_iff_exists, Option.isSome_iff_exists]
  constructor
  · intro hx
    obtain ⟨x, hx⟩ := hx
    obtain ⟨y, hy, -⟩ := h.back x hx
    exact ⟨y, hy⟩
  · intro hx
    obtain ⟨x, hx⟩ := hx
    obtain ⟨y, hy, -⟩ := h.there x hx
    exact ⟨y, hy⟩

theorem Retains.of_kept {n n' : Json} (hn : walk p d = some n) (hn' : walk p d' = some n') (h : n.Kept n') :
    Retains p d d' := by
  constructor
  · intro m hm
    rw [hn] at hm
    cases hm
    exact ⟨n', hn', h⟩
  · intro m hm
    rw [hn'] at hm
    cases hm
    exact ⟨n, hn, h⟩

/-- A change beneath `q` changes the node there, keeps the nodes above and leaves the others alone. -/
theorem modify?_walk (hw : walk q d = some n) (hm : modify? f q d = some d') :
    ∃ m, f n = some m ∧ (∀ r, walk (q ++ r) d' = walk r m) ∧ (∀ p, ¬ q <+: p → Retains p d d') ∧
      ∀ p, ¬ q <+: p → ¬ p <+: q → walk p d' = walk p d := by
  induction q generalizing d d' with
  | nil =>
    cases hw
    exact ⟨d', hm, fun r => rfl, fun p hp => absurd List.nil_prefix hp, fun p hp => absurd List.nil_prefix hp⟩
  | cons s q ih =>
    obtain ⟨c, hc, hw⟩ := Option.bind_eq_some_iff.mp hw
    rw [modify?_cons, Json.child?_of_step? hc, Option.bind_some] at hm
    obtain ⟨c', hm, hs⟩ := Option.bind_eq_some_iff.mp hm
    obtain ⟨m, hf, hat, hkept, hsame⟩ := ih hw hm
    obtain ⟨hk, hv, ht⟩ := Json.step?_setChild? hc hs
    refine ⟨m, hf, fun r => ?_, fun p hp => ?_, fun p hp hp' => ?_⟩
    · rw [List.cons_append, walk_cons, hv, Option.bind_some, hat]
    · cases p with
      | nil => exact .of_kept rfl rfl (Json.kept_setChild? hc hs)
      | cons t p =>
        by_cases hts : t = s
        · subst hts
          have hr := hkept p fun h => hp (List.cons_prefix_cons.mpr ⟨rfl, h⟩)
          constructor
          · rw [walk_cons, walk_cons, hc, hv]
            exact hr.there
          · rw [walk_cons, walk_cons, hc, hv]
            exact hr.back
        · exact .of_eq (by rw [walk_cons, walk_cons, ht t hts])
    · cases p with
      | nil => exact absurd List.nil_prefix hp'
      | cons t p =>
        by_cases hts : t = s
        · subst hts
          rw [walk_cons, walk_cons, hc, hv, Option.bind_some, Option.bind_some]
          exact hsame p (fun h => hp (List.cons_prefix_cons.mpr ⟨rfl, h⟩)) fun h => hp' (List.cons_prefix_cons.mpr ⟨rfl, h⟩)
        · rw [walk_cons, walk_cons, ht t hts]

end Locator

end DocExpand
