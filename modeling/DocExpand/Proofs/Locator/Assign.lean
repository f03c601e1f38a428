/-
  DocExpand.Proofs.Locator.Assign — what stands at a place, set along a walk.

  Replacing a node and removing a member are the same change with another slot: a node, or
  nothing. Said along a walk (`assign`), such changes at two places of which neither lies at
  or beneath the other commute (`assign_comm`), and each leaves the rest as it is
  (`assign_same`, `assign_retains`).
-/

import DocExpand.Proofs.Json.Ordered
import DocExpand.Proofs.Locator.Walk

namespace DocExpand

namespace Json

variable {c d : Json} {s t : Segment}

/-- The node with what stands at a child: another node, or nothing. Among items nothing is null. -/
def putChild (d : Json) (s : Segment) (slot : Option Json) : Json :=
  match d, s with
  | obj ms, .key k => obj (Members.put k slot ms)
  | arr items, .index n => arr (items.set n (slot.getD .null))
  | d, _ => d

theorem step?_putChild_ne (h : t ≠ s) (d : Json) (slot : Option Json) : (d.putChild s slot).step? t = d.step? t := by
  cases d with
  | null | bool _ | num _ | str _ => cases s <;> rfl
  | obj ms =>
    cases s with
    | index n => rfl
    | key k =>
      cases t with
      | index n => rfl
      | key l => exact Members.get?_put_of_ne (fun he => h (congrArg Segment.key he.symm)) slot
  | arr items =>
    cases s with
    | key k => rfl
    | index n =>
      cases t with
      | key l => rfl
      | index m => exact List.getElem?_set_ne fun he => h (congrArg Segment.index he.symm)

theorem step?_putChild_self (h : d.step? s = some c) (node : Json) :
    (d.putChild s (some node)).step? s = some node := by
  cases d with
  | null | bool _ | num _ | str _ => cases s <;> cases h
  | obj ms =>
    cases s with
    | index n => cases h
    | key k => exact Members.get?_insert_self ..
  | arr items =>
    cases s with
    | key k => cases h
    | index n => exact List.getElem?_set_self (List.getElem?_eq_some_iff.mp h).1

theorem putChild_kept (h : d.step? s = some c) (slot : Option Json) : Kept d (d.putChild s slot) := by
  constructor
  · cases d <;> cases s <;> rfl
  · intro t ht
    by_cases hts : t = s
    · rw [hts, h]
      rfl
    · rwa [← step?_putChild_ne hts d slot]

theorem putChild_comm (ho : d.Ordered) (h : s ≠ t) (a b : Option Json) :
    (d.putChild s a).putChild t b = (d.putChild t b).putChild s a := by
  cases d with
  | null | bool _ | num _ | str _ => cases s <;> cases t <;> rfl
  | obj ms =>
    cases s with
    | index n => cases t <;> rfl
    | key k =>
      cases t with
      | index n => rfl
      | key l =>
        have hne : l ≠ k := fun he => h (congrArg Segment.key he.symm)
        exact congrArg Json.obj (Members.put_comm (ordered_obj.mp ho).1 hne b a)
  | arr items =>
    cases s with
    | key k => cases t <;> rfl
    | index n =>
      cases t with
      | key l => rfl
      | index m => exact congrArg Json.arr (List.set_comm _ _ fun he => h (congrArg Segment.index he))

theorem putChild_putChild (ho : d.Ordered) (s : Segment) (a b : Option Json) :
    (d.putChild s a).putChild s b = d.putChild s b := by
  cases d with
  | null | bool _ | num _ | str _ => cases s <;> rfl
  | obj ms =>
    cases s with
    | index n => rfl
    | key k => exact congrArg Json.obj (Members.put_put (ordered_obj.mp ho).1 a b)
  | arr items =>
    cases s with
    | key k => rfl
    | index n => exact congrArg Json.arr (List.set_set ..)

theorem Ordered.step? (h : d.Ordered) (hc : d.step? s = some c) : c.Ordered := h.child? (child?_of_step? hc)

theorem setChild?_eq_putChild (h : d.step? s = some c) (node : Json) :
    d.setChild? s node = some (d.putChild s (some node)) := by
  cases d with
  | null | bool _ | num _ | str _ => cases s <;> cases h
  | obj ms =>
    cases s with
    | index n => cases h
    | key k => rfl
  | arr items =>
    cases s with
    | key k => cases h
    | index n => exact if_pos (List.getElem?_eq_some_iff.mp h).1

end Json

namespace Locator

variable {a b p : Locator} {d d1 d2 n : Json} {slot x y : Option Json} {k : String} {m : Nat}

/-- What stands at a place after what stood there has become `slot`. -/
def assign : Locator → Option Json → Json → Option (Option Json)
  | [], slot, _ => some slot
  | s :: p, slot, d => (d.step? s).bind fun c => (assign p slot c).map fun slot => some (d.putChild s slot)

theorem assign_cons (s : Segment) (p : Locator) (slot : Option Json) (d : Json) :
    assign (s :: p) slot d = (d.step? s).bind fun c => (assign p slot c).map fun slot => some (d.putChild s slot) := rfl

theorem assign_cons_eq_some {s : Segment} {r : Option Json} :
    assign (s :: p) slot d = some r ↔
      ∃ c u, d.step? s = some c ∧ assign p slot c = some u ∧ r = some (d.putChild s u) := by
  rw [assign_cons, Option.bind_eq_some_iff]
  simp only [Option.map_eq_some_iff]
  constructor
  · intro h
    obtain ⟨c, hc, u, hu, hr⟩ := h
    exact ⟨c, u, hc, hu, hr.symm⟩
  · intro h
    obtain ⟨c, u, hc, hu, hr⟩ := h
    exact ⟨c, hc, u, hu, hr.symm⟩

/-- Only the whole document can become nothing. -/
theorem nil_of_assign_none (h : assign a slot d = some none) : a = [] := by
  cases a with
  | nil => rfl
  | cons s p =>
    obtain ⟨_, _, -, -, hr⟩ := assign_cons_eq_some.mp h
    cases hr

theorem exists_of_assign {u : Option Json} (hp : ¬ a <+: p) (h : assign a slot d = some u) : ∃ d', u = some d' := by
  cases u with
  | none =>
    cases nil_of_assign_none h
    exact absurd List.nil_prefix hp
  | some d' => exact ⟨d', rfl⟩

/-- Where a walk leads to a node, something can be put in its place. -/
theorem assign_of_walk (hw : walk a d = some n) (slot : Option Json) : ∃ r, assign a slot d = some r := by
  induction a generalizing d with
  | nil => exact ⟨slot, rfl⟩
  | cons s p ih =>
    obtain ⟨c, hc, hw⟩ := Option.bind_eq_some_iff.mp hw
    obtain ⟨u, hu⟩ := ih hw
    exact ⟨_, assign_cons_eq_some.mpr ⟨c, u, hc, hu, rfl⟩⟩

theorem assign_document (hne : a ≠ []) (hw : walk a d = some n) (slot : Option Json) :
    ∃ d', assign a slot d = some (some d') := by
  obtain ⟨r, hr⟩ := assign_of_walk hw slot
  obtain ⟨d', rfl⟩ := exists_of_assign (p := []) (fun hp => hne (List.prefix_nil.mp hp)) hr
  exact ⟨d', hr⟩

theorem walk_of_assign {r : Option Json} (h : assign a slot d = some r) : ∃ n, walk a d = some n := by
  induction a generalizing d r with
  | nil => exact ⟨d, rfl⟩
  | cons s p ih =>
    obtain ⟨c, u, hc, hu, -⟩ := assign_cons_eq_some.mp h
    obtain ⟨n, hn⟩ := ih hu
    exact ⟨n, by rw [walk_cons, hc, Option.bind_some, hn]⟩

/-! ## The rest of the document -/

/-- Neither place lies at or beneath the other. -/
structure Diverge (a b : Locator) : Prop where
  left : ¬ a <+: b
  right : ¬ b <+: a

theorem Diverge.tail {s : Segment} (h : Diverge (s :: a) (s :: b)) : Diverge a b :=
  ⟨fun hp => h.left (List.cons_prefix_cons.mpr ⟨rfl, hp⟩), fun hp => h.right (List.cons_prefix_cons.mpr ⟨rfl, hp⟩)⟩

theorem assign_same (h : assign a slot d = some (some d1)) (hp : Diverge a p) : walk p d1 = walk p d := by
  induction a generalizing p d d1 with
  | nil => exact absurd List.nil_prefix hp.left
  | cons s a ih =>
    obtain ⟨c, u, hc, hu, hd⟩ := assign_cons_eq_some.mp h
    cases hd
    cases p with
    | nil => exact absurd List.nil_prefix hp.right
    | cons t p =>
      rw [walk_cons, walk_cons]
      by_cases hts : t = s
      · subst hts
        obtain ⟨c1, rfl⟩ := exists_of_assign hp.tail.left hu
        rw [Json.step?_putChild_self hc, hc, Option.bind_some, Option.bind_some, ih hu hp.tail]
      · rw [Json.step?_putChild_ne hts]

theorem assign_retains (h : assign a slot d = some (some d1)) (hap : ¬ a <+: p) : Retains p d d1 := by
  induction a generalizing p d d1 with
  | nil => exact absurd List.nil_prefix hap
  | cons s a ih =>
    obtain ⟨c, u, hc, hu, hd⟩ := assign_cons_eq_some.mp h
    cases hd
    cases p with
    | nil => exact .of_kept rfl rfl (Json.putChild_kept hc u)
    | cons t p =>
      by_cases hts : t = s
      · subst hts
        have hap' : ¬ a <+: p := fun hp => hap (List.cons_prefix_cons.mpr ⟨rfl, hp⟩)
        obtain ⟨c1, rfl⟩ := exists_of_assign hap' hu
        have hr := ih hu hap'
        constructor
        · rw [walk_cons, walk_cons, Json.step?_putChild_self hc, hc]
          exact hr.there
        · rw [walk_cons, walk_cons, Json.step?_putChild_self hc, hc]
          exact hr.back
      · exact .of_eq (by rw [walk_cons, walk_cons, Json.step?_putChild_ne hts])

/-- Changes at two places, neither at or beneath the other, can be made in either order. -/
theorem assign_comm (ho : d.Ordered) (hab : Diverge a b) (h1 : assign a x d = some (some d1))
    (h2 : assign b y d = some (some d2)) :
    ∃ d3, assign b y d1 = some (some d3) ∧ assign a x d2 = some (some d3) := by
  induction a generalizing b d d1 d2 with
  | nil => exact absurd List.nil_prefix hab.left
  | cons s a ih =>
    cases b with
    | nil => exact absurd List.nil_prefix hab.right
    | cons t b =>
      obtain ⟨c, u, hc, hu, hd1⟩ := assign_cons_eq_some.mp h1
      obtain ⟨c', w, hc', hw, hd2⟩ := assign_cons_eq_some.mp h2
      cases hd1
      cases hd2
      by_cases hst : s = t
      · subst hst
        rw [hc] at hc'
        cases hc'
        -- both change something beneath one child
        obtain ⟨c1, rfl⟩ := exists_of_assign hab.tail.left hu
        obtain ⟨c2, rfl⟩ := exists_of_assign hab.tail.right hw
        obtain ⟨c3, h3, h4⟩ := ih (ho.step? hc) hab.tail hu hw
        refine ⟨d.putChild s (some c3), assign_cons_eq_some.mpr ⟨c1, some c3, ?_, h3, ?_⟩,
          assign_cons_eq_some.mpr ⟨c2, some c3, ?_, h4, ?_⟩⟩
        · exact Json.step?_putChild_self hc c1
        · rw [Json.putChild_putChild ho]
        · exact Json.step?_putChild_self hc c2
        · rw [Json.putChild_putChild ho]
      · refine ⟨(d.putChild s u).putChild t w, assign_cons_eq_some.mpr ⟨c', w, ?_, hw, rfl⟩,
          assign_cons_eq_some.mpr ⟨c, u, ?_, hu, ?_⟩⟩
        · rw [Json.step?_putChild_ne (Ne.symm hst), hc']
        · rw [Json.step?_putChild_ne hst, hc]
        · rw [Json.putChild_comm ho hst]

/-! ## Replacing and removing -/

theorem replace?_eq_assign (hw : walk a d = some n) (node : Json) :
    replace? a node d = (assign a (some node) d).join := by
  induction a generalizing d with
  | nil => rfl
  | cons s a ih =>
    obtain ⟨c, hc, hw⟩ := Option.bind_eq_some_iff.mp hw
    obtain ⟨u, hu⟩ := assign_of_walk hw (some node)
    have hi := ih hw
    rw [hu] at hi
    rw [replace?, modify?_cons, Json.child?_of_step? hc, Option.bind_some, ← replace?, hi, assign_cons, hc,
      Option.bind_some, hu, Option.map_some]
    cases u with
    | some c1 => exact Json.setChild?_eq_putChild hc c1
    | none =>
      cases nil_of_assign_none hu
      cases hu

theorem remove?_eq_assign (hw : walk (a ++ [.key k]) d = some n) :
    remove? (a ++ [.key k]) d = (assign (a ++ [.key k]) none d).join := by
  rw [remove?_snoc]
  induction a generalizing d with
  | nil =>
    obtain ⟨c, hc, -⟩ := Option.bind_eq_some_iff.mp hw
    rw [List.nil_append, assign_cons, hc, Option.bind_some, modify?_nil]
    cases d with
    | null | bool _ | num _ | str _ | arr _ => cases hc
    | obj ms =>
      have hthere : Members.contains k ms = true := Option.isSome_of_eq_some hc
      exact if_pos hthere
  | cons s a ih =>
    rw [List.cons_append] at hw ⊢
    obtain ⟨c, hc, hw⟩ := Option.bind_eq_some_iff.mp hw
    obtain ⟨c1, hu⟩ := assign_document (by simp) hw none
    have hi := ih hw
    rw [hu] at hi
    rw [modify?_cons, Json.child?_of_step? hc, Option.bind_some, hi, assign_cons, hc, Option.bind_some, hu]
    exact Json.setChild?_eq_putChild hc c1

/-- Among items nothing is null. -/
theorem assign_item (hw : walk (a ++ [.index m]) d = some n) :
    assign (a ++ [.index m]) none d = assign (a ++ [.index m]) (some .null) d := by
  induction a generalizing d with
  | nil =>
    obtain ⟨c, hc, -⟩ := Option.bind_eq_some_iff.mp hw
    cases d <;> rfl
  | cons s a ih =>
    obtain ⟨c, hc, hw⟩ := Option.bind_eq_some_iff.mp hw
    rw [List.cons_append, assign_cons, assign_cons, hc, Option.bind_some, Option.bind_some, ih hw]

end Locator

end DocExpand
