/-
  DocExpand.Proofs.Locator.Store — reading and changing the node at a place.

  A change through a locator is a change of the node there (`modify?_some`), a longer
  locator is one change inside another (`modify?_append`), and two changes of one node are
  one (`modify?_modify?`). Writing and removing are changes of the parent. The document
  nests no deeper than before or than the new node does at its place (`modify?_nesting`).
-/

import DocExpand.Locator.Node
import DocExpand.Proofs.Members
import Mathlib.Data.List.Basic

namespace DocExpand

namespace Json

variable {d d' c v : Json} {s : Segment}

/-! ## Children -/

theorem setChild?_of_child? (h : d.child? s = some c) (v : Json) :
    ∃ d', d.setChild? s v = some d' ∧ d'.child? s = some v := by
  cases d with
  | null | bool _ | num _ | str _ => cases h
  | obj ms => exact ⟨_, rfl, Members.get?_insert_self ..⟩
  | arr items =>
    obtain ⟨i, hi, hc⟩ := Option.bind_eq_some_iff.mp h
    have hlt : i < items.length := (List.getElem?_eq_some_iff.mp hc).1
    refine ⟨.arr (items.set i v), ?_, ?_⟩
    · rw [setChild?, hi, Option.bind_some, if_pos hlt]
    · rw [child?, hi, Option.bind_some, List.getElem?_set_self hlt]

theorem setChild?_setChild? {u : Json} (h : d.setChild? s u = some d') (v : Json) :
    d'.setChild? s v = d.setChild? s v := by
  cases d with
  | null | bool _ | num _ | str _ => cases h
  | obj ms =>
    cases h
    rw [setChild?, setChild?, Members.insert_insert]
  | arr items =>
    obtain ⟨i, hi, hc⟩ := Option.bind_eq_some_iff.mp h
    split at hc
    · cases hc
      rw [setChild?, setChild?, hi, Option.bind_some, Option.bind_some, List.length_set, List.set_set]
    · cases hc

theorem setChild?_kind (h : d.setChild? s v = some d') : d'.kind = d.kind := by
  cases d with
  | null | bool _ | num _ | str _ => cases h
  | obj ms => cases h; rfl
  | arr items =>
    obtain ⟨i, -, hc⟩ := Option.bind_eq_some_iff.mp h
    split at hc
    · cases hc; rfl
    · cases hc

theorem eraseChild?_isSome (d : Json) (s : Segment) : (d.eraseChild? s).isSome = (d.child? s).isSome := by
  cases d with
  | null | bool _ | num _ | str _ => rfl
  | obj ms =>
    rw [eraseChild?, child?, ← Members.contains]
    cases Members.contains s.text ms <;> rfl
  | arr items =>
    rw [eraseChild?, child?]
    cases s.index? with
    | none => rfl
    | some i =>
      rw [Option.bind_some, Option.bind_some]
      by_cases hi : i < items.length <;> simp [hi]

theorem eraseChild?_kind (h : d.eraseChild? s = some d') : d'.kind = d.kind := by
  cases d with
  | null | bool _ | num _ | str _ => cases h
  | obj ms =>
    rw [eraseChild?] at h
    split at h
    · cases h; rfl
    · cases h
  | arr items =>
    obtain ⟨i, -, hc⟩ := Option.bind_eq_some_iff.mp h
    split at hc
    · cases hc; rfl
    · cases hc

/-! ## Nesting -/

theorem nestingItems_le_iff {items : List Json} {n : Nat} :
    nestingItems items ≤ n ↔ ∀ item ∈ items, item.nesting ≤ n := by
  induction items with
  | nil => simp [nestingItems]
  | cons item rest ih => rw [nestingItems, Nat.max_le, ih, List.forall_mem_cons]

theorem nestingMembers_le_iff {ms : Members Json} {n : Nat} :
    nestingMembers ms ≤ n ↔ ∀ m ∈ ms, m.2.nesting ≤ n := by
  induction ms with
  | nil => simp [nestingMembers]
  | cons m rest ih =>
    obtain ⟨k, v⟩ := m
    rw [nestingMembers, Nat.max_le, ih, List.forall_mem_cons]

theorem le_nestingItems {items : List Json} {item : Json} (h : item ∈ items) : item.nesting ≤ nestingItems items :=
  nestingItems_le_iff.mp (Nat.le_refl _) item h

theorem le_nestingMembers {ms : Members Json} {k : String} (h : (k, v) ∈ ms) : v.nesting ≤ nestingMembers ms :=
  nestingMembers_le_iff.mp (Nat.le_refl _) (k, v) h

theorem mem_insert {ms : Members Json} {k : String} {m : String × Json} (h : m ∈ Members.insert k v ms) :
    m = (k, v) ∨ m ∈ ms := by
  fun_induction Members.insert k v ms with
  | case1 => exact .inl (List.mem_singleton.mp h)
  | case2 k' v' rest _ ih =>
    rcases List.mem_cons.mp h with h | h
    · exact .inr (h ▸ List.mem_cons_self ..)
    · exact (ih h).imp_right (List.mem_cons_of_mem _)
  | case3 v' rest _ =>
    rcases List.mem_cons.mp h with h | h
    · exact .inl h
    · exact .inr (List.mem_cons_of_mem _ h)
  | case4 k' v' rest _ _ => exact List.mem_cons.mp h

theorem child?_nesting (h : d.child? s = some c) : c.nesting < d.nesting := by
  cases d with
  | null | bool _ | num _ | str _ => cases h
  | obj ms => exact Nat.lt_succ_of_le (le_nestingMembers (Members.mem_of_get? h))
  | arr items =>
    obtain ⟨i, -, hc⟩ := Option.bind_eq_some_iff.mp h
    exact Nat.lt_succ_of_le (le_nestingItems (List.mem_of_getElem? hc))

theorem setChild?_nesting (h : d.setChild? s v = some d') :
    v.nesting < d'.nesting ∧ d'.nesting ≤ max d.nesting (v.nesting + 1) := by
  cases d with
  | null | bool _ | num _ | str _ => cases h
  | obj ms =>
    cases h
    refine ⟨child?_nesting (s := s) (Members.get?_insert_self ..), ?_⟩
    have hins : nestingMembers (Members.insert s.text v ms) ≤ max (nestingMembers ms) v.nesting := by
      refine nestingMembers_le_iff.mpr fun m hm => ?_
      rcases mem_insert hm with rfl | hm
      · exact Nat.le_max_right ..
      · exact Nat.le_trans (le_nestingMembers hm) (Nat.le_max_left ..)
    simp only [nesting]
    omega
  | arr items =>
    obtain ⟨i, hi, hc⟩ := Option.bind_eq_some_iff.mp h
    split at hc
    · rename_i hlt
      cases hc
      refine ⟨Nat.lt_succ_of_le (le_nestingItems (List.mem_set hlt v)), ?_⟩
      have hset : nestingItems (items.set i v) ≤ max (nestingItems items) v.nesting := by
        refine nestingItems_le_iff.mpr fun item hm => ?_
        rcases List.mem_or_eq_of_mem_set hm with hm | rfl
        · exact Nat.le_trans (le_nestingItems hm) (Nat.le_max_left ..)
        · exact Nat.le_max_right ..
      simp only [nesting]
      omega
    · cases hc

theorem eraseChild?_nesting (h : d.eraseChild? s = some d') : d'.nesting ≤ d.nesting := by
  cases d with
  | null | bool _ | num _ | str _ => cases h
  | obj ms =>
    rw [eraseChild?] at h
    split at h
    · cases h
      exact Nat.succ_le_succ (nestingMembers_le_iff.mpr fun m hm => le_nestingMembers (Members.erase_sublist.mem hm))
    · cases h
  | arr items =>
    obtain ⟨i, -, hc⟩ := Option.bind_eq_some_iff.mp h
    split at hc
    · cases hc
      exact Nat.succ_le_succ (nestingItems_le_iff.mpr fun item hm => le_nestingItems (List.mem_of_mem_eraseIdx hm))
    · cases hc

end Json

namespace Locator

variable {p q : Locator} {s : Segment} {d d' n m : Json} {f g : Json → Option Json}

/-! ## Changes through a locator -/

@[simp] theorem resolve_nil (d : Json) : resolve [] d = some d := rfl

theorem resolve_cons (s : Segment) (p : Locator) (d : Json) : resolve (s :: p) d = (d.child? s).bind (resolve p) := rfl

theorem resolve_append (p q : Locator) (d : Json) : resolve (p ++ q) d = (resolve p d).bind (resolve q) := by
  induction p generalizing d with
  | nil => rfl
  | cons s p ih =>
    rw [List.cons_append, resolve_cons, resolve_cons, Option.bind_assoc]
    exact Option.bind_congr fun c _ => ih c

theorem resolve_snoc (p : Locator) (s : Segment) (d : Json) :
    resolve (p ++ [s]) d = (resolve p d).bind (·.child? s) := by
  rw [resolve_append]
  refine Option.bind_congr fun c _ => ?_
  rw [resolve_cons]
  cases c.child? s <;> rfl

theorem modify?_nil (f : Json → Option Json) (d : Json) : modify? f [] d = f d := rfl

theorem modify?_cons (f : Json → Option Json) (s : Segment) (p : Locator) (d : Json) :
    modify? f (s :: p) d = (d.child? s).bind fun c => (modify? f p c).bind (d.setChild? s) := rfl

theorem modify?_append (f : Json → Option Json) (p q : Locator) (d : Json) :
    modify? f (p ++ q) d = modify? (modify? f q) p d := by
  induction p generalizing d with
  | nil => rfl
  | cons s p ih =>
    rw [List.cons_append, modify?_cons, modify?_cons]
    exact Option.bind_congr fun c _ => by rw [ih c]

theorem modify?_of_resolve_none (h : resolve p d = none) : modify? f p d = none := by
  induction p generalizing d with
  | nil => cases h
  | cons s p ih =>
    rw [modify?_cons]
    cases hc : d.child? s with
    | none => rfl
    | some c =>
      rw [resolve_cons, hc, Option.bind_some] at h
      rw [Option.bind_some, ih h]
      rfl

/-- The change of the node is the change of the document. -/
theorem modify?_some (h : resolve p d = some n) (hf : f n = some m) :
    ∃ d', modify? f p d = some d' ∧ resolve p d' = some m := by
  induction p generalizing d with
  | nil =>
    cases h
    exact ⟨m, hf, rfl⟩
  | cons s p ih =>
    obtain ⟨c, hc, hr⟩ := Option.bind_eq_some_iff.mp h
    obtain ⟨c', hm, hr'⟩ := ih hr
    obtain ⟨d', hd', hc'⟩ := Json.setChild?_of_child? hc c'
    refine ⟨d', ?_, ?_⟩
    · rw [modify?_cons, hc, Option.bind_some, hm, Option.bind_some, hd']
    · rw [resolve_cons, hc', Option.bind_some, hr']

theorem modify?_none (h : resolve p d = some n) (hf : f n = none) : modify? f p d = none := by
  induction p generalizing d with
  | nil =>
    cases h
    exact hf
  | cons s p ih =>
    obtain ⟨c, hc, hr⟩ := Option.bind_eq_some_iff.mp h
    rw [modify?_cons, hc, Option.bind_some, ih hr]
    rfl

theorem modify?_eq_some (h : modify? f p d = some d') :
    ∃ n m, resolve p d = some n ∧ f n = some m ∧ resolve p d' = some m := by
  cases hr : resolve p d with
  | none =>
    rw [modify?_of_resolve_none hr] at h
    cases h
  | some n =>
    cases hf : f n with
    | none =>
      rw [modify?_none hr hf] at h
      cases h
    | some m =>
      obtain ⟨d'', hd, hr'⟩ := modify?_some hr hf
      rw [h] at hd
      cases hd
      exact ⟨n, m, rfl, hf, hr'⟩

/-- Only what a change does to the node counts. -/
theorem modify?_congr (h : resolve p d = some n) (hf : f n = g n) : modify? f p d = modify? g p d := by
  induction p generalizing d with
  | nil =>
    cases h
    exact hf
  | cons s p ih =>
    obtain ⟨c, hc, hr⟩ := Option.bind_eq_some_iff.mp h
    rw [modify?_cons, modify?_cons, hc, Option.bind_some, Option.bind_some, ih hr]

theorem modify?_modify? (h : modify? f p d = some d') (g : Json → Option Json) :
    modify? g p d' = modify? (fun n => (f n).bind g) p d := by
  induction p generalizing d d' with
  | nil =>
    rw [modify?_nil] at h
    rw [modify?_nil, modify?_nil, h, Option.bind_some]
  | cons s p ih =>
    rw [modify?_cons] at h
    obtain ⟨c, hc, h⟩ := Option.bind_eq_some_iff.mp h
    obtain ⟨c', hm, hd⟩ := Option.bind_eq_some_iff.mp h
    obtain ⟨d'', hd'', hc''⟩ := Json.setChild?_of_child? hc c'
    rw [hd] at hd''
    cases hd''
    rw [modify?_cons, modify?_cons, hc, hc'', Option.bind_some, Option.bind_some, ih hm]
    exact Option.bind_congr fun c'' _ => Json.setChild?_setChild? hd c''

/-- A change is the replacement of the node by what it makes of it. -/
theorem modify?_eq_replace? (h : resolve p d = some n) : modify? f p d = (f n).bind fun m => replace? p m d := by
  cases hf : f n with
  | none => exact modify?_none h hf
  | some m => exact modify?_congr h hf

/-! ## Writing and removing -/

theorem write?_snoc (p : Locator) (s : Segment) (value d : Json) :
    write? (p ++ [s]) value d = modify? (·.setChild? s value) p d := by
  rw [write?, List.getLast?_concat, List.dropLast_concat]

theorem remove?_snoc (p : Locator) (s : Segment) (d : Json) :
    remove? (p ++ [s]) d = modify? (·.eraseChild? s) p d := by
  rw [remove?, List.getLast?_concat, List.dropLast_concat]

/-- Where a node stands, writing is replacing. -/
theorem write?_eq_replace? (h : resolve p d = some n) (value : Json) : write? p value d = replace? p value d := by
  rcases List.eq_nil_or_concat' p with rfl | ⟨q, s, rfl⟩
  · rfl
  · rw [resolve_snoc] at h
    obtain ⟨c, hr, hc⟩ := Option.bind_eq_some_iff.mp h
    rw [write?_snoc, replace?, modify?_append]
    refine modify?_congr hr ?_
    rw [modify?_cons, hc]
    rfl

/-! ## Nesting -/

theorem resolve_nesting (h : resolve p d = some n) : p.length + n.nesting ≤ d.nesting := by
  induction p generalizing d with
  | nil =>
    cases h
    exact Nat.le_of_eq (Nat.zero_add _)
  | cons s p ih =>
    obtain ⟨c, hc, hr⟩ := Option.bind_eq_some_iff.mp h
    have := ih hr
    have := Json.child?_nesting hc
    rw [List.length_cons]
    omega

/-- A changed document is as deep as before, or as the changed node makes it. -/
theorem modify?_nesting (h : resolve p d = some n) (hf : f n = some m) (hd : modify? f p d = some d') :
    p.length + m.nesting ≤ d'.nesting ∧ d'.nesting ≤ max d.nesting (p.length + m.nesting) := by
  induction p generalizing d d' with
  | nil =>
    cases h
    rw [modify?_nil, hf] at hd
    cases hd
    rw [List.length_nil]
    omega
  | cons s p ih =>
    obtain ⟨c, hc, hr⟩ := Option.bind_eq_some_iff.mp h
    rw [modify?_cons, hc, Option.bind_some] at hd
    obtain ⟨c', hm, hs⟩ := Option.bind_eq_some_iff.mp hd
    have hi := ih hr hm
    have hcn := Json.child?_nesting hc
    have hsn := Json.setChild?_nesting hs
    rw [List.length_cons]
    omega

theorem modify?_kind (h : modify? f p d = some d') (hf : ∀ n m, f n = some m → m.kind = n.kind) : d'.kind = d.kind := by
  cases p with
  | nil => exact hf _ _ h
  | cons s p =>
    rw [modify?_cons] at h
    obtain ⟨c, -, h⟩ := Option.bind_eq_some_iff.mp h
    obtain ⟨c', -, h⟩ := Option.bind_eq_some_iff.mp h
    exact Json.setChild?_kind h

theorem replace?_kind (hp : p ≠ []) {value : Json} (h : replace? p value d = some d') : d'.kind = d.kind := by
  cases p with
  | nil => exact absurd rfl hp
  | cons s p =>
    rw [replace?, modify?_cons] at h
    obtain ⟨c, -, h⟩ := Option.bind_eq_some_iff.mp h
    obtain ⟨c', -, h⟩ := Option.bind_eq_some_iff.mp h
    exact Json.setChild?_kind h

theorem remove?_kind (h : remove? p d = some d') : d'.kind = d.kind := by
  rcases List.eq_nil_or_concat' p with rfl | ⟨q, s, rfl⟩
  · cases h
  · rw [remove?_snoc] at h
    exact modify?_kind h fun _ _ => Json.eraseChild?_kind

theorem remove?_isSome (hp : p ≠ []) (d : Json) : (remove? p d).isSome = (resolve p d).isSome := by
  rcases List.eq_nil_or_concat' p with rfl | ⟨q, s, rfl⟩
  · exact absurd rfl hp
  · rw [remove?_snoc, resolve_snoc]
    cases hr : resolve q d with
    | none =>
      rw [modify?_of_resolve_none hr]
      rfl
    | some n =>
      rw [Option.bind_some, ← Json.eraseChild?_isSome]
      cases hc : n.eraseChild? s with
      | none =>
        rw [modify?_none hr hc]
      | some n' =>
        obtain ⟨d', hd', -⟩ := modify?_some (f := (·.eraseChild? s)) hr hc
        rw [hd']
        rfl

theorem remove?_nesting (h : remove? p d = some d') : d'.nesting ≤ d.nesting := by
  rcases List.eq_nil_or_concat' p with rfl | ⟨q, s, rfl⟩
  · cases h
  · rw [remove?_snoc] at h
    obtain ⟨n, m, hr, hf, -⟩ := modify?_eq_some h
    have hm := (modify?_nesting hr hf h).2
    have hn := resolve_nesting hr
    have he := Json.eraseChild?_nesting hf
    omega

end Locator

end DocExpand
