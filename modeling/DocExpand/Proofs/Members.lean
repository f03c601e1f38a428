/-
  DocExpand.Proofs.Members — what looking up, inserting and erasing do to one another.

  Ascending members hold each key once, so `get?` finds exactly what is in the list, and
  inserting and erasing keep the order. Changes at different keys commute; at one key the
  later one wins. `put` is either change: what stands under a key, or nothing. Of pairs in any
  order the last one of a key wins (`get?_ofPairs`).
-/

import DocExpand.Members
import Mathlib.Data.List.Induction

namespace DocExpand.Members

variable {α : Type} {key other : String} {value : α} {ms : Members α}

/-! ## Order -/

theorem ascending_nil : Ascending ([] : Members α) := List.Pairwise.nil

theorem ascending_cons : Ascending ((key, value) :: ms) ↔ (∀ k ∈ keys ms, key < k) ∧ Ascending ms :=
  List.pairwise_cons

theorem Ascending.tail (h : Ascending ((key, value) :: ms)) : Ascending ms := (ascending_cons.mp h).2

theorem Ascending.head_lt (h : Ascending ((key, value) :: ms)) : ∀ k ∈ keys ms, key < k := (ascending_cons.mp h).1

theorem Ascending.not_mem (h : Ascending ((key, value) :: ms)) : key ∉ keys ms :=
  fun hm => String.lt_irrefl key (h.head_lt key hm)

theorem mem_keys_of_mem {k : String} {v : α} (h : (k, v) ∈ ms) : k ∈ keys ms := List.mem_map_of_mem h

theorem mem_keys_insert {k : String} : k ∈ keys (insert key value ms) ↔ k = key ∨ k ∈ keys ms := by
  fun_induction insert key value ms with
  | case1 => simp
  | case2 k' v rest _ ih =>
    rw [keys_cons, List.mem_cons, ih, keys_cons, List.mem_cons, or_left_comm]
  | case3 v rest _ => simp
  | case4 k' v rest _ _ => simp

theorem lt_of_not_lt {a b : String} (h : ¬ b < a) (hne : b ≠ a) : a < b := by
  rcases @Std.le_total String _ _ a b with hab | hab
  · exact Std.lt_of_le_of_ne hab hne.symm
  · exact absurd (Std.lt_of_le_of_ne hab hne) h

theorem Ascending.insert (h : Ascending ms) : Ascending (Members.insert key value ms) := by
  fun_induction Members.insert key value ms with
  | case1 => exact List.pairwise_singleton ..
  | case2 k v rest hlt ih =>
    refine ascending_cons.mpr ⟨fun k' hk => ?_, ih h.tail⟩
    rcases mem_keys_insert.mp hk with rfl | hk
    · exact hlt
    · exact h.head_lt k' hk
  | case3 v rest _ => exact ascending_cons.mpr ⟨h.head_lt, h.tail⟩
  | case4 k v rest hlt hne =>
    have hkey : key < k := lt_of_not_lt hlt hne
    refine ascending_cons.mpr ⟨fun k' hk => ?_, h⟩
    rcases List.mem_cons.mp hk with rfl | hk
    · exact hkey
    · exact String.lt_trans hkey (h.head_lt k' hk)

theorem erase_sublist : (erase key ms).Sublist ms := by
  fun_induction erase key ms with
  | case1 => exact List.Sublist.slnil
  | case2 v rest => exact List.sublist_cons_self ..
  | case3 k v rest _ ih => exact ih.cons_cons _

theorem Ascending.erase (h : Ascending ms) : Ascending (Members.erase key ms) :=
  List.Pairwise.sublist (erase_sublist.map Prod.fst) h

/-! ## Looking up -/

theorem get?_eq_none_iff : get? key ms = none ↔ key ∉ keys ms := by
  fun_induction get? key ms with
  | case1 => simp
  | case2 v rest => simp
  | case3 k v rest hne ih => rw [ih, keys_cons, List.mem_cons, not_or, and_iff_right (Ne.symm hne)]

theorem contains_iff : contains key ms = true ↔ key ∈ keys ms := by
  rw [contains, Option.isSome_iff_ne_none, ne_eq, get?_eq_none_iff, Classical.not_not]

theorem mem_of_get? (h : get? key ms = some value) : (key, value) ∈ ms := by
  fun_induction get? key ms with
  | case1 => cases h
  | case2 v rest => cases h; exact List.mem_cons_self ..
  | case3 k v rest _ ih => exact List.mem_cons_of_mem _ (ih h)

theorem get?_cons_self : get? key ((key, value) :: ms) = some value := if_pos rfl

theorem get?_cons_of_ne (h : key ≠ other) : get? other ((key, value) :: ms) = get? other ms := if_neg h

theorem get?_of_nodup (hn : (keys ms).Nodup) (h : (key, value) ∈ ms) : get? key ms = some value := by
  induction ms with
  | nil => cases h
  | cons m rest ih =>
    obtain ⟨k, v⟩ := m
    rw [keys_cons, List.nodup_cons] at hn
    rcases List.mem_cons.mp h with h | h
    · cases h
      exact get?_cons_self
    · have hne : k ≠ key := fun he => hn.1 (he ▸ mem_keys_of_mem h)
      rw [get?_cons_of_ne hne, ih hn.2 h]

theorem get?_of_mem (ha : Ascending ms) (h : (key, value) ∈ ms) : get? key ms = some value :=
  get?_of_nodup (ha.imp String.ne_of_lt) h

theorem get?_erase_self (h : Ascending ms) : get? key (erase key ms) = none := by
  fun_induction erase key ms with
  | case1 => rfl
  | case2 v rest => exact get?_eq_none_iff.mpr h.not_mem
  | case3 k v rest hne ih => rw [get?_cons_of_ne hne, ih h.tail]

theorem get?_erase_of_ne (h : key ≠ other) : get? other (erase key ms) = get? other ms := by
  fun_induction erase key ms with
  | case1 => rfl
  | case2 v rest => rw [get?_cons_of_ne h]
  | case3 k v rest _ ih =>
    by_cases hk : k = other
    · rw [hk, get?_cons_self, get?_cons_self]
    · rw [get?_cons_of_ne hk, get?_cons_of_ne hk, ih]

theorem lt_of_get? {k : String} {v : α} (h : Ascending ((key, value) :: ms)) (hk : get? k ms = some v) : key < k :=
  h.head_lt k (mem_keys_of_mem (mem_of_get? hk))

theorem erase_of_not_mem (h : key ∉ keys ms) : erase key ms = ms := by
  fun_induction erase key ms with
  | case1 => rfl
  | case2 v rest => exact absurd (List.mem_cons_self ..) h
  | case3 k v rest _ ih => rw [ih fun hm => h (List.mem_cons_of_mem _ hm)]

/-- Ascending members are what is found in them. -/
theorem eq_of_get? {a b : Members α} (ha : Ascending a) (hb : Ascending b) (h : ∀ k, get? k a = get? k b) : a = b := by
  induction a generalizing b with
  | nil =>
    cases b with
    | nil => rfl
    | cons m b =>
      have := h m.1
      rw [get?_nil, get?_cons_self] at this
      cases this
  | cons m a ih =>
    obtain ⟨k, v⟩ := m
    have hk := h k
    rw [get?_cons_self] at hk
    cases b with
    | nil => cases hk
    | cons n b =>
      obtain ⟨l, w⟩ := n
      have heq : k = l := by
        refine Classical.byContradiction fun hne => ?_
        rw [get?_cons_of_ne (Ne.symm hne)] at hk
        have hl := h l
        rw [get?_cons_self, get?_cons_of_ne hne] at hl
        exact String.lt_irrefl k (String.lt_trans (lt_of_get? ha hl) (lt_of_get? hb hk.symm))
      subst heq
      rw [get?_cons_self] at hk
      cases hk
      rw [ih ha.tail hb.tail fun k' => ?_]
      by_cases hk' : k = k'
      · subst hk'
        rw [get?_eq_none_iff.mpr ha.not_mem, get?_eq_none_iff.mpr hb.not_mem]
      · have := h k'
        rwa [get?_cons_of_ne hk', get?_cons_of_ne hk'] at this

/-! ## Changes -/

theorem insert_insert (later : α) : insert key later (insert key value ms) = insert key later ms := by
  fun_induction insert key value ms with
  | case1 => simp [insert]
  | case2 k v rest hlt ih => simp [insert, hlt, ih]
  | case3 v rest _ => simp [insert]
  | case4 k v rest hlt hne => simp [insert, hlt, hne]

/-- What stands under a key, or that nothing does. -/
def put (key : String) (slot : Option α) (ms : Members α) : Members α :=
  match slot with
  | some value => insert key value ms
  | none => erase key ms

theorem Ascending.put (h : Ascending ms) (slot : Option α) : Ascending (Members.put key slot ms) := by
  cases slot
  · exact h.erase
  · exact h.insert

theorem get?_put_self (h : Ascending ms) (slot : Option α) : get? key (put key slot ms) = slot := by
  cases slot
  · exact get?_erase_self h
  · exact get?_insert_self ..

theorem get?_put_of_ne (h : key ≠ other) (slot : Option α) : get? other (put key slot ms) = get? other ms := by
  cases slot
  · exact get?_erase_of_ne h
  · exact get?_insert_of_ne h ..

theorem mem_keys_put {k : String} {slot : Option α} (h : k ∈ keys (put key slot ms)) : k = key ∨ k ∈ keys ms := by
  cases slot with
  | none => exact .inr ((erase_sublist.map Prod.fst).mem h)
  | some v => exact mem_keys_insert.mp h

theorem put_put (h : Ascending ms) (a b : Option α) : put key b (put key a ms) = put key b ms := by
  refine eq_of_get? ((h.put a).put b) (h.put b) fun k => ?_
  by_cases hk : key = k
  · subst hk
    rw [get?_put_self (h.put a), get?_put_self h]
  · rw [get?_put_of_ne hk, get?_put_of_ne hk, get?_put_of_ne hk]

theorem put_comm (h : Ascending ms) (hne : key ≠ other) (a b : Option α) :
    put key a (put other b ms) = put other b (put key a ms) := by
  refine eq_of_get? ((h.put b).put a) ((h.put a).put b) fun k => ?_
  by_cases hk : key = k
  · subst hk
    rw [get?_put_self (h.put b), get?_put_of_ne (Ne.symm hne), get?_put_self h]
  · rw [get?_put_of_ne hk]
    by_cases ho : other = k
    · subst ho
      rw [get?_put_self h, get?_put_self (h.put a)]
    · rw [get?_put_of_ne ho, get?_put_of_ne ho, get?_put_of_ne hk]

theorem put_of_forall_lt (h : ∀ k ∈ keys ms, key < k) (slot : Option α) :
    put key slot ms = (slot.toList.map fun v => (key, v)) ++ ms := by
  cases ms with
  | nil => cases slot <;> rfl
  | cons m rest =>
    obtain ⟨k, v⟩ := m
    have hlt := h k (List.mem_cons_self ..)
    have hne : k ≠ key := fun e => by subst e; exact String.lt_irrefl k hlt
    cases slot with
    | none => exact erase_of_not_mem fun hm => String.lt_irrefl key (h key hm)
    | some w => simp [put, insert, String.lt_asymm hlt, hne]

/-! ## Pairs -/

theorem ofPairs_concat (pairs : List (String × α)) (key : String) (value : α) :
    ofPairs (pairs ++ [(key, value)]) = insert key value (ofPairs pairs) := by
  rw [ofPairs, List.foldl_append]
  rfl

theorem ascending_ofPairs (pairs : List (String × α)) : Ascending (ofPairs pairs) := by
  induction pairs using List.reverseRecOn with
  | nil => exact ascending_nil
  | append_singleton pairs last ih =>
    rw [ofPairs_concat]
    exact ih.insert

/-- The last value of a key wins. -/
theorem get?_ofPairs (pairs : List (String × α)) (key : String) : get? key (ofPairs pairs) = get? key pairs.reverse := by
  induction pairs using List.reverseRecOn with
  | nil => rfl
  | append_singleton pairs last ih =>
    obtain ⟨k, v⟩ := last
    rw [ofPairs_concat, List.reverse_concat]
    by_cases hk : k = key
    · subst hk
      rw [get?_insert_self, get?_cons_self]
    · rw [get?_insert_of_ne hk, get?_cons_of_ne hk, ih]

/-- Members in any order are put into theirs. -/
theorem ofPairs_perm {pairs : List (String × α)} (hp : pairs.Perm ms) (ha : Ascending ms) : ofPairs pairs = ms := by
  have hn : (keys ms).Nodup := List.Pairwise.imp String.ne_of_lt ha
  have hperm : pairs.reverse.Perm ms := (List.reverse_perm pairs).trans hp
  refine eq_of_get? (ascending_ofPairs pairs) ha fun k => ?_
  rw [get?_ofPairs]
  cases hk : get? k ms with
  | some v => exact get?_of_nodup ((hperm.map Prod.fst).nodup_iff.mpr hn) (hperm.mem_iff.mpr (mem_of_get? hk))
  | none =>
    rw [get?_eq_none_iff] at hk ⊢
    exact fun hm => hk ((hperm.map Prod.fst).mem_iff.mp hm)

/-- Pairs in ascending order are members as they are. -/
theorem ofPairs_ascending (h : Ascending ms) : ofPairs ms = ms := ofPairs_perm (.refl ms) h

end DocExpand.Members
