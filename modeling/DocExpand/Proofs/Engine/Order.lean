/-
  DocExpand.Proofs.Engine.Order — the order of a pass.

  A schedule is a permutation of what was found. Moving a consumer behind what it consumes
  can only misplace consumers of the one that moved, so with weights in which every
  invocation outweighs all its consumers together each move lowers the weight that is
  misplaced (`move?_debt`). Such weights exist when some order has every consumer behind
  what it consumes (`exists_weights`), so when some rank puts consumers before what they
  consume (`exists_settled_of_rank`); then the loop ends, with no consumer misplaced
  (`exists_schedule`, `schedule_settled`), and so whatever is consumed, also through other
  consumers, stands before its consumer (`pair_of_chain`). If what is consumed is no less
  deep than its consumer the schedule also keeps deeper invocations first
  (`schedule_falling`). Only consumers are moved: the others keep the order by depth, phase
  and scan (`pair_of_idle`).
-/

import DocExpand.Engine.Schedule
import Mathlib.Algebra.GroupWithZero.Nat
import Mathlib.Data.List.Induction
import Mathlib.Data.List.Sort

namespace DocExpand.Invocation

open List
open scoped CorePower

variable {i j : Invocation} {is js : List Invocation}

/-! ## Standing before -/

section Before

variable {α : Type} {a b c : α} {l : List α}

/-- Of two members of a list one stands before the other. -/
theorem pair_or_pair (ha : a ∈ l) (hb : b ∈ l) (hne : a ≠ b) : [a, b] <+ l ∨ [b, a] <+ l := by
  induction l with
  | nil => cases ha
  | cons x rest ih =>
    rcases List.mem_cons.mp ha with rfl | ha'
    · have hb' := (List.mem_cons.mp hb).resolve_left (Ne.symm hne)
      exact .inl ((List.singleton_sublist.mpr hb').cons_cons a)
    · rcases List.mem_cons.mp hb with rfl | hb'
      · exact .inr ((List.singleton_sublist.mpr ha').cons_cons b)
      · exact (ih ha' hb').imp (·.cons x) (·.cons x)

theorem pair_trans (hn : l.Nodup) (hab : [a, b] <+ l) (hbc : [b, c] <+ l) : [a, c] <+ l := by
  induction l with
  | nil => cases hab
  | cons x rest ih =>
    obtain ⟨hx, hrest⟩ := List.nodup_cons.mp hn
    rcases List.sublist_cons_iff.mp hbc with hbc' | ⟨r, hr, hc⟩
    · rcases List.sublist_cons_iff.mp hab with hab' | ⟨r, hr, -⟩
      · exact (ih hrest hab' hbc').cons x
      · obtain ⟨rfl, -⟩ := List.cons.inj hr
        have hmem : c ∈ rest := hbc'.subset (show c ∈ [b, c] by simp)
        exact (List.singleton_sublist.mpr hmem).cons_cons a
    · -- `b` heads the list, so nothing stands before it
      obtain ⟨rfl, -⟩ := List.cons.inj hr
      rcases List.sublist_cons_iff.mp hab with hab' | ⟨r', hr', hb⟩
      · exact absurd (hab'.subset (show b ∈ [a, b] by simp)) hx
      · obtain ⟨-, rfl⟩ := List.cons.inj hr'
        exact absurd (hb.subset (List.mem_singleton_self b)) hx

end Before

/-! ## Sorting -/

theorem precedes_iff : i.precedes j = true ↔
    j.depth < i.depth ∨ i.depth = j.depth ∧ i.directive.phase.rank ≤ j.directive.phase.rank := by
  simp [precedes]

theorem place_eq (i : Invocation) (is : List Invocation) :
    i.place is = is.orderedInsert (fun a b => a.precedes b = true) i := by
  induction is with
  | nil => rfl
  | cons j rest ih => rw [place, ih, List.orderedInsert_cons]

theorem sort_eq (is : List Invocation) : sort is = is.insertionSort fun a b => a.precedes b = true := by
  induction is with
  | nil => rfl
  | cons i rest ih =>
    rw [List.insertionSort_cons, ← ih, ← place_eq]
    rfl

theorem sort_perm (is : List Invocation) : (sort is).Perm is := sort_eq is ▸ List.perm_insertionSort ..

instance : Std.Total fun a b : Invocation => a.precedes b = true where
  total a b := by
    simp only [precedes_iff]
    omega

instance : IsTrans Invocation fun a b => a.precedes b = true where
  trans a b c := by
    simp only [precedes_iff]
    omega

theorem sort_sorted (is : List Invocation) : (sort is).Pairwise fun a b => a.precedes b = true :=
  sort_eq is ▸ List.pairwise_insertionSort ..

/-- Deeper invocations come first. -/
def Falling (is : List Invocation) : Prop := is.Pairwise fun i j => j.depth ≤ i.depth

theorem sort_falling (is : List Invocation) : Falling (sort is) := by
  refine (sort_sorted is).imp fun {i j} h => ?_
  have := precedes_iff.mp h
  omega

/-- Of an earlier phase, or of the same phase and found before. -/
def Earlier (is : List Invocation) (i j : Invocation) : Prop :=
  i.directive.phase.rank < j.directive.phase.rank ∨ i.directive.phase.rank = j.directive.phase.rank ∧ [i, j] <+ is

/-- At one depth the earlier comes first. -/
theorem sort_pair (hi : i ∈ is) (hj : j ∈ is) (hd : i.depth = j.depth) (h : Earlier is i j) : [i, j] <+ sort is := by
  rcases h with hlt | ⟨heq, hfound⟩
  · have hne : i ≠ j := by
      intro he
      subst he
      omega
    rcases pair_or_pair ((sort_perm is).mem_iff.mpr hi) ((sort_perm is).mem_iff.mpr hj) hne with hij | hji
    · exact hij
    · have := precedes_iff.mp (List.pairwise_iff_forall_sublist.mp (sort_sorted is) hji)
      omega
  · rw [sort_eq]
    exact List.pair_sublist_insertionSort (precedes_iff.mpr (.inr ⟨hd, Nat.le_of_eq heq⟩)) hfound

/-! ## Moving -/

theorem placeBehind_perm (i : Invocation) (is : List Invocation) : (i.placeBehind is).Perm (i :: is) := by
  induction is with
  | nil => exact .refl _
  | cons j rest ih =>
    rw [placeBehind]
    split
    · exact (ih.cons j).trans (.swap i j rest)
    · exact .swap i j rest

theorem move?_perm (h : move? is = some js) : js.Perm is := by
  induction is generalizing js with
  | nil => cases h
  | cons i rest ih =>
    rw [move?] at h
    split at h
    · cases h
      exact placeBehind_perm i rest
    · obtain ⟨moved, hm, rfl⟩ := Option.map_eq_some_iff.mp h
      exact (ih hm).cons i

theorem placeBehind_filter {p : Invocation → Bool} (hi : p i = false) (is : List Invocation) :
    (i.placeBehind is).filter p = is.filter p := by
  induction is with
  | nil => simp [placeBehind, hi]
  | cons j rest ih =>
    rw [placeBehind]
    split
    · rw [List.filter_cons, List.filter_cons, ih]
    · rw [List.filter_cons, List.filter_cons, List.filter_cons, hi, if_neg Bool.false_ne_true]

/-- A move leaves the others in their order. -/
theorem move?_filter {p : Invocation → Bool} (hp : ∀ i ∈ is, p i = true → is.any i.consumes = false)
    (h : move? is = some js) : js.filter p = is.filter p := by
  induction is generalizing js with
  | nil => cases h
  | cons i rest ih =>
    rw [move?] at h
    split at h
    · rename_i hc
      cases h
      have hi : p i = false := by
        refine Bool.eq_false_iff.mpr fun hi => ?_
        have := hp i (List.mem_cons_self ..) hi
        rw [List.any_cons, hc, Bool.or_true] at this
        cases this
      rw [placeBehind_filter hi, List.filter_cons, hi, if_neg Bool.false_ne_true]
    · obtain ⟨moved, hm, rfl⟩ := Option.map_eq_some_iff.mp h
      have hp' : ∀ j ∈ rest, p j = true → rest.any j.consumes = false := by
        intro j hj hpj
        have := hp j (List.mem_cons_of_mem _ hj) hpj
        rw [List.any_cons, Bool.or_eq_false_iff] at this
        exact this.2
      rw [List.filter_cons, List.filter_cons, ih hp' hm]

/-- No consumer stands before what it consumes. -/
def Settled (is : List Invocation) : Prop := is.Pairwise fun i j => i.consumes j = false

theorem move?_none : move? is = none ↔ Settled is := by
  induction is with
  | nil => exact ⟨fun _ => List.Pairwise.nil, fun _ => rfl⟩
  | cons i rest ih =>
    rw [move?, Settled, List.pairwise_cons]
    by_cases hc : rest.any i.consumes = true
    · rw [if_pos hc]
      refine ⟨fun h => (nomatch h), fun ⟨h, _⟩ => ?_⟩
      obtain ⟨j, hj, hj'⟩ := List.any_eq_true.mp hc
      rw [h j hj] at hj'
      cases hj'
    · rw [if_neg hc, Option.map_eq_none_iff, ih, Settled]
      refine ⟨fun h => ⟨fun j hj => ?_, h⟩, fun h => h.2⟩
      by_cases hj' : i.consumes j = true
      · exact absurd (List.any_eq_true.mpr ⟨j, hj, hj'⟩) hc
      · simpa using hj'

/-- What holds of others and something consumed holds of them and its consumer too. -/
def Handed (R : Invocation → Invocation → Prop) (is : List Invocation) : Prop :=
  ∀ i ∈ is, ∀ j ∈ is, i.consumes j = true → R j i ∧ ∀ a ∈ is, R a j → R a i

section Handed

variable {R : Invocation → Invocation → Prop}

theorem Handed.tail (hr : Handed R (i :: is)) : Handed R is := by
  intro a ha b hb hc
  obtain ⟨hba, hother⟩ := hr a (List.mem_cons_of_mem _ ha) b (List.mem_cons_of_mem _ hb) hc
  exact ⟨hba, fun x hx => hother x (List.mem_cons_of_mem _ hx)⟩

theorem Handed.perm (hr : Handed R is) (hp : js.Perm is) : Handed R js := by
  intro a ha b hb hc
  obtain ⟨hba, hother⟩ := hr a (hp.mem_iff.mp ha) b (hp.mem_iff.mp hb) hc
  exact ⟨hba, fun x hx => hother x (hp.mem_iff.mp hx)⟩

theorem placeBehind_pairwise (h : (i :: is).Pairwise R) (hr : Handed R (i :: is)) (hc : is.any i.consumes = true) :
    (i.placeBehind is).Pairwise R := by
  induction is with
  | nil => cases hc
  | cons j rest ih =>
    obtain ⟨hi, h'⟩ := List.pairwise_cons.mp h
    obtain ⟨hj, hrest⟩ := List.pairwise_cons.mp h'
    have hself := hr i (List.mem_cons_self ..)
    have hjmem : j ∈ i :: j :: rest := List.mem_cons_of_mem _ (List.mem_cons_self ..)
    rw [placeBehind]
    split
    · rename_i hany
      obtain ⟨k, hk, hck⟩ := List.any_eq_true.mp hany
      -- `j` stands before something that `i` consumes, and so before `i`
      have hji : R j i := (hself k (List.mem_cons_of_mem _ (List.mem_cons_of_mem _ hk)) hck).2 j hjmem (hj k hk)
      have hsub : ∀ m, m ∈ i :: rest → m ∈ i :: j :: rest := by
        intro m hm
        rcases List.mem_cons.mp hm with rfl | hm
        · exact List.mem_cons_self ..
        · exact List.mem_cons_of_mem _ (List.mem_cons_of_mem _ hm)
      refine List.pairwise_cons.mpr ⟨fun m hm => ?_, ih (List.pairwise_cons.mpr ⟨?_, hrest⟩) (fun a ha b hb hab => ?_) hany⟩
      · rcases List.mem_cons.mp ((placeBehind_perm i rest).mem_iff.mp hm) with rfl | hm
        · exact hji
        · exact hj m hm
      · exact fun m hm => hi m (List.mem_cons_of_mem _ hm)
      · obtain ⟨hba, hother⟩ := hr a (hsub a ha) b (hsub b hb) hab
        exact ⟨hba, fun x hx => hother x (hsub x hx)⟩
    · rename_i hany
      have hcj : i.consumes j = true := by
        rw [List.any_cons, Bool.or_eq_true] at hc
        exact hc.resolve_right hany
      refine List.pairwise_cons.mpr ⟨fun m hm => ?_, List.pairwise_cons.mpr ⟨?_, hrest⟩⟩
      · rcases List.mem_cons.mp hm with rfl | hm
        · exact (hself j hjmem hcj).1
        · exact hj m hm
      · exact fun m hm => hi m (List.mem_cons_of_mem _ hm)

theorem move?_pairwise (h : is.Pairwise R) (hr : Handed R is) (hm : move? is = some js) : js.Pairwise R := by
  induction is generalizing js with
  | nil => cases hm
  | cons i rest ih =>
    rw [move?] at hm
    split at hm
    · rename_i hc
      cases hm
      exact placeBehind_pairwise h hr hc
    · obtain ⟨hi, hrest⟩ := List.pairwise_cons.mp h
      obtain ⟨moved, hmoved, rfl⟩ := Option.map_eq_some_iff.mp hm
      exact List.pairwise_cons.mpr ⟨fun j hj => hi j ((move?_perm hmoved).mem_iff.mp hj), ih hrest hr.tail hmoved⟩

end Handed

/-- What is consumed is no less deep than its consumer. -/
def Level (is : List Invocation) : Prop := ∀ i ∈ is, ∀ j ∈ is, i.consumes j = true → i.depth ≤ j.depth

/-! ## Weights -/

section Weights

variable (w : Invocation → Nat)

/-- The weight of the misplaced consumers. -/
def debt : List Invocation → Nat
  | [] => 0
  | i :: rest => (if rest.any i.consumes then w i else 0) + debt rest

/-- The weight of the consumers of `i`. -/
def owed (i : Invocation) (is : List Invocation) : Nat := ((is.filter (·.consumes i)).map w).sum

/-- Every invocation outweighs its other consumers together. -/
def Weighed (is : List Invocation) : Prop := ∀ i ∈ is, owed w i (is.erase i) < w i

variable {w}

theorem owed_cons (i j : Invocation) (is : List Invocation) :
    owed w i (j :: is) = (if j.consumes i then w j else 0) + owed w i is := by
  unfold owed
  by_cases h : j.consumes i = true
  · rw [List.filter_cons, if_pos h, if_pos h, List.map_cons, List.sum_cons]
  · rw [List.filter_cons, if_neg h, if_neg h, Nat.zero_add]

theorem owed_perm (i : Invocation) (h : js.Perm is) : owed w i js = owed w i is :=
  ((h.filter _).map w).sum_nat

theorem Weighed.perm (hw : Weighed w is) (h : js.Perm is) : Weighed w js := by
  intro i hi
  rw [owed_perm i (h.erase i)]
  exact hw i (h.mem_iff.mp hi)

theorem Weighed.head (hw : Weighed w (i :: is)) : owed w i is < w i := by
  have := hw i (List.mem_cons_self ..)
  rwa [List.erase_cons_head] at this

theorem Weighed.tail (hw : Weighed w (i :: is)) : Weighed w is := by
  intro j hj
  have hwj := hw j (List.mem_cons_of_mem _ hj)
  by_cases hij : i = j
  · subst hij
    -- the other occurrence is one consumer less
    have hperm := owed_perm (w := w) i (List.perm_cons_erase hj)
    rw [owed_cons] at hperm
    rw [List.erase_cons_head] at hwj
    omega
  · rw [List.erase_cons_tail (by simpa using hij), owed_cons] at hwj
    omega

/-- Only consumers of the moved one become misplaced. -/
theorem placeBehind_debt (i : Invocation) (is : List Invocation) :
    debt w (i.placeBehind is) ≤ debt w is + owed w i is := by
  induction is with
  | nil => exact Nat.le_of_eq rfl
  | cons j rest ih =>
    rw [placeBehind, owed_cons]
    split
    · have hany : (i.placeBehind rest).any j.consumes = (j.consumes i || rest.any j.consumes) := by
        rw [(placeBehind_perm i rest).any_eq, List.any_cons]
      rw [debt, debt, hany]
      by_cases hji : j.consumes i = true
      · simp only [hji, Bool.true_or, if_true]
        omega
      · simp only [hji, Bool.false_or, Bool.false_eq_true, if_false]
        omega
    · rename_i hc
      rw [debt, debt, debt, List.any_cons, if_neg hc]
      by_cases hji : j.consumes i = true
      · simp only [hji, Bool.true_or, if_true]
        omega
      · simp only [hji, Bool.false_or, Bool.false_eq_true, if_false]
        omega

/-- A move makes the misplaced weight smaller. -/
theorem move?_debt (hw : Weighed w is) (h : move? is = some js) : debt w js < debt w is := by
  induction is generalizing js with
  | nil => cases h
  | cons i rest ih =>
    rw [move?] at h
    split at h
    · rename_i hc
      cases h
      have hi := hw.head
      have hb := placeBehind_debt (w := w) i rest
      rw [debt, if_pos hc]
      omega
    · obtain ⟨moved, hm, rfl⟩ := Option.map_eq_some_iff.mp h
      have hlt := ih hw.tail hm
      rw [debt, debt, (move?_perm hm).any_eq]
      omega

theorem owed_le_sum (i : Invocation) (is : List Invocation) : owed w i is ≤ (is.map w).sum := by
  induction is with
  | nil => exact Nat.le_refl _
  | cons j rest ih =>
    rw [owed_cons, List.map_cons, List.sum_cons]
    split <;> omega

theorem debt_le_sum (is : List Invocation) : debt w is ≤ (is.map w).sum := by
  induction is with
  | nil => exact Nat.le_refl _
  | cons i rest ih =>
    rw [debt, List.map_cons, List.sum_cons]
    split <;> omega

end Weights

/-! What heads a settled list consumes nothing behind it, so it adds to no debt there. -/

section Heading

variable {w : Invocation → Nat} (hi : ∀ j ∈ is, i.consumes j = false)

include hi

theorem owed_behind (hj : j ∈ is) (hij : i ≠ j) : owed w j ((i :: is).erase j) = owed w j (is.erase j) := by
  rw [List.erase_cons_tail (by simpa using hij), owed_cons, hi j hj, if_neg Bool.false_ne_true, Nat.zero_add]

/-- One that stands in the list already keeps its weight. -/
theorem Weighed.again (hw : Weighed w is) (hmem : i ∈ is) : Weighed w (i :: is) := by
  intro j hj
  by_cases hij : i = j
  · subst hij
    have hperm := owed_perm (w := w) i (List.perm_cons_erase hmem)
    rw [owed_cons, hi i hmem, if_neg Bool.false_ne_true, Nat.zero_add] at hperm
    rw [List.erase_cons_head, hperm]
    exact hw i hmem
  · have hj' := (List.mem_cons.mp hj).resolve_left (Ne.symm hij)
    rw [owed_behind hi hj' hij]
    exact hw j hj'

/-- A new one is given more weight than all the others have together. -/
theorem Weighed.heading {n : Nat} (hw : Weighed w is) (hmem : i ∉ is) (hn : (is.map w).sum < n) :
    Weighed (Function.update w i n) (i :: is) := by
  have hold : ∀ j ∈ is, Function.update w i n j = w j :=
    fun j hj => Function.update_of_ne (ne_of_mem_of_not_mem hj hmem) n w
  have howed : ∀ j, ∀ js ⊆ is, owed (Function.update w i n) j js = owed w j js := by
    intro j js hjs
    unfold owed
    rw [List.map_congr_left fun a ha => hold a (hjs (List.mem_filter.mp ha).1)]
  intro j hj
  by_cases hij : i = j
  · subst hij
    have hle := owed_le_sum (w := w) i is
    rw [List.erase_cons_head, howed i is (List.Subset.refl is), Function.update_self]
    omega
  · have hj' := (List.mem_cons.mp hj).resolve_left (Ne.symm hij)
    rw [owed_behind hi hj' hij, howed j _ List.erase_subset, hold j hj']
    exact hw j hj'

end Heading

/-- Consumers that stand behind what they consume can be weighed, with less than `2 ^ length` in all. -/
theorem exists_weights (hs : Settled is) : ∃ w, Weighed w is ∧ (is.map w).sum < 2 ^ is.length := by
  induction is with
  | nil => exact ⟨fun _ => 0, fun i h => (nomatch h), Nat.one_pos⟩
  | cons i is ih =>
    obtain ⟨hi, hrest⟩ := List.pairwise_cons.mp hs
    obtain ⟨w, hw, hsum⟩ := ih hrest
    by_cases hmem : i ∈ is
    · refine ⟨w, hw.again hi hmem, ?_⟩
      have hwithin := ((List.perm_cons_erase hmem).map w).sum_nat
      rw [List.map_cons, List.sum_cons] at hwithin ⊢
      rw [List.length_cons, Nat.pow_succ]
      omega
    · refine ⟨Function.update w i (2 ^ is.length), hw.heading hi hmem hsum, ?_⟩
      have hmap : is.map (Function.update w i (2 ^ is.length)) = is.map w :=
        List.map_congr_left fun j hj => Function.update_of_ne (ne_of_mem_of_not_mem hj hmem) _ w
      rw [List.map_cons, List.sum_cons, hmap, Function.update_self, List.length_cons, Nat.pow_succ]
      omega

/-! ## Settling -/

/-- A list settles within as many moves as its misplaced weight. -/
theorem settle?_isSome {w : Invocation → Nat} {fuel : Nat} (hw : Weighed w is) (h : debt w is ≤ fuel) :
    (settle? fuel is).isSome := by
  induction fuel generalizing is with
  | zero =>
    have hm : (move? is).isNone := by
      cases hm : move? is with
      | none => rfl
      | some js =>
        have := move?_debt hw hm
        omega
    rw [settle?, if_pos hm]
    rfl
  | succ fuel ih =>
    rw [settle?]
    cases hm : move? is with
    | none => rfl
    | some js =>
      have := move?_debt hw hm
      exact ih (hw.perm (move?_perm hm)) (by omega)

/-- What every move keeps, settling keeps. -/
theorem settle?_induct {P : List Invocation → Prop} (hP : ∀ is js, P is → move? is = some js → P js) {fuel : Nat}
    (hi : P is) (h : settle? fuel is = some js) : P js ∧ Settled js := by
  induction fuel generalizing is with
  | zero =>
    rw [settle?] at h
    split at h
    · rename_i hm
      cases h
      exact ⟨hi, move?_none.mp (Option.isNone_iff_eq_none.mp hm)⟩
    · cases h
  | succ fuel ih =>
    rw [settle?] at h
    cases hm : move? is with
    | none =>
      rw [hm] at h
      cases h
      exact ⟨hi, move?_none.mp hm⟩
    | some moved =>
      rw [hm] at h
      exact ih (hP is moved hi hm) h

section Scheduled

variable (h : schedule is = some js)

include h

/-- What every move keeps is kept from sorting to the schedule. -/
theorem schedule_induct {P : List Invocation → Prop} (hP : ∀ is js, P is → move? is = some js → P js)
    (hi : P (sort is)) : P js :=
  (settle?_induct hP hi h).1

theorem schedule_perm : js.Perm is :=
  schedule_induct h (P := fun js => js.Perm is) (fun _ _ ha hm => (move?_perm hm).trans ha) (sort_perm is)

theorem mem_schedule : i ∈ js ↔ i ∈ is := (schedule_perm h).mem_iff

/-- A schedule has every consumer behind what it consumes. -/
theorem schedule_settled : Settled js :=
  (settle?_induct (P := fun _ => True) (fun _ _ _ _ => trivial) trivial h).2

/-- A schedule keeps what sorting gives and consumers take over. -/
theorem schedule_pairwise {R : Invocation → Invocation → Prop} (hs : (sort is).Pairwise R) (hr : Handed R is) :
    js.Pairwise R := by
  have hP : ∀ a b : List Invocation, a.Perm is ∧ a.Pairwise R → move? a = some b → b.Perm is ∧ b.Pairwise R := by
    intro a b ⟨hp, ha⟩ hm
    exact ⟨(move?_perm hm).trans hp, move?_pairwise ha (hr.perm hp) hm⟩
  exact (schedule_induct h hP ⟨sort_perm is, hs⟩).2

/-- A schedule has deeper invocations first. -/
theorem schedule_falling (hl : Level is) : Falling js :=
  schedule_pairwise h (sort_falling is) fun i hi j hj hc =>
    ⟨hl i hi j hj hc, fun _ _ hle => Nat.le_trans (hl i hi j hj hc) hle⟩

/-- Invocations that only consume one another keep standing before less deep ones. -/
theorem schedule_closed {P Q : Invocation → Prop} (hapart : ∀ i, P i → ¬ Q i)
    (hclosed : ∀ i ∈ is, ∀ j ∈ is, i.consumes j = true → P i → P j)
    (hdeep : ∀ i ∈ is, ∀ j ∈ is, P i → Q j → j.depth < i.depth) : js.Pairwise fun a b => P b → ¬ Q a := by
  refine schedule_pairwise h ?_ fun i hi j hj hc => ⟨fun hp => hapart j (hclosed i hi j hj hc hp), fun a _ hr hp => ?_⟩
  · refine (List.Pairwise.and_mem.mp (sort_falling is)).imp fun {a b} hab hp hq => ?_
    obtain ⟨ha, hb, hle⟩ := hab
    have := hdeep b ((sort_perm is).mem_iff.mp hb) a ((sort_perm is).mem_iff.mp ha) hp hq
    omega
  · exact hr (hclosed i hi j hj hc hp)

end Scheduled

/-! ## Invocations that consume nothing -/

/-- The invocation consumes none of `is`. -/
def idle (is : List Invocation) (i : Invocation) : Bool := !is.any i.consumes

theorem schedule_filter (h : schedule is = some js) : js.filter (idle is) = (sort is).filter (idle is) := by
  have hP : ∀ a b : List Invocation, a.Perm is ∧ a.filter (idle is) = (sort is).filter (idle is) → move? a = some b →
      b.Perm is ∧ b.filter (idle is) = (sort is).filter (idle is) := by
    intro a b ⟨hp, ha⟩ hm
    refine ⟨(move?_perm hm).trans hp, ?_⟩
    rw [move?_filter (fun i _ hi => ?_) hm, ha]
    rw [hp.any_eq]
    simpa [idle] using hi
  exact (schedule_induct h hP ⟨sort_perm is, rfl⟩).2

/-- What consumes nothing keeps the order by depth, phase and scan. -/
theorem pair_of_idle (h : schedule is = some js) (hi : idle is i = true) (hj : idle is j = true)
    (hsorted : [i, j] <+ sort is) : [i, j] <+ js := by
  have hij := hsorted.filter (idle is)
  rw [← schedule_filter h, List.filter_cons, if_pos hi, List.filter_cons, if_pos hj, List.filter_nil] at hij
  exact hij.trans List.filter_sublist

/-! ## Chains of consumers -/

/-- `i` consumes `j`, perhaps through consumers among `is` between them. -/
abbrev Chain (is : List Invocation) : Invocation → Invocation → Prop :=
  Relation.TransGen fun i j => j ∈ is ∧ i.consumes j = true

/-- In a settled list all that is consumed stands before its consumer. -/
theorem pair_of_chain (hset : Settled js) (hn : js.Nodup) (hself : ∀ i ∈ js, i.consumes i = false) (hi : i ∈ js)
    (h : Chain js i j) : [j, i] <+ js := by
  have hstep : ∀ {a b}, a ∈ js → b ∈ js → a.consumes b = true → [b, a] <+ js := by
    intro a b ha hb hc
    have hne : a ≠ b := by
      intro he
      subst he
      rw [hself a ha] at hc
      cases hc
    rcases pair_or_pair ha hb hne with hab | hba
    · rw [List.pairwise_iff_forall_sublist.mp hset hab] at hc
      cases hc
    · exact hba
  induction h with
  | single hc => exact hstep hi hc.1 hc.2
  | tail _ hc ih => exact pair_trans hn (hstep (ih.subset (by simp)) hc.1 hc.2) ih

/-! ## Settling what can be ordered -/

/-- What has an order with every consumer behind what it consumes is scheduled. -/
theorem exists_schedule (hp : js.Perm is) (hs : Settled js) : ∃ order, schedule is = some order := by
  obtain ⟨w, hw, hsum⟩ := exists_weights hs
  have hperm : (sort is).Perm js := (sort_perm is).trans hp.symm
  have hdebt : debt w (sort is) ≤ 2 ^ is.length := by
    have hle := debt_le_sum (w := w) (sort is)
    rw [(hperm.map w).sum_nat] at hle
    rw [hp.length_eq] at hsum
    omega
  exact Option.isSome_iff_exists.mp (settle?_isSome (hw.perm hperm) hdebt)

/-- A rank that puts consumers before what they consume gives an order with each behind it. -/
theorem exists_settled_of_rank {β : Type} [LinearOrder β] {rank : Invocation → β} (hn : is.Nodup)
    (hrank : ∀ i ∈ is, ∀ j ∈ is, i ≠ j → i.consumes j = true → rank i < rank j) : ∃ js, js.Perm is ∧ Settled js := by
  have hp : (is.insertionSort fun i j => rank j ≤ rank i).Perm is := List.perm_insertionSort ..
  have hsorted : (is.insertionSort fun i j => rank j ≤ rank i).Pairwise fun i j => rank j ≤ rank i :=
    @List.pairwise_insertionSort _ _ _ ⟨fun i j => le_total (rank j) (rank i)⟩ ⟨fun _ _ _ h h' => le_trans h' h⟩ is
  have hboth := (List.Pairwise.and_mem.mp hsorted).and (hp.nodup_iff.mpr hn)
  refine ⟨_, hp, hboth.imp fun {i j} ⟨⟨hi, hj, hle⟩, hne⟩ => ?_⟩
  refine Bool.eq_false_iff.mpr fun hc => ?_
  exact not_lt_of_ge hle (hrank i (hp.mem_iff.mp hi) j (hp.mem_iff.mp hj) hne hc)

end DocExpand.Invocation
