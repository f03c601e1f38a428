/-
  DocExpand.Proofs.Engine.Settling — which lists of invocations can be scheduled.

  What a scan finds always can (`Engine.schedule_of_scan`). Another list may hold a knot: some
  invocations each of which consumes another of them. In every order the first one of a knot
  stands before something that it consumes (`Settled.no_knot`), so a list with a knot is moved
  for ever. Without a knot some invocation consumes none of the others and can come first,
  then one of the rest, and so on (`exists_settled_or_knot`); and a list that can be put into
  such an order settles (`settles_iff`).
-/

import DocExpand.Proofs.Engine.Order
import Mathlib.Data.List.Perm.Subperm

namespace DocExpand.Invocation

open List
open scoped CorePower

variable {is js ks : List Invocation}

/-! ## Knots -/

/-- Each of the invocations consumes another one of them. -/
def Knot (ks : List Invocation) : Prop := ks ≠ [] ∧ ∀ i ∈ ks, (ks.erase i).any i.consumes = true

instance (ks : List Invocation) : Decidable (Knot ks) := by unfold Knot; infer_instance

theorem Settled.no_knot (hs : Settled js) (hsub : ks <+~ js) : ¬ Knot ks := by
  rintro ⟨hne, hknot⟩
  obtain ⟨order, hperm, hsub⟩ := hsub
  cases order with
  | nil => exact hne hperm.nil_eq.symm
  | cons i rest =>
    obtain ⟨hfirst, -⟩ := List.pairwise_cons.mp (hs.sublist hsub)
    have hrest : (ks.erase i).Perm rest := by
      have := hperm.symm.erase i
      rwa [List.erase_cons_head] at this
    have hany := hknot i (hperm.mem_iff.mp (List.mem_cons_self ..))
    rw [hrest.any_eq] at hany
    obtain ⟨j, hj, hc⟩ := List.any_eq_true.mp hany
    rw [hfirst j hj] at hc
    cases hc

/-- Either there is an order with every consumer behind what it consumes, or a knot. -/
theorem exists_settled_or_knot (is : List Invocation) :
    (∃ js, js.Perm is ∧ Settled js) ∨ ∃ ks, ks <+~ is ∧ Knot ks := by
  induction hn : is.length generalizing is with
  | zero =>
    rw [List.length_eq_zero_iff.mp hn]
    exact .inl ⟨[], .refl [], List.Pairwise.nil⟩
  | succ n ih =>
    by_cases hknot : Knot is
    · exact .inr ⟨is, .refl is, hknot⟩
    · -- one of them consumes none of the others
      have hne : is ≠ [] := List.ne_nil_of_length_eq_add_one hn
      obtain ⟨i, hi, hfree⟩ : ∃ i ∈ is, ¬ (is.erase i).any i.consumes = true := by
        simpa only [Knot, hne, ne_eq, not_false_eq_true, true_and, not_forall, exists_prop] using hknot
      have hlength : (is.erase i).length = n := by rw [List.length_erase_of_mem hi, hn, Nat.add_sub_cancel]
      rcases ih (is.erase i) hlength with ⟨js, hp, hs⟩ | ⟨ks, hsub, hknot⟩
      · have hperm : (i :: js).Perm is := (hp.cons i).trans (List.perm_cons_erase hi).symm
        refine .inl ⟨i :: js, hperm, List.pairwise_cons.mpr ⟨fun j hj => ?_, hs⟩⟩
        refine Bool.eq_false_iff.mpr fun hc => hfree ?_
        exact List.any_eq_true.mpr ⟨j, hp.mem_iff.mp hj, hc⟩
      · exact .inr ⟨ks, hsub.trans List.erase_sublist.subperm, hknot⟩

/-! ## The end of the moves -/

/-- Some number of moves leaves no consumer misplaced. -/
def Settles (is : List Invocation) : Prop := ∃ fuel, (settle? fuel (sort is)).isSome = true

theorem Settles.exists_settled (h : Settles is) : ∃ js, js.Perm is ∧ Settled js := by
  obtain ⟨fuel, h⟩ := h
  obtain ⟨js, hjs⟩ := Option.isSome_iff_exists.mp h
  exact ⟨js, settle?_induct (fun _ _ ha hm => (move?_perm hm).trans ha) (sort_perm is) hjs⟩

/-- The moves end exactly if some order has every consumer behind what it consumes, which is to say if no invocations
    of the list are knotted. Then `2 ^ length` moves are enough, and they lead to the schedule, which is such an order. -/
theorem settles_iff (is : List Invocation) :
    (Settles is ↔ ∃ js, js.Perm is ∧ Settled js) ∧ (Settles is ↔ ¬ ∃ ks, ks <+~ is ∧ Knot ks) ∧
      (Settles is ↔ ∃ order, schedule is = some order ∧ settle? (2 ^ is.length) (sort is) = some order ∧
        order.Perm is ∧ Settled order) := by
  have hback : ∀ {js : List Invocation}, js.Perm is → Settled js → Settles is :=
    fun hp hs => ⟨_, Option.isSome_iff_exists.mpr (exists_schedule hp hs)⟩
  refine ⟨⟨Settles.exists_settled, fun ⟨js, hp, hs⟩ => hback hp hs⟩, ⟨fun h => ?_, fun h => ?_⟩, fun h => ?_,
    fun ⟨order, _, _, hp, hs⟩ => hback hp hs⟩
  · obtain ⟨js, hp, hs⟩ := h.exists_settled
    rintro ⟨ks, hsub, hknot⟩
    exact hs.no_knot (hsub.trans hp.symm.subperm) hknot
  · obtain ⟨js, hp, hs⟩ := (exists_settled_or_knot is).resolve_right h
    exact hback hp hs
  · obtain ⟨js, hp, hs⟩ := h.exists_settled
    obtain ⟨order, horder⟩ := exists_schedule hp hs
    exact ⟨order, horder, horder, schedule_perm horder, schedule_settled horder⟩

/-- Two invocations, each with the other one inside its argument. -/
def crossed : List Invocation := [
  { directive := ⟨.string, .d, .join⟩, branch := [.key "a", .key "m"], input := [.key "b"] },
  { directive := ⟨.string, .d, .join⟩, branch := [.key "b", .key "m"], input := [.key "a"] }]

theorem settles_iff_crossed : Knot crossed ∧ ∀ fuel, settle? fuel (sort crossed) = none := by
  have hknot : Knot crossed := by decide
  obtain ⟨-, hends, -⟩ := settles_iff crossed
  refine ⟨hknot, fun fuel => Option.not_isSome_iff_eq_none.mp fun h => ?_⟩
  exact hends.mp ⟨fuel, h⟩ ⟨crossed, .refl crossed, hknot⟩

end DocExpand.Invocation
