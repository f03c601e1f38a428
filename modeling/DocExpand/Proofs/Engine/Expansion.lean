/-
  DocExpand.Proofs.Engine.Expansion — an expansion, pass by pass.

  A pass works when it succeeds and has found something. An expansion is a row of passes
  that work, at most as many as the limit (`Worked`). It succeeds when the next scan finds
  nothing, and answers with their number (`expand_ok`). It fails where a pass fails before
  the limit is reached, or after the last pass when the scan fails or still finds something
  (`expandFrom_error`). So what holds of every pass, or of what a scan finds, holds of every
  expansion.
-/

import DocExpand.Proofs.Engine.Turns

namespace DocExpand.Engine

open Edit

variable {e : Engine} {d d' : Json} {done left count n : Nat} {cause : Error}

/-- So many passes in a row that succeeded and found something. -/
inductive Worked (e : Engine) : Nat → Json → Json → Prop
  | start (d : Json) : Worked e 0 d d
  | pass {n count : Nat} {d d1 d' : Json} :
    e.runPass.runOn d = (.ok (count + 1), d1) → Worked e n d1 d' → Worked e (n + 1) d d'

/-- A pass that finds nothing changes nothing. -/
theorem runPass_zero : e.runPass.runOn d = (.ok 0, d') ↔ e.scan d = .ok [] ∧ d' = d := by
  rw [runPass_ok]
  constructor
  · intro h
    obtain ⟨found, order, hs, hschedule, hx, hl⟩ := h
    have hnil : found = [] := List.eq_nil_of_length_eq_zero hl
    subst hnil
    cases hschedule
    cases hx
    exact ⟨hs, rfl⟩
  · intro h
    obtain ⟨hs, hd⟩ := h
    subst hd
    exact ⟨[], [], hs, rfl, rfl, rfl⟩

theorem runOn_expandFrom_zero (e : Engine) (done : Nat) (d : Json) :
    (e.expandFrom done 0).runOn d =
      match e.scan d with
      | .error x => (.error x, d)
      | .ok [] => (.ok done, d)
      | .ok (_ :: _) => (.error (.passLimitExceeded e.config.maxPasses), d) := by
  unfold expandFrom
  simp only [runOn_bind, runOn_get, runOn_lift]
  rcases e.scan d with x | ⟨_ | ⟨i, rest⟩⟩ <;> rfl

theorem runOn_expandFrom_succ (e : Engine) (done left : Nat) (d : Json) :
    (e.expandFrom done (left + 1)).runOn d =
      match e.runPass.runOn d with
      | (.error x, d1) => (.error x, d1)
      | (.ok 0, d1) => (.ok done, d1)
      | (.ok (_ + 1), d1) => (e.expandFrom (done + 1) left).runOn d1 := by
  rw [expandFrom, runOn_bind]
  rcases e.runPass.runOn d with ⟨x | _ | count, d1⟩ <;> rfl

/-- Passes that work are passes of the expansion, which goes on from what they leave. -/
theorem Worked.expandFrom {now : Json} (hw : e.Worked n d now) (done left : Nat) :
    (e.expandFrom done (n + left)).runOn d = (e.expandFrom (done + n) left).runOn now := by
  induction hw generalizing done with
  | start => rw [Nat.zero_add, Nat.add_zero]
  | @pass n count d d1 now hrun _ ih =>
    rw [Nat.add_right_comm n 1 left, runOn_expandFrom_succ, hrun]
    simp only [ih]
    rw [Nat.add_right_comm, Nat.add_assoc]

/-- An expansion succeeds after passes that work, where the next scan finds nothing. -/
theorem expandFrom_ok : (e.expandFrom done left).runOn d = (.ok count, d') ↔
    ∃ n, n ≤ left ∧ count = done + n ∧ e.Worked n d d' ∧ e.scan d' = .ok [] := by
  constructor
  · intro h
    induction left generalizing done d with
    | zero =>
      rw [runOn_expandFrom_zero] at h
      split at h
      · cases h
      · rename_i hs
        cases h
        exact ⟨0, Nat.le_refl 0, rfl, .start _, hs⟩
      · cases h
    | succ left ih =>
      rw [runOn_expandFrom_succ] at h
      rcases hrun : e.runPass.runOn d with ⟨x | _ | found, d1⟩
      · rw [hrun] at h
        cases h
      · rw [hrun] at h
        cases h
        obtain ⟨hs, rfl⟩ := runPass_zero.mp hrun
        exact ⟨0, Nat.zero_le _, rfl, .start _, hs⟩
      · rw [hrun] at h
        obtain ⟨n, hn, rfl, hw, hs⟩ := ih h
        exact ⟨n + 1, by omega, by omega, .pass hrun hw, hs⟩
  · intro h
    obtain ⟨n, hn, rfl, hw, hs⟩ := h
    obtain ⟨rest, rfl⟩ := Nat.exists_eq_add_of_le hn
    rw [hw.expandFrom]
    cases rest with
    | zero => rw [runOn_expandFrom_zero, hs]
    | succ rest => rw [runOn_expandFrom_succ, runPass_zero.mpr ⟨hs, rfl⟩]

/-- An expansion fails where a pass fails within the limit, or after the last pass where the scan does not find
    nothing. -/
theorem expandFrom_error : (e.expandFrom done left).runOn d = (.error cause, d') ↔
    (∃ n now, n < left ∧ e.Worked n d now ∧ e.runPass.runOn now = (.error cause, d')) ∨
      e.Worked left d d' ∧ (e.scan d' = .error cause ∨
        ∃ found, e.scan d' = .ok found ∧ found ≠ [] ∧ cause = .passLimitExceeded e.config.maxPasses) := by
  constructor
  · intro h
    induction left generalizing done d with
    | zero =>
      refine .inr ?_
      rw [runOn_expandFrom_zero] at h
      split at h
      · rename_i hs
        cases h
        exact ⟨.start _, .inl hs⟩
      · cases h
      · rename_i hs
        cases h
        exact ⟨.start _, .inr ⟨_, hs, List.cons_ne_nil _ _, rfl⟩⟩
    | succ left ih =>
      rw [runOn_expandFrom_succ] at h
      rcases hrun : e.runPass.runOn d with ⟨x | _ | found, d1⟩
      · rw [hrun] at h
        cases h
        exact .inl ⟨0, d, Nat.succ_pos left, .start d, hrun⟩
      · rw [hrun] at h
        cases h
      · rw [hrun] at h
        rcases ih h with ⟨n, now, hn, hw, hfails⟩ | ⟨hw, hlast⟩
        · exact .inl ⟨n + 1, now, by omega, .pass hrun hw, hfails⟩
        · exact .inr ⟨.pass hrun hw, hlast⟩
  · intro h
    rcases h with ⟨n, now, hn, hw, hfails⟩ | ⟨hw, hlast⟩
    · obtain ⟨rest, rfl⟩ := Nat.exists_eq_add_of_lt hn
      rw [Nat.add_assoc, hw.expandFrom, runOn_expandFrom_succ, hfails]
    · have hrun := hw.expandFrom done 0
      rw [Nat.add_zero] at hrun
      rw [hrun, runOn_expandFrom_zero]
      rcases hlast with hs | ⟨found, hs, hne, rfl⟩
      · rw [hs]
      · obtain ⟨i, rest, rfl⟩ := List.exists_cons_of_ne_nil hne
        rw [hs]

theorem expand_ok : e.expand.runOn d = (.ok count, d') ↔
    count ≤ e.config.maxPasses ∧ e.Worked count d d' ∧ e.scan d' = .ok [] := by
  rw [expand, expandFrom_ok]
  constructor
  · intro h
    obtain ⟨n, hn, hcount, hw, hs⟩ := h
    rw [Nat.zero_add] at hcount
    subst hcount
    exact ⟨hn, hw, hs⟩
  · intro h
    obtain ⟨hn, hw, hs⟩ := h
    exact ⟨count, hn, (Nat.zero_add count).symm, hw, hs⟩

end DocExpand.Engine
