/-
  DocExpand.Proofs.Engine.Limit — the pass limit only cuts an expansion off.

  No pass looks at the limit, so engines that differ in it alone scan and carry out alike
  (`runPass_withLimit`). An expansion that ends within its limit, well or badly, ends in the
  same way under every larger one. One that is cut off has worked through exactly as many
  passes as its limit says, and the document they left still has invocations (`expand_cutoff`).
-/

import DocExpand.Proofs.Engine.Failure

namespace DocExpand.Engine

open Edit

variable {e : Engine} {doc d d' : Json} {limit more : Nat} {cause : Error}

/-- The engine with another pass limit. -/
def withLimit (e : Engine) (limit : Nat) : Engine := { e with config := { e.config with maxPasses := limit } }

/-! ## Passes do not look at the limit -/

theorem invoked_withLimit (e : Engine) (limit : Nat) (host : Locator) (members : List (String × Json)) :
    (e.withLimit limit).invoked host members = e.invoked host members := by
  rw [invoked_eq, invoked_eq]
  rfl

mutual

theorem scanNode_withLimit (e : Engine) (limit : Nat) (doc : Json) : ∀ (node : Json) (at_ : Locator),
    (e.withLimit limit).scanNode doc at_ node = e.scanNode doc at_ node
  | .obj members, at_ => by
    rw [scanNode, scanNode, invoked_withLimit]
    simp only [scanMembers_withLimit e limit doc members]
    rfl
  | .arr items, at_ => by
    rw [scanNode, scanNode, scanItems_withLimit e limit doc items]
  | .null, _ | .bool _, _ | .num _, _ | .str _, _ => rfl

theorem scanItems_withLimit (e : Engine) (limit : Nat) (doc : Json) : ∀ (items : List Json) (at_ : Locator) (n : Nat),
    scanItems (e.withLimit limit) doc at_ n items = scanItems e doc at_ n items
  | [], _, _ => rfl
  | item :: rest, at_, n => by
    rw [scanItems, scanItems, scanNode_withLimit e limit doc item, scanItems_withLimit e limit doc rest]

theorem scanMembers_withLimit (e : Engine) (limit : Nat) (doc : Json) : ∀ (members : List (String × Json)) (at_ : Locator)
    (skip : Bool), scanMembers (e.withLimit limit) doc at_ skip members = scanMembers e doc at_ skip members
  | [], _, _ => rfl
  | (key, value) :: rest, at_, skip => by
    rw [scanMembers, scanMembers, scanNode_withLimit e limit doc value, scanMembers_withLimit e limit doc rest]

end

theorem scan_withLimit (e : Engine) (limit : Nat) (d : Json) : (e.withLimit limit).scan d = e.scan d :=
  scanNode_withLimit e limit d d Locator.root

theorem execute_withLimit (e : Engine) (limit : Nat) (is : List Invocation) :
    (e.withLimit limit).execute is = e.execute is := by
  induction is with
  | nil => rfl
  | cons i rest ih =>
    rw [execute, execute, ih]
    rfl

theorem runPass_withLimit (e : Engine) (limit : Nat) (d : Json) :
    (e.withLimit limit).runPass.runOn d = e.runPass.runOn d := by
  rw [runOn_runPass, runOn_runPass, scan_withLimit]
  simp only [execute_withLimit]

/-! ## Failures of a pass -/

theorem runPass_not_limit (n : Nat) : (e.runPass.runOn d).1 ≠ .error (.passLimitExceeded n) := by
  intro h
  obtain ⟨left, hrun⟩ : ∃ left, e.runPass.runOn d = (.error (.passLimitExceeded n), left) := ⟨_, Prod.ext h rfl⟩
  cases runPass_error.mp hrun with
  | scan hs _ => nomatch scan_fault hs
  | turn _ _ hstop =>
    obtain ⟨_, _, _, _, -, -, -, hcause, -⟩ := hstop
    cases hcause

/-! ## Cutting off -/

/-- An expansion that is not cut off goes on in the same way with more passes left. -/
theorem expandFrom_more (done left room : Nat) (hroom : left ≤ room)
    (h : ∀ n, (((e.withLimit limit).expandFrom done left).runOn d).1 ≠ .error (.passLimitExceeded n)) :
    ((e.withLimit more).expandFrom done room).runOn d = ((e.withLimit limit).expandFrom done left).runOn d := by
  induction left generalizing done room d with
  | zero =>
    rw [runOn_expandFrom_zero, scan_withLimit] at h ⊢
    -- the scan after the last pass is what the next pass starts with
    cases room with
    | zero =>
      rw [runOn_expandFrom_zero, scan_withLimit]
      split
      · rfl
      · rfl
      · rename_i hs
        rw [hs] at h
        exact absurd rfl (h _)
    | succ room =>
      rw [runOn_expandFrom_succ, runPass_withLimit]
      split at h
      · rename_i hs
        rw [runOn_runPass, hs]
      · rename_i hs
        rw [runPass_zero.mpr ⟨hs, rfl⟩]
      · exact absurd rfl (h _)
  | succ left ih =>
    obtain ⟨room, rfl⟩ : ∃ r, room = r + 1 := ⟨room - 1, by omega⟩
    rw [runOn_expandFrom_succ, runPass_withLimit] at h ⊢
    rw [runOn_expandFrom_succ, runPass_withLimit]
    rcases hrun : e.runPass.runOn d with ⟨x | _ | count, d1⟩
    · rfl
    · rfl
    · rw [hrun] at h
      exact ih (done + 1) room (by omega) h

/-- A larger limit changes nothing unless the smaller one is exceeded; and when a limit is exceeded, so many passes have
    worked and a scan of what they left still finds an invocation. -/
theorem expand_cutoff (e : Engine) (hle : limit ≤ more) (doc : Json) :
    ((∀ n, ((e.withLimit limit).expand.runOn doc).1 ≠ .error (.passLimitExceeded n)) →
      (e.withLimit more).expand.runOn doc = (e.withLimit limit).expand.runOn doc) ∧
    ∀ n d, (e.withLimit limit).expand.runOn doc = (.error (.passLimitExceeded n), d) →
      n = limit ∧ (e.withLimit limit).Worked limit doc d ∧
        ∃ i rest, (e.withLimit limit).scan d = .ok (i :: rest) := by
  refine ⟨fun h => expandFrom_more 0 limit more hle h, fun n d h => ?_⟩
  rcases expandFrom_error.mp h with ⟨k, now, -, -, hrun⟩ | ⟨hw, hs | ⟨found, hs, hne, hcause⟩⟩
  · exact absurd (congrArg Prod.fst hrun) (runPass_not_limit n)
  · nomatch scan_fault hs
  · cases hcause
    obtain ⟨i, rest, rfl⟩ := List.exists_cons_of_ne_nil hne
    exact ⟨rfl, hw, i, rest, hs⟩

/-- A choice inside an arm takes two passes. -/
def doubled : Json := .obj [("a", .obj [("kubegen.Null.If", .bool true),
  ("then", .obj [("kubegen.Null.If", .bool true), ("then", .str "x")])])]

theorem expand_cutoff_doubled :
    (plain.withLimit 3).expand.runOn doubled = (.ok 2, .obj [("a", .str "x")]) ∧
      ∃ d, (plain.withLimit 1).expand.runOn doubled = (.error (.passLimitExceeded 1), d) ∧
        (plain.withLimit 1).Worked 1 doubled d := by
  have htwo : (plain.withLimit 2).expand.runOn doubled = (.ok 2, .obj [("a", .str "x")]) := by rfl
  have hone : (plain.withLimit 1).expand.runOn doubled = (.error (.passLimitExceeded 1),
      .obj [("a", .obj [("kubegen.Null.If", .bool true), ("then", .str "x")])]) := by rfl
  refine ⟨?_, _, hone, ?_⟩
  · rw [← htwo]
    refine (expand_cutoff plain (by decide : 2 ≤ 3) doubled).1 fun n h => ?_
    rw [htwo] at h
    cases h
  · exact ((expand_cutoff plain (by decide : 1 ≤ 3) doubled).2 _ _ hone).2.1

end DocExpand.Engine
