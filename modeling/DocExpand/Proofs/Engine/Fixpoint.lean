/-
  DocExpand.Proofs.Engine.Fixpoint — an expansion leaves nothing to expand.

  A scan passes over the arms of a choice, but a choice is itself something found: a scan
  that finds nothing has met no choice and so has met every object. It finds nothing exactly
  where no object of the document has a shaped key (`scan_nil`). An expansion only succeeds
  where a scan finds nothing, so such a document is what it ends with, and there it ends at
  once (`expand_settles`).
-/

import DocExpand.Proofs.Engine.Expansion
import DocExpand.Proofs.Engine.Resolved

namespace DocExpand.Engine

variable {e : Engine} {doc : Json}

/-! ## Scans that find nothing -/

theorem invocation?_eq_none {members : List (String × Json)} :
    e.invocation? members = some none ↔ ¬ e.HasShaped members := by
  rw [HasShaped, invocation?_eq_some_none, calls_eq_nil]
  push Not
  simp only [Bool.not_eq_true]

theorem skips_of_none {members : List (String × Json)} (h : e.invocation? members = some none) :
    e.skips members = false := by
  rw [skips, h]
  rfl

/-- An object gives a scan nothing if it invokes nothing and its members give nothing, none of them passed over. -/
theorem scanNode_obj_nil {at_ : Locator} {members : List (String × Json)} :
    e.scanNode doc at_ (.obj members) = .ok [] ↔
      ¬ e.HasShaped members ∧ scanMembers e doc at_ false members = .ok [] := by
  rw [scanNode_obj, ← invocation?_eq_none]
  constructor
  · intro h
    obtain ⟨found, below, hi, hb, hnil⟩ := h
    obtain ⟨hown, rfl⟩ := List.append_eq_nil_iff.mp hnil.symm
    have hfound : found = none := by simpa [ownOf] using hown
    subst hfound
    rw [skips_of_none hi] at hb
    exact ⟨hi, hb⟩
  · intro h
    obtain ⟨hi, hb⟩ := h
    exact ⟨none, [], hi, by rwa [skips_of_none hi], rfl⟩

mutual

theorem scanNode_nil : ∀ (node : Json) (at_ : Locator), e.scanNode doc at_ node = .ok [] ↔ e.shaped node = false
  | .obj members, at_ => by
    rw [scanNode_obj_nil, scanMembers_nil members at_, shaped, Bool.eq_false_iff, Ne, shapedMembers_iff, not_or]
    simp
  | .arr items, at_ => by
    rw [scanNode, shaped]
    exact scanItems_nil items at_ 0
  | .null, _ | .bool _, _ | .num _, _ | .str _, _ => ⟨fun _ => rfl, fun _ => rfl⟩

theorem scanItems_nil : ∀ (items : List Json) (at_ : Locator) (position : Nat),
    scanItems e doc at_ position items = .ok [] ↔ shapedItems e items = false
  | [], _, _ => ⟨fun _ => rfl, fun _ => rfl⟩
  | item :: rest, at_, position => by
    rw [scanItems_cons, shapedItems, Bool.or_eq_false_iff, ← scanNode_nil item (at_ ++ [.index position]),
      ← scanItems_nil rest at_ (position + 1)]
    constructor
    · intro h
      obtain ⟨here, later, hh, hl, hnil⟩ := h
      obtain ⟨rfl, rfl⟩ := List.append_eq_nil_iff.mp hnil.symm
      exact ⟨hh, hl⟩
    · intro h
      obtain ⟨hh, hl⟩ := h
      exact ⟨[], [], hh, hl, rfl⟩

theorem scanMembers_nil : ∀ (members : List (String × Json)) (at_ : Locator),
    scanMembers e doc at_ false members = .ok [] ↔ ∀ m ∈ members, e.shaped m.2 = false
  | [], _ => ⟨fun _ _ hm => (nomatch hm), fun _ => rfl⟩
  | (key, value) :: rest, at_ => by
    rw [scanMembers_cons, List.forall_mem_cons, ← scanNode_nil value (at_ ++ [.key key]), ← scanMembers_nil rest at_]
    constructor
    · intro h
      obtain ⟨here, later, hh, hl, hnil⟩ := h
      obtain ⟨rfl, rfl⟩ := List.append_eq_nil_iff.mp hnil.symm
      exact ⟨hh, hl⟩
    · intro h
      obtain ⟨hh, hl⟩ := h
      exact ⟨[], [], hh, hl, rfl⟩

end

/-- A scan finds nothing exactly where no object has a shaped key. -/
theorem scan_nil : e.scan doc = .ok [] ↔ e.shaped doc = false := scanNode_nil doc Locator.root

/-! ## Expansions -/

/-- An expansion ends within the limit with a document without a shaped key, and such a document it leaves as it is. -/
theorem expand_settles (e : Engine) (doc : Json) :
    (∀ n result, e.expand.runOn doc = (.ok n, result) →
      e.shaped result = false ∧ n ≤ e.config.maxPasses ∧ e.expand.runOn result = (.ok 0, result)) ∧
    (e.shaped doc = false → e.expand.runOn doc = (.ok 0, doc)) := by
  have hstay : ∀ d, e.shaped d = false → e.expand.runOn d = (.ok 0, d) := fun d hd =>
    expand_ok.mpr ⟨Nat.zero_le _, .start d, scan_nil.mpr hd⟩
  refine ⟨fun n result h => ?_, hstay doc⟩
  obtain ⟨hn, -, hs⟩ := expand_ok.mp h
  have hshaped := scan_nil.mp hs
  exact ⟨hshaped, hn, hstay result hshaped⟩

/-- A choice in an item, whose arm is a string directive. -/
def nested : Json := .obj [("a", .arr [.obj [
  ("kubegen.Null.If", .bool true), ("then", .obj [("kubegen.String.AsJSON", .str "x")])]])]

theorem expand_settles_nested :
    plain.shaped nested = true ∧ plain.expand.runOn nested = (.ok 2, .obj [("a", .arr [.str "\"x\""])]) ∧
      plain.shaped (.obj [("a", .arr [.str "\"x\""])]) = false ∧
      plain.expand.runOn (.obj [("a", .arr [.str "\"x\""])]) = (.ok 0, .obj [("a", .arr [.str "\"x\""])]) := by
  have hrun : plain.expand.runOn nested = (.ok 2, .obj [("a", .arr [.str "\"x\""])]) := by rfl
  obtain ⟨hshaped, -, hagain⟩ := (expand_settles plain nested).1 2 _ hrun
  exact ⟨by decide +kernel, hrun, hshaped, hagain⟩

end DocExpand.Engine
