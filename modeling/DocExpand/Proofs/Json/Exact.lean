/-
  DocExpand.Proofs.Json.Exact — trees that their text keeps exactly.

  The text of a float may read as a neighbouring float, and of members out of order the text
  says nothing; nothing else is lost. So an ordered tree without floats is what its bytes
  decode to, if it nests within the limit (`decode_encode_exact`).
-/

import DocExpand.Proofs.Json.Ordered
import DocExpand.Proofs.Json.Text

namespace DocExpand

namespace Json

variable {d n : Json}

mutual

/-- Some number of the tree is a float. -/
def hasFloat : Json → Bool
  | num (.float _) => true
  | arr items => hasFloatItems items
  | obj members => hasFloatMembers members
  | _ => false

def hasFloatItems : List Json → Bool
  | [] => false
  | item :: rest => item.hasFloat || hasFloatItems rest

def hasFloatMembers : List (String × Json) → Bool
  | [] => false
  | (_, value) :: rest => value.hasFloat || hasFloatMembers rest

end

theorem hasFloatItems_eq_false {items : List Json} :
    hasFloatItems items = false ↔ ∀ item ∈ items, item.hasFloat = false := by
  induction items with
  | nil => simp [hasFloatItems]
  | cons item rest ih => rw [hasFloatItems, Bool.or_eq_false_iff, ih, List.forall_mem_cons]

theorem hasFloatMembers_eq_false {members : List (String × Json)} :
    hasFloatMembers members = false ↔ ∀ m ∈ members, m.2.hasFloat = false := by
  induction members with
  | nil => simp [hasFloatMembers]
  | cons m rest ih => rw [hasFloatMembers, Bool.or_eq_false_iff, ih, List.forall_mem_cons]

theorem hasFloat_child? {s : Segment} {c : Json} (h : d.hasFloat = false) (hc : d.child? s = some c) :
    c.hasFloat = false := by
  cases d with
  | null | bool _ | num _ | str _ => cases hc
  | obj ms => exact hasFloatMembers_eq_false.mp h (s.text, c) (Members.mem_of_get? hc)
  | arr items =>
    obtain ⟨m, -, hm⟩ := Option.bind_eq_some_iff.mp hc
    exact hasFloatItems_eq_false.mp h c (List.mem_of_getElem? hm)

theorem hasFloat_resolve {p : Locator} (h : d.hasFloat = false) (hr : Locator.resolve p d = some n) :
    n.hasFloat = false := by
  induction p generalizing d with
  | nil =>
    cases hr
    exact h
  | cons s p ih =>
    obtain ⟨c, hc, hr⟩ := Option.bind_eq_some_iff.mp hr
    exact ih (hasFloat_child? h hc) hr

mutual

theorem reread_eq : ∀ j : Json, j.Ordered → j.hasFloat = false → j.reread = j
  | null, _, _ | bool _, _, _ | str _, _, _ => rfl
  | num (.int i h), _, _ => congrArg num (Number.reread_int i h)
  | num (.float _), _, hf => nomatch hf
  | arr items, ho, hf => congrArg arr (rereadItems_eq items ho hf)
  | obj members, ho, hf => by
    rw [reread, rereadMembers_eq members ho.2 hf, Members.ofPairs_ascending ho.1]

theorem rereadItems_eq : ∀ items : List Json, OrderedItems items → hasFloatItems items = false → rereadItems items = items
  | [], _, _ => rfl
  | item :: rest, ho, hf => by
    obtain ⟨hi, hr⟩ := Bool.or_eq_false_iff.mp hf
    rw [rereadItems, reread_eq item ho.1 hi, rereadItems_eq rest ho.2 hr]

theorem rereadMembers_eq : ∀ members : List (String × Json), OrderedMembers members → hasFloatMembers members = false →
    rereadMembers members = members
  | [], _, _ => rfl
  | (_, value) :: rest, ho, hf => by
    obtain ⟨hv, hr⟩ := Bool.or_eq_false_iff.mp hf
    rw [rereadMembers, reread_eq value ho.1 hv, rereadMembers_eq rest ho.2 hr]

end

/-- An ordered tree without floats is what its bytes decode to. -/
theorem decode_encode_exact (ho : d.Ordered) (hf : d.hasFloat = false) (hn : d.nesting ≤ nestingLimit) :
    decode d.encode = some d := by
  rw [decode_encode, if_pos hn, reread_eq d ho hf]

end Json

end DocExpand
