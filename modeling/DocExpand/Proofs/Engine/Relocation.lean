/-
  DocExpand.Proofs.Engine.Relocation — a node has the same value wherever it stands.

  Its place shows in two ways only: an import may be asked for by it, and what does not fit
  beneath it is refused. With imports that are the same everywhere, and where nothing that
  can come up nests too deep for either place, a node is worth the same at both of them
  (`open?_place`, `carry_place`). How deep it can become is what it is itself, and the
  deepest that a look-up or an import brings (`open?_nesting`).
-/

import DocExpand.Proofs.Engine.Partial
import DocExpand.Proofs.Json.Text

namespace DocExpand

namespace Json

/-! ## Merging -/

mutual

theorem mergeNode_nesting_le (policy : MergePolicy) (old : Json) : ∀ new : Json,
    (mergeNode policy old new).nesting ≤ max old.nesting new.nesting
  | .obj incoming => by
    cases old with
    | obj existing =>
      have := mergeMembers_nesting_le policy incoming existing
      simp only [mergeNode, nesting]
      omega
    | null | bool _ | num _ | str _ | arr _ =>
      change (if policy = .overwrite then obj incoming else _).nesting ≤ _
      split
      · exact Nat.le_max_right ..
      · exact Nat.le_max_left ..
  | .null | .bool _ | .num _ | .str _ | .arr _ => by
    unfold mergeNode
    split
    · exact Nat.le_max_right ..
    · exact Nat.le_max_left ..

theorem mergeMembers_nesting_le (policy : MergePolicy) : ∀ (incoming : List (String × Json)) (existing : Members Json),
    nestingMembers (mergeMembers policy existing incoming) ≤ max (nestingMembers existing) (nestingMembers incoming)
  | [], _ => Nat.le_max_left ..
  | (key, new) :: rest, existing => by
    rw [mergeMembers]
    refine Nat.le_trans (mergeMembers_nesting_le policy rest _) (Nat.max_le.mpr ⟨?_, ?_⟩)
    · refine Nat.le_trans (nestingMembers_insert_le key _ existing) (Nat.max_le.mpr ⟨?_, Nat.le_max_left ..⟩)
      split
      · rename_i old hold
        have hlaid := mergeNode_nesting_le policy old new
        have hold := le_nestingMembers (Members.mem_of_get? hold)
        simp only [nestingMembers]
        omega
      · simp only [nestingMembers]
        omega
    · simp only [nestingMembers]
      omega

end

theorem nestingMembers_erase_le (key : String) (ms : Members Json) :
    nestingMembers (Members.erase key ms) ≤ nestingMembers ms :=
  nestingMembers_le_iff.mpr fun _ hm => le_nestingMembers (Members.erase_sublist.mem hm)

end Json

namespace Engine

open Json (nestingMembers nestingItems nestingLimit)

variable {e : Engine} {strict : Bool} {done : Locator → Bool} {at_ p q : Locator} {extra : Nat} {node opened r : Json}

/-- No look-up and no import brings anything deeper. -/
structure Bounded (e : Engine) (extra : Nat) : Prop where
  parameter : ∀ name found, e.parameter? name = some found → found.nesting ≤ extra
  payload : ∀ host argument bytes found, e.imports host argument = some bytes → Json.decode bytes = some found →
    found.nesting ≤ extra

/-! ## How deep a value is -/

theorem outcome_nesting (hb : e.Bounded extra) {d : Directive} {key : String} {written : Json} {argument : Slot}
    {ms : Members Json}
    (h : e.outcome strict d at_ key written argument ms = some (some r)) :
    r.nesting ≤ max (Json.obj ms).nesting extra := by
  have htext : ∀ s : String, (Json.str s).nesting ≤ max (Json.obj ms).nesting extra := fun _ => Nat.zero_le _
  unfold outcome at h
  split at h
  · -- the arm of a choice is a member
    split at h
    · simp only [Option.some.injEq] at h
      have := Json.le_nestingMembers (Members.mem_of_get? h)
      simp only [Json.nesting]
      omega
    · cases h
  · split at h
    · obtain ⟨found, hf, h⟩ := Option.bind_eq_some_iff.mp h
      split at h
      · cases h
        exact Nat.le_trans (hb.parameter _ _ hf) (Nat.le_max_right ..)
      · cases h
    · cases h
  · split at h
    · obtain ⟨imported, hi, h⟩ := Option.bind_eq_some_iff.mp h
      obtain ⟨bytes, hbytes, hi⟩ := Option.bind_eq_some_iff.mp hi
      have himported := hb.payload _ _ _ _ hbytes hi
      dsimp only at h
      split at h
      · rename_i incoming _ _
        cases h
        have := Json.mergeMembers_nesting_le e.config.mergePolicy incoming (Members.erase key ms)
        have := Json.nestingMembers_erase_le key ms
        simp only [Json.nesting] at himported ⊢
        omega
      · split at h
        · cases h
          exact Nat.le_trans himported (Nat.le_max_right ..)
        · cases h
      · cases h
    · cases h
  · split at h
    · cases h
      exact htext _
    · cases h
  · obtain ⟨j, -, h⟩ := Option.map_eq_some_iff.mp h
    cases h
    exact htext _
  · obtain ⟨j, -, h⟩ := Option.map_eq_some_iff.mp h
    cases h
    exact htext _
  · obtain ⟨j, -, h⟩ := Option.map_eq_some_iff.mp h
    cases h
    exact htext _

theorem carry_nesting (hb : e.Bounded extra) {beside : Option Slot} (hlike : Like node opened)
    (h : e.carry strict done at_ beside node opened = some (some r)) : r.nesting ≤ max opened.nesting extra := by
  unfold carry at h
  split at h
  · split at h
    · rename_i d key written hh
      cases node with
      | null | bool _ | num _ | str _ | arr _ => cases hh
      | obj _ =>
        obtain ⟨ms, rfl⟩ := hlike
        exact outcome_nesting hb (Option.filter_eq_some_iff.mp h).1
    · cases h
      exact Nat.le_max_left ..
  · cases h
    exact Nat.le_max_left ..

mutual

/-- Evaluation makes a node no deeper than by what is brought. -/
theorem open?_nesting (hb : e.Bounded extra) : ∀ (node : Json) {at_ : Locator} {opened : Json},
    e.open? strict done at_ node = some opened →
    opened.nesting ≤ node.nesting + extra
  | .obj members, at_, opened, h => by
    rw [open?] at h
    split at h
    · cases h
    · obtain ⟨ms, hm, rfl⟩ := Option.map_eq_some_iff.mp h
      have := openMembers_nesting hb members hm
      simp only [Json.nesting]
      omega
  | .arr items, at_, opened, h => by
    rw [open?] at h
    obtain ⟨js, hj, rfl⟩ := Option.map_eq_some_iff.mp h
    have := openItems_nesting hb items hj
    simp only [Json.nesting]
    omega
  | .null, _, _, h | .bool _, _, _, h | .num _, _, _, h | .str _, _, _, h => by
    cases h
    exact Nat.le_add_right ..

theorem openItems_nesting (hb : e.Bounded extra) : ∀ (items : List Json) {at_ : Locator} {position : Nat} {js : List Json},
    openItems e strict done at_ position items = some js → nestingItems js ≤ nestingItems items + extra
  | [], _, _, _, h => by
    cases h
    exact Nat.zero_le _
  | item :: rest, at_, position, js, h => by
    obtain ⟨opened, slot, after, ho, hs, ha, rfl⟩ := openItems_cons.mp h
    have hitem := open?_nesting hb item ho
    have hrest := openItems_nesting hb rest ha
    have hslot : (slot.getD .null).nesting ≤ max opened.nesting extra := by
      cases slot with
      | none => exact Nat.zero_le _
      | some r => exact carry_nesting hb (open?_like ho) hs
    simp only [nestingItems]
    omega

theorem openMembers_nesting (hb : e.Bounded extra) : ∀ (ms : List (String × Json)) {at_ : Locator} {skip : Bool}
    {ms' : Members Json},
    openMembers e strict done at_ skip ms = some ms' → nestingMembers ms' ≤ nestingMembers ms + extra
  | [], _, _, _, h => by
    cases h
    exact Nat.zero_le _
  | (key, node) :: rest, at_, skip, ms', h => by
    cases ha : skip && isArm key with
    | true =>
      rw [openMembers_cons_arm ha] at h
      obtain ⟨after, hr, rfl⟩ := Option.map_eq_some_iff.mp h
      have hrest := openMembers_nesting hb rest hr
      simp only [nestingMembers]
      omega
    | false =>
      rw [openMembers_cons ha] at h
      obtain ⟨after, hr, h⟩ := Option.bind_eq_some_iff.mp h
      obtain ⟨opened, ho, h⟩ := Option.bind_eq_some_iff.mp h
      obtain ⟨slot, hs, rfl⟩ := Option.map_eq_some_iff.mp h
      have hrest := openMembers_nesting hb rest hr
      have hnode := open?_nesting hb node ho
      have hleave : nestingMembers (e.leave done (at_ ++ [.key key]) key node after) ≤ nestingMembers after := by
        unfold leave
        split
        · exact Json.nestingMembers_erase_le _ after
        · exact Nat.le_refl _
      cases slot with
      | none =>
        simp only [Option.toList_none, List.map_nil, List.nil_append, nestingMembers]
        omega
      | some r =>
        have hslot := carry_nesting hb (open?_like ho) hs
        simp only [Option.toList_some, List.map_cons, List.map_nil, List.cons_append, List.nil_append, nestingMembers]
        omega

end

/-! ## Where a value is computed -/

/-- An import is the same for every object that asks for it. -/
def Anywhere (e : Engine) : Prop := ∀ host other argument, e.imports host argument = e.imports other argument

theorem outcome_place (hany : e.Anywhere) (hp : p ≠ []) (hq : q ≠ []) (d : Directive) (key : String) (written : Json)
    (argument : Slot) (ms : Members Json) :
    e.outcome strict d p key written argument ms = e.outcome strict d q key written argument ms := by
  cases hv : d.verb with
  | load =>
    simp only [outcome, hv, hany p q written]
    cases (e.imports q written).bind Json.decode with
    | none => rfl
    | some imported => cases d.produces <;> cases imported <;> simp [hp, hq]
  | choose | lookup | join | asJson | asYaml | asBase64 => simp only [outcome, hv]

theorem fits_room (hp : p ≠ []) {slot : Slot} (h : ∀ r, slot = some r → p.length + r.nesting ≤ nestingLimit) :
    fits p slot = true := by
  have hp' : p.isEmpty = false := by simpa using hp
  cases slot with
  | none => simp [fits, hp']
  | some r => simp [fits, hp', h r rfl]

theorem snoc_room {s : Segment} {n : Nat} (h : p.length + 1 + n + extra ≤ nestingLimit) :
    (p ++ [s]).length + n + extra ≤ nestingLimit := by
  rw [List.length_append, List.length_singleton]
  exact h

/-- What becomes of an opened node at two places with room beneath them. -/
theorem carry_place (hb : e.Bounded extra) (hany : e.Anywhere) (hp : p ≠ []) (hq : q ≠ [])
    (hproom : p.length + node.nesting + extra ≤ nestingLimit) (hqroom : q.length + node.nesting + extra ≤ nestingLimit)
    (ho : e.open? strict done at_ node = some opened) (beside : Option Slot) :
    e.carry strict (fun _ => true) p beside node opened = e.carry strict (fun _ => true) q beside node opened := by
  have hdeep := open?_nesting hb node ho
  have hlike := open?_like ho
  unfold carry
  simp only [if_true]
  cases hh : e.host? node with
  | none => rfl
  | some x =>
    obtain ⟨d, key, written⟩ := x
    cases node with
    | null | bool _ | num _ | str _ | arr _ => cases hh
    | obj _ =>
      obtain ⟨ms, rfl⟩ := hlike
      simp only [outcome_place hany hp hq]
      cases hout : e.outcome strict d q key written (argumentOf key written beside (membersOf (.obj ms)))
          (membersOf (.obj ms)) with
      | none => rfl
      | some slot =>
        have hroom : ∀ r, slot = some r → r.nesting ≤ max (Json.obj ms).nesting extra := by
          intro r hr
          subst hr
          exact outcome_nesting hb hout
        have hfp : fits p slot = true := fits_room hp fun r hr => by have := hroom r hr; omega
        have hfq : fits q slot = true := fits_room hq fun r hr => by have := hroom r hr; omega
        rw [Option.filter_some, Option.filter_some, hfp, hfq]

mutual

/-- Opened at two places with room beneath them, a node is the same. -/
theorem open?_place (hb : e.Bounded extra) (hany : e.Anywhere) :
    ∀ (node : Json) {p q : Locator}, p.length + node.nesting + extra ≤ nestingLimit →
    q.length + node.nesting + extra ≤ nestingLimit →
    e.open? strict (fun _ => true) p node = e.open? strict (fun _ => true) q node
  | .obj members, p, q, hp, hq => by
    simp only [Json.nesting] at hp hq
    rw [open?, open?, openMembers_place hb hany members (q := q) (by omega) (by omega)]
  | .arr items, p, q, hp, hq => by
    simp only [Json.nesting] at hp hq
    rw [open?, open?, openItems_place hb hany items (q := q) (by omega) (by omega)]
  | .null, _, _, _, _ | .bool _, _, _, _, _ | .num _, _, _, _, _ | .str _, _, _, _, _ => rfl

theorem openItems_place (hb : e.Bounded extra) (hany : e.Anywhere) : ∀ (items : List Json) {p q : Locator}
    {position : Nat}, p.length + 1 + nestingItems items + extra ≤ nestingLimit →
    q.length + 1 + nestingItems items + extra ≤ nestingLimit →
    openItems e strict (fun _ => true) p position items = openItems e strict (fun _ => true) q position items
  | [], _, _, _, _, _ => rfl
  | item :: rest, p, q, position, hp, hq => by
    simp only [nestingItems] at hp hq
    have hrest : openItems e strict (fun _ => true) p (position + 1) rest = openItems e strict (fun _ => true) q (position + 1) rest :=
      openItems_place hb hany rest (by omega) (by omega)
    have hproom : (p ++ [Segment.index position]).length + item.nesting + extra ≤ nestingLimit := snoc_room (by omega)
    have hqroom : (q ++ [Segment.index position]).length + item.nesting + extra ≤ nestingLimit := snoc_room (by omega)
    rw [openItems_bind, openItems_bind, hrest, open?_place hb hany item hproom hqroom]
    refine Option.bind_congr fun opened ho => ?_
    rw [carry_place hb hany (by simp) (by simp) hproom hqroom ho none]

theorem openMembers_place (hb : e.Bounded extra) (hany : e.Anywhere) : ∀ (ms : List (String × Json)) {p q : Locator}
    {skip : Bool}, p.length + 1 + nestingMembers ms + extra ≤ nestingLimit →
    q.length + 1 + nestingMembers ms + extra ≤ nestingLimit →
    openMembers e strict (fun _ => true) p skip ms = openMembers e strict (fun _ => true) q skip ms
  | [], _, _, _, _, _ => rfl
  | (key, node) :: rest, p, q, skip, hp, hq => by
    simp only [nestingMembers] at hp hq
    have hrest : openMembers e strict (fun _ => true) p skip rest = openMembers e strict (fun _ => true) q skip rest :=
      openMembers_place hb hany rest (by omega) (by omega)
    cases ha : skip && isArm key with
    | true => rw [openMembers_cons_arm ha, openMembers_cons_arm ha, hrest]
    | false =>
      have hproom : (p ++ [Segment.key key]).length + node.nesting + extra ≤ nestingLimit := snoc_room (by omega)
      have hqroom : (q ++ [Segment.key key]).length + node.nesting + extra ≤ nestingLimit := snoc_room (by omega)
      rw [openMembers_cons ha, openMembers_cons ha, hrest, open?_place hb hany node hproom hqroom]
      refine Option.bind_congr fun after _ => Option.bind_congr fun opened ho => ?_
      rw [carry_place hb hany (by simp) (by simp) hproom hqroom ho]
      rfl

end

end Engine

end DocExpand
