/-
  DocExpand.Proofs.Engine.Value — when every import keeps its own member.

  The value of an import needs the other members of its object only. A pass removes the
  import's own member and fails where that has already gone, as a choice without its arm
  goes. Strict evaluation has no outcome there: it is the value, where every import's own
  member stays (`evaluate_strict`).
-/

import DocExpand.Proofs.Engine.Applied
import DocExpand.Proofs.Engine.Evaluation

namespace DocExpand.Engine

variable {e : Engine} {strict : Bool} {done : Locator → Bool} {at_ : Locator}

/-- With every part evaluated, each import at or beneath a node still has its own member. -/
def ImportsStay (e : Engine) (at_ : Locator) (node : Json) : Prop :=
  ∀ rel target d key written opened, e.Visited node rel target → e.host? target = some (d, key, written) →
    d.verb = .load → e.open? false (fun _ => true) (at_ ++ rel) target = some opened →
    Members.contains key (membersOf opened) = true

theorem ImportsStay.item {items : List Json} {n : Nat} {item : Json} (h : e.ImportsStay at_ (.arr items))
    (hi : items[n]? = some item) : e.ImportsStay (at_ ++ [.index n]) item := by
  intro rel target d key written opened hv hh hl ho
  rw [List.append_assoc] at ho
  exact h _ target d key written opened (.item hi hv) hh hl ho

theorem ImportsStay.member {members : List (String × Json)} {m : String × Json} (h : e.ImportsStay at_ (.obj members))
    (hm : m ∈ members) (ha : (e.skips members && isArm m.1) = false) : e.ImportsStay (at_ ++ [.key m.1]) m.2 := by
  intro rel target d key written opened hv hh hl ho
  rw [List.append_assoc] at ho
  exact h _ target d key written opened (.member hm ha hv) hh hl ho

/-- Nothing is imported where no import is found. -/
theorem importsStay_of_scan {doc : Json} {found : List Invocation} (hscan : e.scan doc = .ok found)
    (h : ∀ i ∈ found, i.directive.verb ≠ .load) : e.ImportsStay Locator.root doc := by
  intro rel target d key written opened hv hh hl ho
  exact absurd hl (h _ ((mem_scan hscan _).mpr ⟨rel, target, d, key, written, hv, hh, rfl⟩))

/-! ## From strict to lenient -/

section Outcome

variable {d : Directive} {host : Locator} {key : String} {written : Json} {argument slot : Slot} {ms : Members Json}

theorem outcome_lenient (h : e.outcome true d host key written argument ms = some slot) :
    e.outcome false d host key written argument ms = some slot := by
  unfold outcome at h ⊢
  cases hv : d.verb with
  | load =>
    simp only [hv] at h ⊢
    split at h
    · exact h
    · cases h
  | choose | lookup | join | asJson | asYaml | asBase64 =>
    simp only [hv] at h ⊢
    exact h

theorem outcome_strict (hstay : d.verb = .load → Members.contains key ms = true) :
    e.outcome false d host key written argument ms = e.outcome true d host key written argument ms := by
  unfold outcome
  cases hv : d.verb with
  | load => simp [hstay hv]
  | choose | lookup | join | asJson | asYaml | asBase64 => rfl

end Outcome

theorem carry_lenient {beside : Option Slot} {node opened : Json} {slot : Slot}
    (h : e.carry true done at_ beside node opened = some slot) : e.carry false done at_ beside node opened = some slot := by
  unfold carry at h ⊢
  split at h
  · rename_i hd
    rw [if_pos hd]
    split at h
    · rw [Option.filter_eq_some_iff] at h ⊢
      exact ⟨outcome_lenient h.1, h.2⟩
    · exact h
  · rename_i hd
    rw [if_neg hd]
    exact h

mutual

theorem open?_lenient : ∀ (node : Json) {at_ : Locator} {opened : Json}, e.open? true done at_ node = some opened →
    e.open? false done at_ node = some opened
  | .obj members, at_, opened, h => by
    rw [open?] at h ⊢
    split at h
    · cases h
    · obtain ⟨ms, hm, rfl⟩ := Option.map_eq_some_iff.mp h
      exact congrArg (Option.map Json.obj) (openMembers_lenient members hm)
  | .arr items, at_, opened, h => by
    rw [open?] at h ⊢
    obtain ⟨js, hj, rfl⟩ := Option.map_eq_some_iff.mp h
    exact congrArg (Option.map Json.arr) (openItems_lenient items hj)
  | .null, _, _, h | .bool _, _, _, h | .num _, _, _, h | .str _, _, _, h => h

theorem openItems_lenient : ∀ (items : List Json) {at_ : Locator} {position : Nat} {items' : List Json},
    openItems e true done at_ position items = some items' → openItems e false done at_ position items = some items'
  | [], _, _, _, h => h
  | item :: rest, at_, position, items', h => by
    obtain ⟨opened, slot, after, ho, hs, ha, rfl⟩ := openItems_cons.mp h
    exact openItems_cons.mpr ⟨opened, slot, after, open?_lenient item ho, carry_lenient hs, openItems_lenient rest ha, rfl⟩

theorem openMembers_lenient : ∀ (members : List (String × Json)) {at_ : Locator} {skip : Bool} {ms : Members Json},
    openMembers e true done at_ skip members = some ms → openMembers e false done at_ skip members = some ms
  | [], _, _, _, h => h
  | (key, node) :: rest, at_, skip, ms, h => by
    cases ha : skip && isArm key with
    | true =>
      rw [openMembers_cons_arm ha] at h ⊢
      obtain ⟨after, hr, rfl⟩ := Option.map_eq_some_iff.mp h
      rw [openMembers_lenient rest hr, Option.map_some]
    | false =>
      rw [openMembers_cons ha] at h ⊢
      obtain ⟨after, hr, h⟩ := Option.bind_eq_some_iff.mp h
      obtain ⟨opened, ho, h⟩ := Option.bind_eq_some_iff.mp h
      obtain ⟨slot, hs, rfl⟩ := Option.map_eq_some_iff.mp h
      rw [openMembers_lenient rest hr, Option.bind_some, open?_lenient node ho, Option.bind_some, carry_lenient hs,
        Option.map_some]

end

/-! ## From lenient to strict -/

theorem carry_strict {beside : Option Slot} {node opened : Json} (hstay : e.ImportsStay at_ node)
    (ho : e.open? false (fun _ => true) at_ node = some opened) :
    e.carry true (fun _ => true) at_ beside node opened = e.carry false (fun _ => true) at_ beside node opened := by
  unfold carry
  cases hh : e.host? node with
  | none => rfl
  | some x =>
    obtain ⟨d, key, written⟩ := x
    simp only
    rw [outcome_strict fun hl => hstay [] node d key written opened (.here node) hh hl (by rw [List.append_nil]; exact ho)]

mutual

theorem open?_strict : ∀ (node : Json) {at_ : Locator} {opened : Json}, e.ImportsStay at_ node →
    e.open? false (fun _ => true) at_ node = some opened → e.open? true (fun _ => true) at_ node = some opened
  | .obj members, at_, opened, hstay, h => by
    rw [open?] at h ⊢
    split at h
    · cases h
    · obtain ⟨ms, hm, rfl⟩ := Option.map_eq_some_iff.mp h
      exact congrArg (Option.map Json.obj) (openMembers_strict members (fun m hmem ha => hstay.member hmem ha) hm)
  | .arr items, at_, opened, hstay, h => by
    rw [open?] at h ⊢
    obtain ⟨js, hj, rfl⟩ := Option.map_eq_some_iff.mp h
    refine congrArg (Option.map Json.arr) (openItems_strict items (fun n item hi => ?_) hj)
    rw [Nat.zero_add]
    exact hstay.item hi
  | .null, _, _, _, h | .bool _, _, _, _, h | .num _, _, _, _, h | .str _, _, _, _, h => h

theorem openItems_strict : ∀ (items : List Json) {at_ : Locator} {position : Nat} {items' : List Json},
    (∀ n item, items[n]? = some item → e.ImportsStay (at_ ++ [.index (position + n)]) item) →
    openItems e false (fun _ => true) at_ position items = some items' →
    openItems e true (fun _ => true) at_ position items = some items'
  | [], _, _, _, _, h => h
  | item :: rest, at_, position, items', hstay, h => by
    obtain ⟨opened, slot, after, ho, hs, ha, rfl⟩ := openItems_cons.mp h
    have hitem : e.ImportsStay (at_ ++ [.index position]) item := hstay 0 item rfl
    have hrest : ∀ n x, rest[n]? = some x → e.ImportsStay (at_ ++ [.index (position + 1 + n)]) x := by
      intro n x hx
      have := hstay (n + 1) x hx
      rwa [Nat.add_comm n 1, ← Nat.add_assoc] at this
    exact openItems_cons.mpr ⟨opened, slot, after, open?_strict item hitem ho, by rw [carry_strict hitem ho, hs],
      openItems_strict rest hrest ha, rfl⟩

theorem openMembers_strict : ∀ (members : List (String × Json)) {at_ : Locator} {skip : Bool} {ms : Members Json},
    (∀ m ∈ members, (skip && isArm m.1) = false → e.ImportsStay (at_ ++ [.key m.1]) m.2) →
    openMembers e false (fun _ => true) at_ skip members = some ms →
    openMembers e true (fun _ => true) at_ skip members = some ms
  | [], _, _, _, _, h => h
  | (key, node) :: rest, at_, skip, ms, hstay, h => by
    have hrest : ∀ m ∈ rest, (skip && isArm m.1) = false → e.ImportsStay (at_ ++ [.key m.1]) m.2 :=
      fun m hm => hstay m (List.mem_cons_of_mem _ hm)
    cases ha : skip && isArm key with
    | true =>
      rw [openMembers_cons_arm ha] at h ⊢
      obtain ⟨after, hr, rfl⟩ := Option.map_eq_some_iff.mp h
      rw [openMembers_strict rest hrest hr, Option.map_some]
    | false =>
      have hnode := hstay (key, node) (List.mem_cons_self ..) ha
      rw [openMembers_cons ha] at h ⊢
      obtain ⟨after, hr, h⟩ := Option.bind_eq_some_iff.mp h
      obtain ⟨opened, ho, h⟩ := Option.bind_eq_some_iff.mp h
      rw [openMembers_strict rest hrest hr, Option.bind_some, open?_strict node hnode ho, Option.bind_some,
        carry_strict hnode ho]
      exact h

end

/-! ## Every invocation has an outcome -/

theorem openItems_carried {items items' : List Json} {position n : Nat} {item : Json}
    (h : openItems e strict done at_ position items = some items') (hi : items[n]? = some item) :
    ∃ opened slot, e.open? strict done (at_ ++ [.index (position + n)]) item = some opened ∧
      e.carry strict done (at_ ++ [.index (position + n)]) none item opened = some slot := by
  induction items generalizing items' position n with
  | nil => cases hi
  | cons x rest ih =>
    obtain ⟨opened, slot, after, ho, hs, ha, -⟩ := openItems_cons.mp h
    cases n with
    | zero =>
      cases hi
      exact ⟨opened, slot, ho, hs⟩
    | succ n =>
      rw [Nat.add_comm n 1, ← Nat.add_assoc]
      exact ih ha hi

theorem openMembers_carried {members : List (String × Json)} {skip : Bool} {ms : Members Json} {m : String × Json}
    (h : openMembers e strict done at_ skip members = some ms) (hm : m ∈ members) (harm : (skip && isArm m.1) = false) :
    ∃ opened beside slot, e.open? strict done (at_ ++ [.key m.1]) m.2 = some opened ∧
      e.carry strict done (at_ ++ [.key m.1]) beside m.2 opened = some slot := by
  induction members generalizing ms with
  | nil => cases hm
  | cons x rest ih =>
    obtain ⟨key, node⟩ := x
    rcases List.mem_cons.mp hm with rfl | hm
    · rw [openMembers_cons harm] at h
      obtain ⟨after, -, h⟩ := Option.bind_eq_some_iff.mp h
      obtain ⟨opened, ho, h⟩ := Option.bind_eq_some_iff.mp h
      obtain ⟨slot, hs, -⟩ := Option.map_eq_some_iff.mp h
      exact ⟨opened, _, slot, ho, hs⟩
    · cases ha : skip && isArm key with
      | true =>
        rw [openMembers_cons_arm ha] at h
        obtain ⟨after, hr, -⟩ := Option.map_eq_some_iff.mp h
        exact ih hr hm
      | false =>
        rw [openMembers_cons ha] at h
        obtain ⟨after, hr, -⟩ := Option.bind_eq_some_iff.mp h
        exact ih hr hm

/-- Of an opened node, each visited part is opened and has become something. -/
theorem open?_carried {node target opened : Json} {rel : Locator} (h : e.open? strict done at_ node = some opened)
    (hv : e.Visited node rel target) (hne : rel ≠ []) :
    ∃ opened' beside slot, e.open? strict done (at_ ++ rel) target = some opened' ∧
      e.carry strict done (at_ ++ rel) beside target opened' = some slot := by
  induction hv generalizing at_ opened with
  | here node => exact absurd rfl hne
  | @item items n item target rel hi hv ih =>
    rw [open?] at h
    obtain ⟨js, hj, -⟩ := Option.map_eq_some_iff.mp h
    obtain ⟨o, slot, ho, hs⟩ := openItems_carried hj hi
    rw [Nat.zero_add] at ho hs
    cases rel with
    | nil =>
      cases hv
      exact ⟨o, none, slot, ho, hs⟩
    | cons s rel =>
      have := ih ho (List.cons_ne_nil _ _)
      rwa [List.append_assoc] at this
  | @member members key value target rel hm ha hv ih =>
    rw [open?] at h
    split at h
    · cases h
    · obtain ⟨ms, hms, -⟩ := Option.map_eq_some_iff.mp h
      obtain ⟨o, beside, slot, ho, hs⟩ := openMembers_carried hms hm ha
      cases rel with
      | nil =>
        cases hv
        exact ⟨o, beside, slot, ho, hs⟩
      | cons s rel =>
        have := ih ho (List.cons_ne_nil _ _)
        rwa [List.append_assoc] at this

theorem contains_of_carry {beside : Option Slot} {node opened : Json} {slot : Slot} {d : Directive} {key : String}
    {written : Json} (h : e.carry true done at_ beside node opened = some slot) (hd : done at_ = true)
    (hh : e.host? node = some (d, key, written)) (hl : d.verb = .load) :
    Members.contains key (membersOf opened) = true := by
  rw [carry, if_pos hd, hh] at h
  exact ((outcome_load hl).mp (Option.filter_eq_some_iff.mp h).1).1

/-- Strict evaluation gives the value of a document whose imports keep their own members, and nothing else. -/
theorem evaluate_strict {doc result : Json} :
    e.evaluate true (fun _ => true) doc = some result ↔ e.value doc = some result ∧ e.ImportsStay Locator.root doc := by
  constructor
  · intro h
    obtain ⟨opened, ho, hr⟩ := Option.bind_eq_some_iff.mp h
    obtain ⟨slot, hs, hslot⟩ := Option.bind_eq_some_iff.mp hr
    refine ⟨?_, fun rel target d key written opened' hv hh hl ho' => ?_⟩
    · rw [value, evaluate, open?_lenient doc ho, Option.bind_some, carry_lenient hs]
      exact hslot
    · by_cases hne : rel = []
      · subst hne
        cases hv
        rw [List.append_nil, open?_lenient doc ho] at ho'
        cases ho'
        exact contains_of_carry hs rfl hh hl
      · obtain ⟨o, beside, slot', ho1, hs1⟩ := open?_carried ho hv hne
        rw [open?_lenient target ho1] at ho'
        cases ho'
        exact contains_of_carry hs1 rfl hh hl
  · intro h
    obtain ⟨h, hstay⟩ := h
    obtain ⟨opened, ho, hr⟩ := Option.bind_eq_some_iff.mp h
    rw [evaluate, open?_strict doc hstay ho, Option.bind_some, carry_strict hstay ho]
    exact hr

end DocExpand.Engine
