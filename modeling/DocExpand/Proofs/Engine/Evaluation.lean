/-
  DocExpand.Proofs.Engine.Evaluation — the value of a document, from the inside out.

  An object with an invocation has its members evaluated and then becomes the outcome of
  its directive; every other node is made of the values of its parts. The arms of a choice
  are kept as they are written. An invocation whose argument is literally true takes the
  value of the member under its object's key with the suffix, and that member goes.

  `done` says which invocations are carried out: all of them in `value`, the ones that a
  pass has come to so far in the proofs about it.
-/

import DocExpand.Engine.Verbs
import DocExpand.Proofs.Engine.Visits

namespace DocExpand.Engine

variable (e : Engine)

/-- What stands at a place: a node, or nothing any more. -/
abbrev Slot := Option Json

/-- What a directive makes of its object: `key` holds the argument as `written`, `argument` is the value that
    it takes, `members` are the evaluated members. -/
def outcome (strict : Bool) (d : Directive) (host : Locator) (key : String) (written : Json) (argument : Slot)
    (members : Members Json) : Option Slot :=
  match d.verb with
  | .choose =>
    match argument with
    | some (.bool condition) => some (Members.get? (armKey condition) members)
    | _ => none
  | .lookup =>
    match argument with
    | some (.str name) => (e.parameter? name).bind fun found => if found.kind = d.produces then some (some found) else none
    | _ => none
  | .load =>
    if !strict || Members.contains key members then
      ((e.imports host written).bind Json.decode).bind fun imported =>
        let others := Members.erase key members
        match d.produces, imported with
        | .object, .obj incoming => some (some (.obj (Json.mergeMembers e.config.mergePolicy others incoming)))
        | .array, .arr items => if others = [] ∧ host ≠ [] then some (some (.arr items)) else none
        | _, _ => none
    else none
  | .join =>
    match argument with
    | some (.arr items) => some (some (.str (String.join (items.map Json.plainText))))
    | _ => none
  | .asJson => argument.map fun j => some (.str j.render)
  | .asYaml => (argument.bind fun j => Json.decode j.encode).map fun j => some (.str (Yaml.render j))
  | .asBase64 => argument.map fun j => some (.str (Base64.encodeBytes (sourceBytes j)))

/-- What may stand at a place: no node deeper than the document may nest there, and at the root an array or object. -/
def fits (host : Locator) : Slot → Bool
  | some node => decide (host.length + node.nesting ≤ Json.nestingLimit) && (!host.isEmpty || node.kind.isContainer)
  | none => !host.isEmpty

/-- The members of a node, if it is an object. -/
def membersOf : Json → Members Json
  | .obj members => members
  | _ => []

/-- The value that an argument takes: `beside` is what the argument sibling has become, where there is one. -/
def argumentOf (key : String) (written : Json) (beside : Option Slot) (members : Members Json) : Slot :=
  (if written = .bool true then beside else none).getD (Members.get? key members)

/-- What becomes of a node whose parts are evaluated. -/
def carry (strict : Bool) (done : Locator → Bool) (at_ : Locator) (beside : Option Slot) (node opened : Json) : Option Slot :=
  if done at_ then
    match e.host? node with
    | some (d, key, written) =>
      (e.outcome strict d at_ key written (argumentOf key written beside (membersOf opened)) (membersOf opened)).filter
        (fits at_)
    | none => some (some opened)
  else some (some opened)

/-- The invocation's argument is literally true. -/
def takes (node : Json) : Bool := (e.host? node).any fun (_, _, written) => written = .bool true

/-- The key of the argument sibling. -/
def siblingKey (key : String) : String := key ++ e.config.argsSuffix

/-- What the sibling of a member has become, if the document has one. -/
def beside (key : String) (members after : Members Json) : Option Slot :=
  if Members.contains (e.siblingKey key) members then some (Members.get? (e.siblingKey key) after) else none

/-- The members that stay when the invocation at a member has taken its sibling. -/
def leave (done : Locator → Bool) (at_ : Locator) (key : String) (node : Json) (members : Members Json) : Members Json :=
  if done at_ && e.takes node then Members.erase (e.siblingKey key) members else members

mutual

/-- A node with its parts evaluated, its own invocation still there. -/
def open? (strict : Bool) (done : Locator → Bool) (at_ : Locator) : Json → Option Json
  | .obj members =>
    match e.invocation? members with
    | none => none
    | some _ => (openMembers strict done at_ (e.skips members) members).map .obj
  | .arr items => (openItems strict done at_ 0 items).map .arr
  | j => some j

/-- In an array, null stands for a node that has gone. -/
def openItems (strict : Bool) (done : Locator → Bool) (at_ : Locator) (position : Nat) : List Json → Option (List Json)
  | [] => some []
  | item :: rest => do
    let opened ← open? strict done (at_ ++ [.index position]) item
    let slot ← e.carry strict done (at_ ++ [.index position]) none item opened
    let rest ← openItems strict done at_ (position + 1) rest
    some (slot.getD .null :: rest)

/-- Later members first: the sibling of a member stands behind it. -/
def openMembers (strict : Bool) (done : Locator → Bool) (at_ : Locator) (skipArms : Bool) :
    List (String × Json) → Option (Members Json)
  | [] => some []
  | (key, node) :: rest => do
    let after ← openMembers strict done at_ skipArms rest
    if skipArms && isArm key then some ((key, node) :: after)
    else
      let opened ← open? strict done (at_ ++ [.key key]) node
      let slot ← e.carry strict done (at_ ++ [.key key]) (e.beside key rest after) node opened
      some ((slot.toList.map fun j => (key, j)) ++ e.leave done (at_ ++ [.key key]) key node after)

end

/-- The document with the invocations at the places `done` carried out. -/
def evaluate (strict : Bool) (done : Locator → Bool) (doc : Json) : Option Json :=
  (e.open? strict done Locator.root doc).bind fun opened => (e.carry strict done Locator.root none doc opened).bind id

/-- The value of a document. -/
def value (doc : Json) : Option Json := e.evaluate false (fun _ => true) doc

variable {e} {strict : Bool} {done done' : Locator → Bool} {at_ : Locator}

/-! ## What is not carried out -/

theorem carry_pending (h : done at_ = false) (beside : Option Slot) (node opened : Json) :
    e.carry strict done at_ beside node opened = some (some opened) := by
  rw [carry, h]
  rfl

theorem carry_plain {node : Json} (h : e.host? node = none) (beside : Option Slot) (opened : Json) :
    e.carry strict done at_ beside node opened = some (some opened) := by
  rw [carry, h]
  split <;> rfl

theorem leave_pending (h : done at_ = false) (key : String) (node : Json) (members : Members Json) :
    e.leave done at_ key node members = members := by
  rw [leave, h]
  rfl

theorem takes_host {node : Json} (h : e.takes node = true) : (e.host? node).isSome := by
  unfold takes at h
  cases hh : e.host? node with
  | none =>
    rw [hh] at h
    cases h
  | some x => rfl

theorem carry_congr {node : Json} (h : (e.host? node).isSome → done at_ = done' at_) (beside : Option Slot)
    (opened : Json) : e.carry strict done at_ beside node opened = e.carry strict done' at_ beside node opened := by
  cases hh : e.host? node with
  | none => rw [carry_plain hh, carry_plain hh]
  | some x => rw [carry, carry, h (by rw [hh]; rfl)]

theorem leave_congr {node : Json} (h : (e.host? node).isSome → done at_ = done' at_) (key : String)
    (members : Members Json) : e.leave done at_ key node members = e.leave done' at_ key node members := by
  unfold leave
  cases ht : e.takes node with
  | false => rw [Bool.and_false, Bool.and_false]
  | true => rw [h (takes_host ht)]

/-! ## What evaluation depends on -/

/-- The two agree on the invocations at `at_` and beneath it. -/
def Agree (e : Engine) (done done' : Locator → Bool) (at_ : Locator) (node : Json) : Prop :=
  ∀ rel target, e.Visited node rel target → (e.host? target).isSome → done (at_ ++ rel) = done' (at_ ++ rel)

theorem Agree.here {node : Json} (h : e.Agree done done' at_ node) (hh : (e.host? node).isSome) :
    done at_ = done' at_ := by
  have := h [] node (.here node) hh
  rwa [List.append_nil] at this

theorem Agree.item {items : List Json} {n : Nat} {item : Json} (hi : items[n]? = some item)
    (h : ∀ rel target, rel ≠ [] → e.Visited (.arr items) rel target → (e.host? target).isSome →
      done (at_ ++ rel) = done' (at_ ++ rel)) : e.Agree done done' (at_ ++ [.index n]) item := by
  intro rel target hv hh
  have := h (.index n :: rel) target (List.cons_ne_nil _ _) (.item hi hv) hh
  rwa [List.append_cons] at this

theorem Agree.member {members : List (String × Json)} {m : String × Json} (hm : m ∈ members)
    (ha : (e.skips members && isArm m.1) = false)
    (h : ∀ rel target, rel ≠ [] → e.Visited (.obj members) rel target → (e.host? target).isSome →
      done (at_ ++ rel) = done' (at_ ++ rel)) : e.Agree done done' (at_ ++ [.key m.1]) m.2 := by
  intro rel target hv hh
  have := h (.key m.1 :: rel) target (List.cons_ne_nil _ _) (.member hm ha hv) hh
  rwa [List.append_cons] at this

mutual

/-- Opening a node depends only on the invocations beneath it. -/
theorem open?_congr : ∀ (node : Json) {at_ : Locator}, (∀ rel target, rel ≠ [] → e.Visited node rel target →
    (e.host? target).isSome → done (at_ ++ rel) = done' (at_ ++ rel)) → e.open? strict done at_ node = e.open? strict done' at_ node
  | .obj members, at_, h => by
    rw [open?, open?, openMembers_congr members fun m hm ha => .member hm ha h]
  | .arr items, at_, h => by
    rw [open?, open?, openItems_congr items fun n item hi => by rw [Nat.zero_add]; exact .item hi h]
  | .null, _, _ | .bool _, _, _ | .num _, _, _ | .str _, _, _ => rfl

theorem openItems_congr : ∀ (items : List Json) {at_ : Locator} {position : Nat},
    (∀ n item, items[n]? = some item → e.Agree done done' (at_ ++ [.index (position + n)]) item) →
    openItems e strict done at_ position items = openItems e strict done' at_ position items
  | [], _, _, _ => rfl
  | item :: rest, at_, position, h => by
    have hitem : e.Agree done done' (at_ ++ [.index position]) item := h 0 item rfl
    have hrest : ∀ n x, rest[n]? = some x → e.Agree done done' (at_ ++ [.index (position + 1 + n)]) x := by
      intro n x hx
      have := h (n + 1) x hx
      rwa [Nat.add_comm n 1, ← Nat.add_assoc] at this
    rw [openItems, openItems, openItems_congr rest hrest,
      open?_congr item fun rel target _ hv hh => hitem rel target hv hh]
    simp only [carry_congr hitem.here]

theorem openMembers_congr : ∀ (members : List (String × Json)) {at_ : Locator} {skip : Bool},
    (∀ m ∈ members, (skip && isArm m.1) = false → e.Agree done done' (at_ ++ [.key m.1]) m.2) →
    openMembers e strict done at_ skip members = openMembers e strict done' at_ skip members
  | [], _, _, _ => rfl
  | (key, node) :: rest, at_, skip, h => by
    have hrest := openMembers_congr rest fun m hm ha => h m (List.mem_cons_of_mem _ hm) ha
    rw [openMembers, openMembers, hrest]
    by_cases ha : (skip && isArm key) = true
    · simp only [if_pos ha]
    · have hnode := h (key, node) (List.mem_cons_self ..) (by simpa using ha)
      rw [open?_congr node fun rel target _ hv hh => hnode rel target hv hh]
      simp only [if_neg ha, carry_congr hnode.here, leave_congr hnode.here]

end

theorem evaluate_congr {doc : Json} (h : e.Agree done done' Locator.root doc) :
    e.evaluate strict done doc = e.evaluate strict done' doc := by
  rw [evaluate, evaluate, open?_congr doc fun rel target _ hv hh => h rel target hv hh]
  simp only [carry_congr h.here]

/-! ## Evaluation and scan -/

theorem openItems_cons {position : Nat} {item : Json} {rest items' : List Json} :
    openItems e strict done at_ position (item :: rest) = some items' ↔ ∃ opened slot after,
      e.open? strict done (at_ ++ [.index position]) item = some opened ∧
      e.carry strict done (at_ ++ [.index position]) none item opened = some slot ∧
      openItems e strict done at_ (position + 1) rest = some after ∧ items' = slot.getD .null :: after := by
  rw [openItems]
  simp only [Option.bind_eq_bind, Option.bind_eq_some_iff, Option.some.injEq]
  constructor
  · rintro ⟨opened, ho, slot, hs, after, ha, rfl⟩
    exact ⟨opened, slot, after, ho, hs, ha, rfl⟩
  · rintro ⟨opened, slot, after, ho, hs, ha, rfl⟩
    exact ⟨opened, ho, slot, hs, after, ha, rfl⟩

theorem openMembers_cons_arm {skip : Bool} {key : String} {node : Json} {rest : List (String × Json)}
    (ha : (skip && isArm key) = true) :
    openMembers e strict done at_ skip ((key, node) :: rest) =
      (openMembers e strict done at_ skip rest).map fun after => (key, node) :: after := by
  rw [openMembers]
  simp only [if_pos ha]
  cases openMembers e strict done at_ skip rest <;> rfl

theorem openMembers_cons {skip : Bool} {key : String} {node : Json} {rest : List (String × Json)}
    (ha : (skip && isArm key) = false) :
    openMembers e strict done at_ skip ((key, node) :: rest) =
      (openMembers e strict done at_ skip rest).bind fun after =>
        (e.open? strict done (at_ ++ [.key key]) node).bind fun opened =>
          (e.carry strict done (at_ ++ [.key key]) (e.beside key rest after) node opened).map fun slot =>
            (slot.toList.map fun j => (key, j)) ++ e.leave done (at_ ++ [.key key]) key node after := by
  rw [openMembers]
  simp only [ha, Bool.false_eq_true, if_false]
  cases openMembers e strict done at_ skip rest with
  | none => rfl
  | some after =>
    cases e.open? strict done (at_ ++ [.key key]) node with
    | none => rfl
    | some opened =>
      simp only [Option.bind_eq_bind, Option.bind_some]
      cases e.carry strict done (at_ ++ [.key key]) (e.beside key rest after) node opened <;> rfl

mutual

/-- With nothing carried out a scanned node stays as it is. -/
theorem open?_pending {doc : Json} : ∀ (node : Json) {at_ : Locator} {is : List Invocation},
    e.scanNode doc at_ node = .ok is → e.open? strict (fun _ => false) at_ node = some node
  | .obj members, at_, is, h => by
    obtain ⟨found, below, hf, hb, -⟩ := scanNode_obj.mp h
    rw [open?, hf]
    simp only [openMembers_pending members hb, Option.map_some]
  | .arr items, at_, is, h => by
    rw [open?, openItems_pending items h, Option.map_some]
  | .null, _, _, _ | .bool _, _, _, _ | .num _, _, _, _ | .str _, _, _, _ => rfl

theorem openItems_pending {doc : Json} : ∀ (items : List Json) {at_ : Locator} {position : Nat}
    {is : List Invocation}, scanItems e doc at_ position items = .ok is →
    openItems e strict (fun _ => false) at_ position items = some items
  | [], _, _, _, _ => rfl
  | item :: rest, at_, position, is, h => by
    obtain ⟨here, later, hh, hl, -⟩ := scanItems_cons.mp h
    exact openItems_cons.mpr ⟨item, some item, rest, open?_pending item hh, carry_pending rfl .., openItems_pending rest hl,
      rfl⟩

theorem openMembers_pending {doc : Json} : ∀ (members : List (String × Json)) {at_ : Locator} {skip : Bool}
    {is : List Invocation}, scanMembers e doc at_ skip members = .ok is →
    openMembers e strict (fun _ => false) at_ skip members = some members
  | [], _, _, _, _ => rfl
  | (key, node) :: rest, at_, skip, is, h => by
    obtain ⟨here, later, hh, hl, -⟩ := scanMembers_cons.mp h
    cases ha : skip && isArm key with
    | true => rw [openMembers_cons_arm ha, openMembers_pending rest hl, Option.map_some]
    | false =>
      rw [ha, if_neg Bool.false_ne_true] at hh
      rw [openMembers_cons ha, openMembers_pending rest hl, Option.bind_some, open?_pending node hh, Option.bind_some,
        carry_pending rfl, leave_pending rfl]
      rfl

end

mutual

/-- Only what a scan lets pass can be evaluated. -/
theorem scanNode_of_open? {doc : Json} : ∀ (node : Json) {at_ : Locator} {opened : Json},
    e.open? strict done at_ node = some opened → ∃ is, e.scanNode doc at_ node = .ok is
  | .obj members, at_, opened, h => by
    rw [open?] at h
    split at h
    · cases h
    · rename_i found hf
      obtain ⟨ms, hm, -⟩ := Option.map_eq_some_iff.mp h
      obtain ⟨below, hb⟩ := scanMembers_of_openMembers members hm
      exact ⟨_, scanNode_obj.mpr ⟨found, below, hf, hb, rfl⟩⟩
  | .arr items, at_, opened, h => by
    rw [open?] at h
    obtain ⟨js, hj, -⟩ := Option.map_eq_some_iff.mp h
    exact scanItems_of_openItems items hj
  | .null, _, _, _ | .bool _, _, _, _ | .num _, _, _, _ | .str _, _, _, _ => ⟨[], rfl⟩

theorem scanItems_of_openItems {doc : Json} : ∀ (items : List Json) {at_ : Locator} {position : Nat}
    {items' : List Json}, openItems e strict done at_ position items = some items' →
    ∃ is, scanItems e doc at_ position items = .ok is
  | [], _, _, _, _ => ⟨[], rfl⟩
  | item :: rest, at_, position, items', h => by
    obtain ⟨opened, slot, after, ho, -, ha, -⟩ := openItems_cons.mp h
    obtain ⟨here, hh⟩ := scanNode_of_open? item ho
    obtain ⟨later, hl⟩ := scanItems_of_openItems rest ha
    exact ⟨_, scanItems_cons.mpr ⟨here, later, hh, hl, rfl⟩⟩

theorem scanMembers_of_openMembers {doc : Json} : ∀ (members : List (String × Json)) {at_ : Locator} {skip : Bool}
    {members' : Members Json}, openMembers e strict done at_ skip members = some members' →
    ∃ is, scanMembers e doc at_ skip members = .ok is
  | [], _, _, _, _ => ⟨[], rfl⟩
  | (key, node) :: rest, at_, skip, members', h => by
    cases ha : skip && isArm key with
    | true =>
      rw [openMembers_cons_arm ha] at h
      obtain ⟨after, hr, -⟩ := Option.map_eq_some_iff.mp h
      obtain ⟨later, hl⟩ := scanMembers_of_openMembers rest hr
      exact ⟨_, scanMembers_cons.mpr ⟨[], later, by rw [ha, if_pos rfl], hl, rfl⟩⟩
    | false =>
      rw [openMembers_cons ha] at h
      obtain ⟨after, hr, h⟩ := Option.bind_eq_some_iff.mp h
      obtain ⟨opened, ho, -⟩ := Option.bind_eq_some_iff.mp h
      obtain ⟨here, hh⟩ := scanNode_of_open? node ho
      obtain ⟨later, hl⟩ := scanMembers_of_openMembers rest hr
      exact ⟨_, scanMembers_cons.mpr ⟨here, later, by rw [ha, if_neg Bool.false_ne_true]; exact hh, hl, rfl⟩⟩

end

/-- With nothing carried out a scanned document stays as it is. -/
theorem evaluate_pending {doc : Json} {is : List Invocation} (h : e.scan doc = .ok is) :
    e.evaluate strict (fun _ => false) doc = some doc := by
  rw [evaluate, open?_pending doc h, Option.bind_some, carry_pending rfl]
  rfl

theorem scan_of_evaluate {doc result : Json} (h : e.evaluate strict done doc = some result) : ∃ is, e.scan doc = .ok is := by
  obtain ⟨opened, ho, -⟩ := Option.bind_eq_some_iff.mp h
  exact scanNode_of_open? doc ho

end DocExpand.Engine
