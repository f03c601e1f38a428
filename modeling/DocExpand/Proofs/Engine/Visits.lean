/-
  DocExpand.Proofs.Engine.Visits — what a scan finds.

  A node is visited when it is reached from the root without entering an arm of a choice
  (`Visited`). A scan binds exactly the visited objects that hold an invocation
  (`mem_scan`), each once (`scan_nodup`), outer objects before inner ones and earlier
  members and items before later ones (`scan_ordered`).
-/

import DocExpand.Engine.Scan
import Mathlib.Data.List.Lex
import DocExpand.Proofs.Json.Ordered
import DocExpand.Proofs.Locator.Walk

namespace DocExpand

/-- Keys in their order, positions in theirs. -/
def Segment.Before : Segment → Segment → Prop
  | .key a, .key b => a < b
  | .index i, .index j => i < j
  | _, _ => False

theorem Segment.Before.asymm {s t : Segment} (h : s.Before t) : ¬ t.Before s := by
  cases s <;> cases t
  · exact String.lt_asymm h
  · exact id
  · exact id
  · exact Nat.lt_asymm h

theorem lt_append_suffix (key : String) {suffix : String} (h : suffix ≠ "") : key < key ++ suffix := by
  rw [String.lt_iff, String.toList_append]
  have hne : suffix.toList ≠ [] := fun hn => h (String.toList_inj.mp (by rw [hn]; rfl))
  obtain ⟨c, cs, hc⟩ := List.exists_cons_of_ne_nil hne
  rw [hc]
  have hl := @List.Lex.append_left Char (· < ·) [] (c :: cs) List.Lex.nil key.toList
  rwa [List.append_nil] at hl

namespace Engine

variable (e : Engine)

/-- The directive that the keys of an object invoke, with its key and argument; nothing if a key is at fault. -/
def invocation? (members : List (String × Json)) : Option (Option (Directive × String × Json)) :=
  (e.invoked Locator.root members).toOption

/-- The invocation of a node, if it is an object with one. -/
def host? : Json → Option (Directive × String × Json)
  | .obj members => (e.invocation? members).join
  | _ => none

/-- The object is a choice, whose arms are passed over. -/
def skips (members : List (String × Json)) : Bool :=
  (e.invocation? members).join.any fun (d, _) => d.verb == .choose

/-- From a node, a scan gets to another one. -/
inductive Visited : Json → Locator → Json → Prop
  | here (node : Json) : Visited node [] node
  | item {items : List Json} {position : Nat} {item target : Json} {rel : Locator} :
    items[position]? = some item → Visited item rel target → Visited (.arr items) (.index position :: rel) target
  | member {members : List (String × Json)} {key : String} {value target : Json} {rel : Locator} :
    (key, value) ∈ members → (e.skips members && isArm key) = false → Visited value rel target →
      Visited (.obj members) (.key key :: rel) target

variable {e}

/-! ## Invocations -/

/-- The members of an object under keys that are shaped like directives. -/
def calls (e : Engine) (members : List (String × Json)) : List (String × Json) :=
  members.filter fun m => Directive.isShaped m.1 e.config.domain

/-- What an object with these calls invokes, if it is not at fault. -/
def invokedBy (e : Engine) (host : Locator) :
    List (String × Json) → Except Error (Option (Directive × String × Json))
  | [] => .ok none
  | [(key, argument)] =>
    match Directive.parse? key e.config.domain with
    | none => .error (.unknownDirective key host)
    | some d => .ok (some (d, key, argument))
  | (first, _) :: (second, _) :: _ =>
    match Directive.parse? first e.config.domain, Directive.parse? second e.config.domain with
    | none, _ => .error (.unknownDirective first host)
    | some _, none => .error (.unknownDirective second host)
    | some _, some _ => .error (.duplicateDirective host first second)

theorem mem_calls {members : List (String × Json)} {m : String × Json} :
    m ∈ e.calls members ↔ m ∈ members ∧ Directive.isShaped m.1 e.config.domain = true := List.mem_filter

theorem calls_cons (m : String × Json) (rest : List (String × Json)) :
    e.calls (m :: rest) = if Directive.isShaped m.1 e.config.domain then m :: e.calls rest else e.calls rest :=
  List.filter_cons

theorem calls_eq_nil {members : List (String × Json)} :
    e.calls members = [] ↔ ∀ m ∈ members, Directive.isShaped m.1 e.config.domain = false := by
  simp [calls]

theorem calls_eq_singleton {members : List (String × Json)} {m : String × Json} (h : e.calls members = [m]) :
    m ∈ members ∧ ∀ n ∈ members, Directive.isShaped n.1 e.config.domain = true ↔ n = m := by
  have hcalls : ∀ n, n ∈ members ∧ Directive.isShaped n.1 e.config.domain = true ↔ n = m := by
    intro n
    rw [← mem_calls, h, List.mem_singleton]
  exact ⟨((hcalls m).mpr rfl).1, fun n hn => ⟨fun hs => (hcalls n).mp ⟨hn, hs⟩, fun he => ((hcalls n).mpr he).2⟩⟩

theorem invoked_go_calls (host : Locator) (members : List (String × Json)) :
    ∀ found, invoked.go e host found members = invoked.go e host found (e.calls members) := by
  induction members with
  | nil => exact fun _ => rfl
  | cons m rest ih =>
    obtain ⟨key, argument⟩ := m
    intro found
    rw [calls_cons]
    by_cases hs : Directive.isShaped key e.config.domain = true
    · rw [if_pos hs]
      unfold invoked.go
      rw [if_pos hs, if_pos hs]
      split
      · rfl
      · rfl
      · exact ih _
    · rw [if_neg hs, ← ih found]
      exact if_neg hs

/-- Only the members under shaped keys matter, the first two of them at most. -/
theorem invoked_eq (host : Locator) (members : List (String × Json)) :
    e.invoked host members = e.invokedBy host (e.calls members) := by
  have hshaped : ∀ m ∈ e.calls members, Directive.isShaped m.1 e.config.domain = true :=
    fun m hm => (mem_calls.mp hm).2
  rw [invoked, invoked_go_calls]
  -- the search ends at the second call at the latest
  revert hshaped
  rcases e.calls members with _ | ⟨⟨first, argument⟩, _ | ⟨⟨second, other⟩, rest⟩⟩
  · exact fun _ => rfl
  · intro hshaped
    have hfirst : Directive.isShaped first e.config.domain = true := hshaped _ (List.mem_singleton_self _)
    cases hp : Directive.parse? first e.config.domain <;> simp [invoked.go, invokedBy, hfirst, hp]
  · intro hshaped
    obtain ⟨hfirst, hrest⟩ := List.forall_mem_cons.mp hshaped
    obtain ⟨hsecond, -⟩ := List.forall_mem_cons.mp hrest
    cases hp : Directive.parse? first e.config.domain <;> cases hq : Directive.parse? second e.config.domain <;>
      simp [invoked.go, invokedBy, hfirst, hsecond, hp, hq]

theorem invoked_toOption (host : Locator) (members : List (String × Json)) :
    (e.invoked host members).toOption = e.invocation? members := by
  rw [invocation?, invoked_eq, invoked_eq]
  unfold invokedBy
  split
  · rfl
  · split <;> rfl
  · split <;> rfl

theorem invoked_ok (host : Locator) {members : List (String × Json)} {found : Option (Directive × String × Json)} :
    e.invoked host members = .ok found ↔ e.invocation? members = some found := by
  rw [← invoked_toOption host]
  cases e.invoked host members with
  | error x => exact ⟨fun h => (nomatch h), fun h => (nomatch h)⟩
  | ok f => exact ⟨fun h => congrArg Except.toOption h, fun h => by cases h; rfl⟩

theorem invocation?_eq_some_none {members : List (String × Json)} :
    e.invocation? members = some none ↔ e.calls members = [] := by
  rw [← invoked_ok Locator.root, invoked_eq]
  unfold invokedBy
  constructor
  · intro h
    split at h
    · assumption
    · split at h <;> cases h
    · split at h <;> cases h
  · intro h
    rw [h]

theorem invocation?_eq_some_some {members : List (String × Json)} {d : Directive} {key : String} {argument : Json} :
    e.invocation? members = some (some (d, key, argument)) ↔
      e.calls members = [(key, argument)] ∧ Directive.parse? key e.config.domain = some d := by
  rw [← invoked_ok Locator.root, invoked_eq]
  unfold invokedBy
  constructor
  · intro h
    split at h
    · cases h
    · rename_i hc
      split at h
      · cases h
      · rename_i hd
        cases h
        exact ⟨hc, hd⟩
    · split at h <;> cases h
  · rintro ⟨hc, hd⟩
    rw [hc]
    simp only [hd]

/-- Without an invocation no key is shaped like one. -/
theorem invocation?_none {members : List (String × Json)} (h : e.invocation? members = some none) :
    ∀ m ∈ members, Directive.isShaped m.1 e.config.domain = false := calls_eq_nil.mp (invocation?_eq_some_none.mp h)

/-- An invocation is a member under a key that names its directive, the only key of that shape. -/
theorem invocation?_some {members : List (String × Json)} {d : Directive} {key : String} {argument : Json}
    (h : e.invocation? members = some (some (d, key, argument))) :
    (key, argument) ∈ members ∧ Directive.parse? key e.config.domain = some d ∧
      ∀ m ∈ members, Directive.isShaped m.1 e.config.domain = true ↔ m = (key, argument) := by
  obtain ⟨hcalls, hd⟩ := invocation?_eq_some_some.mp h
  obtain ⟨hm, hshape⟩ := calls_eq_singleton hcalls
  exact ⟨hm, hd, hshape⟩

theorem host?_obj {members : List (String × Json)} {x : Directive × String × Json} :
    e.host? (.obj members) = some x ↔ e.invocation? members = some (some x) := Option.join_eq_some_iff

theorem host?_eq_some {node : Json} {x : Directive × String × Json} :
    e.host? node = some x ↔ ∃ members, node = .obj members ∧ e.invocation? members = some (some x) := by
  constructor
  · intro h
    cases node with
    | null | bool _ | num _ | str _ | arr _ => cases h
    | obj members => exact ⟨members, rfl, host?_obj.mp h⟩
  · rintro ⟨members, rfl, h⟩
    exact host?_obj.mpr h

@[simp] theorem bind_host (doc : Json) (host : Locator) (d : Directive) (key : String) (argument : Json) :
    (e.bind doc host d key argument).host = host := List.dropLast_concat

@[simp] theorem bind_branch (doc : Json) (host : Locator) (d : Directive) (key : String) (argument : Json) :
    (e.bind doc host d key argument).branch = host ++ [.key key] := rfl

@[simp] theorem bind_directive (doc : Json) (host : Locator) (d : Directive) (key : String) (argument : Json) :
    (e.bind doc host d key argument).directive = d := rfl

@[simp] theorem bind_payload (doc : Json) (host : Locator) (d : Directive) (key : String) (argument : Json) :
    (e.bind doc host d key argument).payload = if d.verb = .load then e.imports host argument else none := rfl

/-! ## Visited nodes -/

theorem Visited.trans {node middle target : Json} {p q : Locator} (h : e.Visited node p middle)
    (h' : e.Visited middle q target) : e.Visited node (p ++ q) target := by
  induction h with
  | here node => exact h'
  | item hi _ ih => exact .item hi (ih h')
  | member hm ha _ ih => exact .member hm ha (ih h')

theorem Visited.split {node target : Json} {p q : Locator} (h : e.Visited node (p ++ q) target) :
    ∃ middle, e.Visited node p middle ∧ e.Visited middle q target := by
  induction p generalizing node with
  | nil => exact ⟨node, .here node, h⟩
  | cons s p ih =>
    cases h with
    | item hi hv =>
      obtain ⟨middle, h1, h2⟩ := ih hv
      exact ⟨middle, .item hi h1, h2⟩
    | member hm ha hv =>
      obtain ⟨middle, h1, h2⟩ := ih hv
      exact ⟨middle, .member hm ha h1, h2⟩

/-- In an ordered document a visited node is what its locator leads to. -/
theorem Visited.walk {node target : Json} {p : Locator} (h : e.Visited node p target) (ho : node.Ordered) :
    Locator.walk p node = some target ∧ target.Ordered := by
  induction h with
  | here node => exact ⟨rfl, ho⟩
  | item hi _ ih =>
    obtain ⟨hw, ht⟩ := ih (Json.orderedItems_iff.mp ho _ (List.mem_of_getElem? hi))
    refine ⟨?_, ht⟩
    rw [Locator.walk_cons, Json.step?, hi, Option.bind_some, hw]
  | member hm _ _ ih =>
    obtain ⟨hw, ht⟩ := ih (Json.orderedMembers_iff.mp ho.2 _ hm)
    refine ⟨?_, ht⟩
    rw [Locator.walk_cons, Json.step?, Members.get?_of_mem ho.1 hm, Option.bind_some, hw]

/-- So is a member of a visited object. -/
theorem Visited.walk_member {node value : Json} {p : Locator} {members : List (String × Json)} {key : String}
    (h : e.Visited node p (.obj members)) (ho : node.Ordered) (hm : (key, value) ∈ members) :
    Locator.walk (p ++ [.key key]) node = some value := by
  obtain ⟨hw, hmo⟩ := h.walk ho
  rw [Locator.walk_snoc, hw]
  exact Members.get?_of_mem (Json.ordered_obj.mp hmo).1 hm

theorem Visited.resolve {node target : Json} {p : Locator} (h : e.Visited node p target) (ho : node.Ordered) :
    Locator.resolve p node = some target ∧ target.Ordered :=
  ⟨Locator.resolve_of_walk (h.walk ho).1, (h.walk ho).2⟩

theorem Visited.unique {node a b : Json} {p : Locator} (ha : e.Visited node p a) (hb : e.Visited node p b)
    (ho : node.Ordered) : a = b := by
  have := (ha.resolve ho).1
  rw [(hb.resolve ho).1] at this
  exact (Option.some.inj this).symm

/-! ## Scans -/

section Scan

variable {doc : Json}

/-- The invocation that a scan binds at an object. -/
def ownOf (e : Engine) (doc : Json) (host : Locator) (found : Option (Directive × String × Json)) : List Invocation :=
  found.toList.map fun (d, key, argument) => e.bind doc host d key argument

theorem bind_ok {α β : Type} {x : Except Error α} {f : α → Except Error β} {b : β} :
    x >>= f = .ok b ↔ ∃ a, x = .ok a ∧ f a = .ok b := by
  cases x with
  | error y => exact ⟨fun h => (nomatch h), fun ⟨_, h, _⟩ => (nomatch h)⟩
  | ok a => exact ⟨fun h => ⟨a, rfl, h⟩, fun ⟨_, h, h'⟩ => by cases h; exact h'⟩

theorem bind_error {α β : Type} {x : Except Error α} {f : α → Except Error β} {cause : Error} :
    x >>= f = .error cause ↔ x = .error cause ∨ ∃ a, x = .ok a ∧ f a = .error cause := by
  cases x with
  | error y =>
    refine ⟨fun h => .inl (by cases h; rfl), ?_⟩
    rintro (h | ⟨_, h, _⟩)
    · cases h
      rfl
    · cases h
  | ok a =>
    refine ⟨fun h => .inr ⟨a, rfl, h⟩, ?_⟩
    rintro (h | ⟨_, h, hf⟩)
    · cases h
    · cases h
      exact hf

theorem scanNode_obj {at_ : Locator} {members : List (String × Json)} {is : List Invocation} :
    e.scanNode doc at_ (.obj members) = .ok is ↔ ∃ found below, e.invocation? members = some found ∧
      scanMembers e doc at_ (e.skips members) members = .ok below ∧ is = e.ownOf doc at_ found ++ below := by
  rw [scanNode, bind_ok]
  constructor
  · rintro ⟨found, hi, h⟩
    have hf := (invoked_ok at_).mp hi
    obtain ⟨below, hb, h⟩ := bind_ok.mp h
    cases h
    refine ⟨found, below, hf, ?_, rfl⟩
    rw [skips, hf]
    exact hb
  · rintro ⟨found, below, hf, hb, rfl⟩
    rw [skips, hf] at hb
    exact ⟨found, (invoked_ok at_).mpr hf, bind_ok.mpr ⟨below, hb, rfl⟩⟩

theorem scanItems_cons {at_ : Locator} {position : Nat} {item : Json} {rest : List Json} {is : List Invocation} :
    scanItems e doc at_ position (item :: rest) = .ok is ↔ ∃ here later,
      e.scanNode doc (at_ ++ [.index position]) item = .ok here ∧
      scanItems e doc at_ (position + 1) rest = .ok later ∧ is = here ++ later := by
  rw [scanItems, bind_ok]
  constructor
  · rintro ⟨here, hh, h⟩
    obtain ⟨later, hl, h⟩ := bind_ok.mp h
    cases h
    exact ⟨here, later, hh, hl, rfl⟩
  · rintro ⟨here, later, hh, hl, rfl⟩
    exact ⟨here, hh, bind_ok.mpr ⟨later, hl, rfl⟩⟩

theorem scanMembers_cons {at_ : Locator} {skip : Bool} {key : String} {value : Json} {rest : List (String × Json)}
    {is : List Invocation} :
    scanMembers e doc at_ skip ((key, value) :: rest) = .ok is ↔ ∃ here later,
      (if skip && isArm key then .ok [] else e.scanNode doc (at_ ++ [.key key]) value) = .ok here ∧
      scanMembers e doc at_ skip rest = .ok later ∧ is = here ++ later := by
  have hstep : scanMembers e doc at_ skip ((key, value) :: rest) =
      (if skip && isArm key then .ok [] else e.scanNode doc (at_ ++ [.key key]) value) >>= fun here =>
        scanMembers e doc at_ skip rest >>= fun later => pure (here ++ later) := by
    rw [scanMembers]
    split <;> rfl
  rw [hstep, bind_ok]
  constructor
  · rintro ⟨here, hh, h⟩
    obtain ⟨later, hl, h⟩ := bind_ok.mp h
    cases h
    exact ⟨here, later, hh, hl, rfl⟩
  · rintro ⟨here, later, hh, hl, rfl⟩
    exact ⟨here, hh, bind_ok.mpr ⟨later, hl, rfl⟩⟩

/-- `i` is bound at `rel` from `at_`, in `node`. -/
def BoundIn (e : Engine) (doc : Json) (at_ : Locator) (node : Json) (i : Invocation) : Prop :=
  ∃ rel target d key argument, e.Visited node rel target ∧ e.host? target = some (d, key, argument) ∧
    i = e.bind doc (at_ ++ rel) d key argument

theorem boundIn_item {at_ : Locator} {items : List Json} {i : Invocation} :
    e.BoundIn doc at_ (.arr items) i ↔
      ∃ (position : Nat) (item : Json), items[position]? = some item ∧ e.BoundIn doc (at_ ++ [.index position]) item i := by
  constructor
  · rintro ⟨rel, target, d, key, argument, hv, hh, rfl⟩
    cases hv with
    | here => cases hh
    | @item _ position item _ rel hi hv =>
      refine ⟨position, item, hi, rel, target, d, key, argument, hv, hh, ?_⟩
      rw [List.append_assoc, List.singleton_append]
  · rintro ⟨position, item, hi, rel, target, d, key, argument, hv, hh, rfl⟩
    refine ⟨.index position :: rel, target, d, key, argument, .item hi hv, hh, ?_⟩
    rw [List.append_assoc, List.singleton_append]

theorem boundIn_member {at_ : Locator} {members : List (String × Json)} {i : Invocation} :
    e.BoundIn doc at_ (.obj members) i ↔
      (∃ d key argument, e.invocation? members = some (some (d, key, argument)) ∧ i = e.bind doc at_ d key argument) ∨
      ∃ m ∈ members, (e.skips members && isArm m.1) = false ∧ e.BoundIn doc (at_ ++ [.key m.1]) m.2 i := by
  constructor
  · rintro ⟨rel, target, d, key, argument, hv, hh, rfl⟩
    cases hv with
    | here => exact .inl ⟨d, key, argument, host?_obj.mp hh, by rw [List.append_nil]⟩
    | @member _ k value _ rel hm ha hv =>
      refine .inr ⟨(k, value), hm, ha, rel, target, d, key, argument, hv, hh, ?_⟩
      rw [List.append_assoc, List.singleton_append]
  · rintro (⟨d, key, argument, hh, rfl⟩ | ⟨⟨k, value⟩, hm, ha, rel, target, d, key, argument, hv, hh, rfl⟩)
    · exact ⟨[], _, d, key, argument, .here _, host?_obj.mpr hh, by rw [List.append_nil]⟩
    · refine ⟨.key k :: rel, target, d, key, argument, .member hm ha hv, hh, ?_⟩
      rw [List.append_assoc, List.singleton_append]

mutual

theorem mem_scanNode : ∀ (node : Json) {at_ : Locator} {is : List Invocation}, e.scanNode doc at_ node = .ok is →
    ∀ i, i ∈ is ↔ e.BoundIn doc at_ node i
  | .obj members, at_, is, h, i => by
    obtain ⟨found, below, hf, hb, rfl⟩ := scanNode_obj.mp h
    rw [List.mem_append, boundIn_member, mem_scanMembers members hb, ownOf, List.mem_map]
    refine or_congr ⟨?_, ?_⟩ Iff.rfl
    · rintro ⟨⟨d, key, argument⟩, hm, rfl⟩
      rw [Option.mem_toList] at hm
      exact ⟨d, key, argument, by rw [hf, hm], rfl⟩
    · rintro ⟨d, key, argument, hd, rfl⟩
      rw [hf] at hd
      cases hd
      exact ⟨(d, key, argument), Option.mem_toList.mpr rfl, rfl⟩
  | .arr items, at_, is, h, i => by
    rw [boundIn_item, mem_scanItems items h]
    simp only [Nat.zero_add]
  | .null, _, _, h, _ | .bool _, _, _, h, _ | .num _, _, _, h, _ | .str _, _, _, h, _ => by
    cases h
    refine ⟨fun h => (nomatch h), ?_⟩
    rintro ⟨rel, target, d, key, argument, hv, hh, rfl⟩
    cases hv
    cases hh

theorem mem_scanItems : ∀ (items : List Json) {at_ : Locator} {position : Nat} {is : List Invocation},
    scanItems e doc at_ position items = .ok is → ∀ i, i ∈ is ↔
      ∃ (n : Nat) (item : Json), items[n]? = some item ∧ e.BoundIn doc (at_ ++ [.index (position + n)]) item i
  | [], _, _, _, h, i => by
    cases h
    simp
  | item :: rest, at_, position, is, h, i => by
    obtain ⟨here, later, hh, hl, rfl⟩ := scanItems_cons.mp h
    rw [List.mem_append, mem_scanNode item hh, mem_scanItems rest hl]
    constructor
    · rintro (hi | ⟨n, x, hx, hi⟩)
      · exact ⟨0, item, rfl, hi⟩
      · refine ⟨n + 1, x, hx, ?_⟩
        rwa [Nat.add_comm n 1, ← Nat.add_assoc]
    · rintro ⟨n, x, hx, hi⟩
      cases n with
      | zero =>
        cases hx
        exact .inl hi
      | succ n =>
        refine .inr ⟨n, x, hx, ?_⟩
        rwa [Nat.add_assoc, Nat.add_comm 1 n]

theorem mem_scanMembers : ∀ (members : List (String × Json)) {at_ : Locator} {skip : Bool} {is : List Invocation},
    scanMembers e doc at_ skip members = .ok is → ∀ i, i ∈ is ↔
      ∃ m ∈ members, (skip && isArm m.1) = false ∧ e.BoundIn doc (at_ ++ [.key m.1]) m.2 i
  | [], _, _, _, h, i => by
    cases h
    simp
  | (key, value) :: rest, at_, skip, is, h, i => by
    obtain ⟨here, later, hh, hl, rfl⟩ := scanMembers_cons.mp h
    have hhere : i ∈ here ↔ (skip && isArm key) = false ∧ e.BoundIn doc (at_ ++ [.key key]) value i := by
      by_cases ha : (skip && isArm key) = true
      · rw [if_pos ha] at hh
        cases hh
        simp [ha]
      · rw [if_neg ha] at hh
        rw [mem_scanNode value hh, and_iff_right (by simpa using ha)]
    rw [List.mem_append, hhere, mem_scanMembers rest hl]
    simp only [List.mem_cons, or_and_right, exists_or, exists_eq_left]

end

/-- A scan binds the visited objects that hold an invocation. -/
theorem mem_scan {is : List Invocation} (h : e.scan doc = .ok is) (i : Invocation) :
    i ∈ is ↔ ∃ host target d key argument, e.Visited doc host target ∧ e.host? target = some (d, key, argument) ∧
      i = e.bind doc host d key argument :=
  mem_scanNode doc h i

/-! ## Scans that fail -/

theorem scanItems_child {at_ : Locator} {items : List Json} {position n : Nat} {item : Json} {is : List Invocation}
    (h : scanItems e doc at_ position items = .ok is) (hx : items[n]? = some item) :
    ∃ here, e.scanNode doc (at_ ++ [.index (position + n)]) item = .ok here := by
  induction items generalizing position n is with
  | nil => cases hx
  | cons first rest ih =>
    obtain ⟨here, later, hh, hl, -⟩ := scanItems_cons.mp h
    cases n with
    | zero =>
      cases hx
      exact ⟨here, hh⟩
    | succ n =>
      have := ih hl hx
      rwa [Nat.add_assoc, Nat.add_comm 1 n] at this

theorem scanMembers_child {at_ : Locator} {skip : Bool} {members : List (String × Json)} {key : String} {value : Json}
    {is : List Invocation} (h : scanMembers e doc at_ skip members = .ok is) (hx : (key, value) ∈ members)
    (harm : (skip && isArm key) = false) : ∃ here, e.scanNode doc (at_ ++ [.key key]) value = .ok here := by
  induction members generalizing is with
  | nil => cases hx
  | cons m rest ih =>
    obtain ⟨here, later, hh, hl, -⟩ := scanMembers_cons.mp h
    rcases List.mem_cons.mp hx with rfl | hx
    · rw [harm, if_neg Bool.false_ne_true] at hh
      exact ⟨here, hh⟩
    · exact ih hl hx

/-- A scan that succeeds succeeds at every visited node. -/
theorem Visited.scanned {node target : Json} {rel : Locator} (hv : e.Visited node rel target) :
    ∀ {at_ : Locator} {is : List Invocation}, e.scanNode doc at_ node = .ok is →
      ∃ here, e.scanNode doc (at_ ++ rel) target = .ok here := by
  induction hv with
  | here node =>
    intro at_ is h
    exact ⟨is, by rw [List.append_nil, h]⟩
  | @item items position item target rel hi _ ih =>
    intro at_ is h
    rw [scanNode] at h
    obtain ⟨here, hh⟩ := scanItems_child h hi
    rw [Nat.zero_add] at hh
    rw [List.append_cons]
    exact ih hh
  | member hm ha _ ih =>
    intro at_ is h
    obtain ⟨found, below, -, hb, -⟩ := scanNode_obj.mp h
    obtain ⟨here, hh⟩ := scanMembers_child hb hm ha
    rw [List.append_cons]
    exact ih hh

mutual

/-- A scan fails for what some visited object is at fault. -/
theorem scanNode_error : ∀ (node : Json) {at_ : Locator} {cause : Error}, e.scanNode doc at_ node = .error cause →
    ∃ rel members, e.Visited node rel (.obj members) ∧ e.invoked (at_ ++ rel) members = .error cause
  | .obj members, at_, cause, h => by
    rw [scanNode] at h
    rcases bind_error.mp h with h | ⟨found, hf, h⟩
    · exact ⟨[], members, .here _, by rwa [List.append_nil]⟩
    · rcases bind_error.mp h with h | ⟨below, -, h⟩
      · obtain ⟨⟨key, value⟩, hm, harm, rel, ms, hv, hi⟩ := scanMembers_error members h
        have hskips : e.skips members = found.any fun (d, _) => d.verb == .choose := by
          rw [skips, (invoked_ok at_).mp hf]
          rfl
        refine ⟨.key key :: rel, ms, .member hm (by rw [hskips]; exact harm) hv, ?_⟩
        rwa [List.append_cons]
      · cases h
  | .arr items, at_, cause, h => by
    rw [scanNode] at h
    obtain ⟨n, item, hx, rel, ms, hv, hi⟩ := scanItems_error items h
    rw [Nat.zero_add] at hi
    refine ⟨.index n :: rel, ms, .item hx hv, ?_⟩
    rwa [List.append_cons]
  | .null, _, _, h | .bool _, _, _, h | .num _, _, _, h | .str _, _, _, h => nomatch h

theorem scanItems_error : ∀ (items : List Json) {at_ : Locator} {position : Nat} {cause : Error},
    scanItems e doc at_ position items = .error cause → ∃ (n : Nat) (item : Json), items[n]? = some item ∧
      ∃ rel members, e.Visited item rel (.obj members) ∧
        e.invoked (at_ ++ [.index (position + n)] ++ rel) members = .error cause
  | [], _, _, _, h => nomatch h
  | item :: rest, at_, position, cause, h => by
    rw [scanItems] at h
    rcases bind_error.mp h with h | ⟨here, -, h⟩
    · exact ⟨0, item, rfl, scanNode_error item h⟩
    · rcases bind_error.mp h with h | ⟨later, -, h⟩
      · obtain ⟨n, x, hx, rel, ms, hv, hi⟩ := scanItems_error rest h
        refine ⟨n + 1, x, hx, rel, ms, hv, ?_⟩
        rwa [Nat.add_comm n 1, ← Nat.add_assoc]
      · cases h

theorem scanMembers_error : ∀ (members : List (String × Json)) {at_ : Locator} {skip : Bool} {cause : Error},
    scanMembers e doc at_ skip members = .error cause → ∃ m ∈ members, (skip && isArm m.1) = false ∧
      ∃ rel ms, e.Visited m.2 rel (.obj ms) ∧ e.invoked (at_ ++ [.key m.1] ++ rel) ms = .error cause
  | [], _, _, _, h => nomatch h
  | (key, value) :: rest, at_, skip, cause, h => by
    rw [scanMembers] at h
    have hlater : ∀ here : List Invocation, (do
        let later ← scanMembers e doc at_ skip rest
        return here ++ later : Except Error (List Invocation)) = .error cause →
        ∃ m ∈ (key, value) :: rest, (skip && isArm m.1) = false ∧
          ∃ rel ms, e.Visited m.2 rel (.obj ms) ∧ e.invoked (at_ ++ [.key m.1] ++ rel) ms = .error cause := by
      intro here h
      rcases bind_error.mp h with h | ⟨later, -, h⟩
      · obtain ⟨m, hm, hfault⟩ := scanMembers_error rest h
        exact ⟨m, List.mem_cons_of_mem _ hm, hfault⟩
      · cases h
    split at h
    · exact hlater [] h
    · rename_i harm
      rcases bind_error.mp h with h | ⟨here, -, h⟩
      · exact ⟨(key, value), List.mem_cons_self .., by simpa using harm, scanNode_error value h⟩
      · exact hlater here h

end

theorem scan_error {cause : Error} (h : e.scan doc = .error cause) :
    ∃ p members, e.Visited doc p (.obj members) ∧ e.invoked p members = .error cause := scanNode_error doc h

/-- Where a scan succeeds no visited object is at fault. -/
theorem Visited.invocation {p : Locator} {members : List (String × Json)} {is : List Invocation}
    (hv : e.Visited doc p (.obj members)) (h : e.scan doc = .ok is) : ∃ found, e.invocation? members = some found := by
  obtain ⟨here, hh⟩ := hv.scanned h
  obtain ⟨found, -, hf, -⟩ := scanNode_obj.mp hh
  exact ⟨found, hf⟩

end Scan

/-! ## The order of a scan -/

section Order

variable {doc : Json}

/-- An object stands before what is beneath it, members in the order of their keys, items of their positions. -/
def Before : Locator → Locator → Prop := List.Lex Segment.Before

theorem Before.asymm {p q : Locator} (h : Before p q) : ¬ Before q p := List.lex_asymm Segment.Before.asymm h

theorem Before.irrefl (p : Locator) : ¬ Before p p := fun h => h.asymm h

theorem before_under (p : Locator) (s : Segment) (q : Locator) : Before p (p ++ [s] ++ q) := by
  have h := @List.Lex.append_left Segment Segment.Before [] (s :: q) List.Lex.nil p
  rwa [List.append_nil, List.append_cons] at h

theorem before_branches (p : Locator) {s t : Segment} (h : s.Before t) (q r : Locator) :
    Before (p ++ [s] ++ q) (p ++ [t] ++ r) := by
  rw [List.append_assoc, List.append_assoc]
  exact List.Lex.append_left Segment.Before (List.Lex.rel h) p

theorem scanned_under {node : Json} {at_ : Locator} {is : List Invocation} (h : e.scanNode doc at_ node = .ok is)
    {i : Invocation} (hi : i ∈ is) : ∃ rel, i.host = at_ ++ rel := by
  obtain ⟨rel, target, d, key, argument, -, -, rfl⟩ := (mem_scanNode node h i).mp hi
  exact ⟨rel, bind_host ..⟩

mutual

theorem scanNode_ordered : ∀ (node : Json) {at_ : Locator} {is : List Invocation}, node.Ordered →
    e.scanNode doc at_ node = .ok is → is.Pairwise fun i j => Before i.host j.host
  | .obj members, at_, is, ho, h => by
    obtain ⟨found, below, -, hb, rfl⟩ := scanNode_obj.mp h
    refine List.pairwise_append.mpr ⟨?_, scanMembers_ordered members ho.1 ho.2 hb, ?_⟩
    · cases found <;> simp [ownOf]
    · intro i hi j hj
      obtain ⟨⟨d, key, argument⟩, -, rfl⟩ := List.mem_map.mp hi
      obtain ⟨m, -, -, rel, target, d', key', argument', -, -, rfl⟩ := (mem_scanMembers members hb j).mp hj
      rw [bind_host, bind_host]
      exact before_under at_ (.key m.1) rel
  | .arr items, at_, is, ho, h => scanItems_ordered items ho h
  | .null, _, _, _, h | .bool _, _, _, _, h | .num _, _, _, _, h | .str _, _, _, _, h => by
    cases h
    exact List.Pairwise.nil

theorem scanItems_ordered : ∀ (items : List Json) {at_ : Locator} {position : Nat} {is : List Invocation},
    Json.OrderedItems items → scanItems e doc at_ position items = .ok is →
    is.Pairwise fun i j => Before i.host j.host
  | [], _, _, _, _, h => by
    cases h
    exact List.Pairwise.nil
  | item :: rest, at_, position, is, ho, h => by
    obtain ⟨here, later, hh, hl, rfl⟩ := scanItems_cons.mp h
    refine List.pairwise_append.mpr ⟨scanNode_ordered item ho.1 hh, scanItems_ordered rest ho.2 hl, ?_⟩
    intro i hi j hj
    obtain ⟨rel, hi⟩ := scanned_under hh hi
    obtain ⟨n, x, -, rel', target, d, key, argument, -, -, rfl⟩ := (mem_scanItems rest hl j).mp hj
    have hlt : Segment.Before (.index position) (.index (position + 1 + n)) := by
      change position < position + 1 + n
      omega
    rw [hi, bind_host]
    exact before_branches at_ hlt rel rel'

theorem scanMembers_ordered : ∀ (members : List (String × Json)) {at_ : Locator} {skip : Bool} {is : List Invocation},
    Members.Ascending members → Json.OrderedMembers members → scanMembers e doc at_ skip members = .ok is →
    is.Pairwise fun i j => Before i.host j.host
  | [], _, _, _, _, _, h => by
    cases h
    exact List.Pairwise.nil
  | (key, value) :: rest, at_, skip, is, ha, ho, h => by
    obtain ⟨here, later, hh, hl, rfl⟩ := scanMembers_cons.mp h
    split at hh
    · cases hh
      exact scanMembers_ordered rest ha.tail ho.2 hl
    · refine List.pairwise_append.mpr ⟨scanNode_ordered value ho.1 hh, scanMembers_ordered rest ha.tail ho.2 hl, ?_⟩
      intro i hi j hj
      obtain ⟨rel, hi⟩ := scanned_under hh hi
      obtain ⟨m, hm, -, rel', target, d, key', argument, -, -, rfl⟩ := (mem_scanMembers rest hl j).mp hj
      have hlt : Segment.Before (.key key) (.key m.1) := ha.head_lt m.1 (Members.mem_keys_of_mem hm)
      rw [hi, bind_host]
      exact before_branches at_ hlt rel rel'

end

/-- A scan finds outer objects before inner ones and earlier members and items before later ones. -/
theorem scan_ordered (ho : doc.Ordered) {is : List Invocation} (h : e.scan doc = .ok is) :
    is.Pairwise fun i j => Before i.host j.host :=
  scanNode_ordered doc ho h

theorem scan_nodup (ho : doc.Ordered) {is : List Invocation} (h : e.scan doc = .ok is) :
    (is.map Invocation.host).Nodup := by
  refine List.pairwise_map.mpr ((scan_ordered ho h).imp fun {i j} hb he => ?_)
  rw [he] at hb
  exact Before.irrefl _ hb

end Order

end Engine

end DocExpand
