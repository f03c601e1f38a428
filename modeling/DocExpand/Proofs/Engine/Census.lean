/-
  DocExpand.Proofs.Engine.Census — a scan finds exactly the invocations.

  What an object does is read off its keys. One key of the shape of a directive that is the
  identifier of a directive of the catalogue invokes that directive (`Invokes`); two keys of
  the shape, or one that is no identifier, are a fault (`Faulty`). An object is reached from
  the root as long as no arm of a reached choice is entered (`Reached`).

  A scan fails exactly when it reaches an object at fault. Else it binds one invocation in
  each reached object that calls a directive, outer objects first, with its argument where
  it is written or beside the object (`scan_census`).
-/

import DocExpand.Proofs.Engine.Scanned

namespace DocExpand.Engine

variable {e : Engine} {doc node argument : Json} {found : List Invocation} {members : Members Json} {d : Directive}
  {key : String} {p host s : Locator} {i : Invocation}

/-! ## What an object invokes -/

/-- The one key of the shape is the identifier of a directive of the catalogue. -/
structure Invokes (e : Engine) (members : Members Json) (d : Directive) (key : String) (argument : Json) : Prop where
  single : e.calls members = [(key, argument)]
  known : d ∈ Directive.registry
  named : d.identifier e.config.domain = key

/-- A key of the shape is no identifier, or there are two keys of the shape. -/
def Faulty (e : Engine) (members : Members Json) : Prop :=
  (∃ m ∈ e.calls members, ∀ d ∈ Directive.registry, d.identifier e.config.domain ≠ m.1) ∨ 2 ≤ (e.calls members).length

def Chooses (e : Engine) (members : Members Json) : Prop :=
  ∃ d key argument, e.Invokes members d key argument ∧ d.verb = .choose

theorem invokes_iff : e.Invokes members d key argument ↔ e.invocation? members = some (some (d, key, argument)) := by
  rw [invocation?_eq_some_some, Directive.parse?_eq_some_iff]
  exact ⟨fun h => ⟨h.single, h.known, h.named⟩, fun ⟨hs, hk, hn⟩ => ⟨hs, hk, hn⟩⟩

theorem faulty_iff : e.Faulty members ↔ e.invocation? members = none := by
  simp only [Faulty, ← Directive.parse?_eq_none_iff]
  rw [invocation?, invoked_eq]
  rcases e.calls members with _ | ⟨⟨first, argument⟩, _ | ⟨⟨second, other⟩, rest⟩⟩
  · simp [invokedBy, Except.toOption]
  · cases hp : Directive.parse? first e.config.domain <;> simp [invokedBy, hp, Except.toOption]
  · cases hp : Directive.parse? first e.config.domain <;> cases hq : Directive.parse? second e.config.domain <;>
      simp [invokedBy, hp, hq, Except.toOption]

theorem chooses_iff : e.Chooses members ↔ e.skips members = true := by
  simp only [Chooses, invokes_iff, skips, Option.any_eq_true, Option.join_eq_some_iff, Prod.exists, beq_iff_eq]

/-! ## Reached objects -/

/-- From the root, without entering an arm of a choice. -/
inductive Reached (e : Engine) (doc : Json) : Locator → Json → Prop
  | root : Reached e doc [] doc
  | item {p : Locator} {items : List Json} {n : Nat} {item : Json} :
    Reached e doc p (.arr items) → items[n]? = some item → Reached e doc (p ++ [.index n]) item
  | member {p : Locator} {members : Members Json} {key : String} {value : Json} :
    Reached e doc p (.obj members) → (key, value) ∈ members →
      (e.Chooses members → key ≠ "then" ∧ key ≠ "else") → Reached e doc (p ++ [.key key]) value

theorem entered_iff : (e.Chooses members → key ≠ "then" ∧ key ≠ "else") ↔ (e.skips members && isArm key) = false := by
  rw [chooses_iff, isArm]
  cases e.skips members <;> simp

theorem Reached.beneath {rel : Locator} {target : Json} (h : e.Visited node rel target) :
    ∀ {p : Locator}, e.Reached doc p node → e.Reached doc (p ++ rel) target := by
  induction h with
  | here node =>
    intro p hr
    rwa [List.append_nil]
  | item hi _ ih =>
    intro p hr
    rw [List.append_cons]
    exact ih (hr.item hi)
  | member hm ha _ ih =>
    intro p hr
    rw [List.append_cons]
    exact ih (hr.member hm (entered_iff.mpr ha))

/-- What is reached is what a scan visits. -/
theorem reached_iff : e.Reached doc p node ↔ e.Visited doc p node := by
  constructor
  · intro h
    induction h with
    | root => exact .here doc
    | item _ hi ih => exact ih.trans (.item hi (.here _))
    | member _ hm ha ih => exact ih.trans (.member hm (entered_iff.mp ha) (.here _))
  · exact fun h => Reached.beneath h .root

/-! ## Where the argument stands -/

/-- The argument is `true`, and the object has a neighbour under its own key with the suffix. -/
inductive Beside (e : Engine) (doc : Json) : Locator → Json → Locator → Prop
  | intro {q : Locator} {k : String} {neighbours : Members Json} :
    Locator.walk q doc = some (.obj neighbours) → k ++ e.config.argsSuffix ∈ Members.keys neighbours →
      Beside e doc (q ++ [.key k]) (.bool true) (q ++ [.key (k ++ e.config.argsSuffix)])

theorem stands_of_mem {q : Locator} {k : String} {neighbours : Members Json}
    (hw : Locator.walk q doc = some (.obj neighbours)) :
    (Locator.resolve (q ++ [.key k]) doc).isSome ↔ k ∈ Members.keys neighbours := by
  have hget : Locator.walk (q ++ [.key k]) doc = Members.get? k neighbours := by
    rw [Locator.walk_snoc, hw]
    rfl
  rw [Locator.resolve_member hw, hget, ← Members.contains_iff, Members.contains]

theorem beside_iff (hw : Locator.walk host doc = some (.obj members)) :
    e.Beside doc host argument s ↔ (e.bind doc host d key argument).argumentSibling? = some s := by
  rw [bind_argumentSibling?]
  constructor
  · rintro ⟨hq, hk⟩
    rw [if_pos rfl]
    exact argumentSibling?_eq_some.mpr ⟨_, _, rfl, rfl, (stands_of_mem hq).mpr hk⟩
  · intro h
    split at h
    · rename_i ht
      obtain ⟨q, k, rfl, rfl, hs⟩ := argumentSibling?_eq_some.mp h
      obtain ⟨neighbours, hq⟩ := Locator.walk_parent hw
      rw [ht]
      exact .intro hq ((stands_of_mem hq).mp hs)
    · cases h

/-! ## The census -/

/-- `i` is the invocation of a reached object by this member. -/
structure Binds (e : Engine) (doc : Json) (i : Invocation) (members : Members Json) (key : String) (argument : Json) :
    Prop where
  reached : e.Reached doc i.host (.obj members)
  invokes : e.Invokes members i.directive key argument
  unique : ∀ d ∈ Directive.registry, d.identifier e.config.domain = key → d = i.directive
  branch : i.branch = i.host ++ [.key key]
  written : Locator.resolve i.branch doc = some argument
  input : ∀ s, i.input = s ↔
    e.Beside doc i.host argument s ∨ s = i.branch ∧ ∀ t, ¬ e.Beside doc i.host argument t
  stands : (Locator.resolve i.input doc).isSome
  payload : i.payload = if i.directive.verb = .load then e.imports i.host argument else none

/-- The invocations are one for each reached object that calls a directive, outer objects first. -/
structure Census (e : Engine) (doc : Json) (found : List Invocation) : Prop where
  hosts : ∀ p, p ∈ found.map Invocation.host ↔ ∃ members, e.Reached doc p (.obj members) ∧ e.calls members ≠ []
  once : (found.map Invocation.host).Nodup
  preorder : found.Pairwise fun i j => Before i.host j.host
  branches : (found.map Invocation.branch).Nodup
  binds : ∀ i ∈ found, ∃ members key argument, e.Binds doc i members key argument

theorem binds_bind (ho : doc.Ordered) (hv : e.Visited doc host (.obj members))
    (hi : e.invocation? members = some (some (d, key, argument))) :
    e.Binds doc (e.bind doc host d key argument) members key argument := by
  obtain ⟨hmem, hparse, -⟩ := invocation?_some hi
  obtain ⟨hw, -⟩ := hv.walk ho
  have hwritten := Locator.resolve_of_walk (hv.walk_member ho hmem)
  have hbeside : ∀ s, e.Beside doc host argument s ↔ (e.bind doc host d key argument).argumentSibling? = some s :=
    fun s => beside_iff hw
  have hinput : (e.bind doc host d key argument).input = _ := bind_input host d key argument
  refine ⟨?_, ?_, ?_, ?_, ?_, ?_, ?_, ?_⟩
  · rw [bind_host]
    exact reached_iff.mpr hv
  · exact invokes_iff.mpr hi
  · intro other hother hnamed
    rw [Directive.parse?_eq_some_iff.mpr ⟨hother, hnamed⟩] at hparse
    exact Option.some.inj hparse
  · rw [bind_branch, bind_host]
  · exact hwritten
  · -- the sibling is what `Beside` says it is, and without it the branch is left
    intro s
    rw [bind_host, bind_branch, hinput]
    simp only [hbeside]
    cases (e.bind doc host d key argument).argumentSibling? with
    | none => simp [eq_comm]
    | some t => simp
  · rw [hinput]
    cases hs : (e.bind doc host d key argument).argumentSibling? with
    | none => exact Option.isSome_of_eq_some hwritten
    | some t =>
      cases (hbeside t).mpr hs with
      | intro hq hk => exact (stands_of_mem hq).mpr hk
  · rw [bind_payload, bind_directive, bind_host]

theorem census_of_scan (ho : doc.Ordered) (h : e.scan doc = .ok found) : e.Census doc found := by
  have hbinds : ∀ i ∈ found, ∃ members key argument, e.Binds doc i members key argument := by
    intro i hi
    obtain ⟨host, target, d, key, argument, hv, ht, rfl⟩ := (mem_scan h i).mp hi
    obtain ⟨members, rfl, hinvoked⟩ := host?_eq_some.mp ht
    exact ⟨members, key, argument, binds_bind ho hv hinvoked⟩
  have honce := scan_nodup ho h
  refine ⟨fun p => ⟨fun hp => ?_, fun ⟨members, hr, hc⟩ => ?_⟩, honce, scan_ordered ho h, ?_, hbinds⟩
  · obtain ⟨i, hi, rfl⟩ := List.mem_map.mp hp
    obtain ⟨members, key, argument, hb⟩ := hbinds i hi
    exact ⟨members, hb.reached, by simp [hb.invokes.single]⟩
  · have hv := reached_iff.mp hr
    obtain ⟨result, hresult⟩ := hv.invocation h
    cases result with
    | none => exact absurd (invocation?_eq_some_none.mp hresult) hc
    | some x =>
      obtain ⟨d, key, argument⟩ := x
      have hmem := (mem_scan h _).mpr ⟨p, _, d, key, argument, hv, host?_obj.mpr hresult, rfl⟩
      exact List.mem_map.mpr ⟨_, hmem, bind_host ..⟩
  · -- a branch has its host in it
    refine List.Nodup.of_map List.dropLast ?_
    rwa [List.map_map]

/-- A scan fails exactly if an object that it reaches is at fault; else it finds one invocation for each reached object
    that calls a directive, and nothing more. -/
theorem scan_census (e : Engine) (ho : doc.Ordered) :
    ((∃ cause, e.scan doc = .error cause) ↔ ∃ p members, e.Reached doc p (.obj members) ∧ e.Faulty members) ∧
      ∀ found, e.scan doc = .ok found → e.Census doc found := by
  refine ⟨⟨fun ⟨cause, h⟩ => ?_, fun ⟨p, members, hr, hf⟩ => ?_⟩, fun found h => census_of_scan ho h⟩
  · obtain ⟨p, members, hv, hi⟩ := scan_error h
    refine ⟨p, members, reached_iff.mpr hv, faulty_iff.mpr ?_⟩
    rw [← invoked_toOption p, hi]
    rfl
  · cases h : e.scan doc with
    | error cause => exact ⟨cause, rfl⟩
    | ok found =>
      obtain ⟨result, hresult⟩ := (reached_iff.mp hr).invocation h
      rw [faulty_iff.mp hf] at hresult
      cases hresult

/-- A list to join beside the object that asks for it, with a choice in it whose arm is a choice. -/
def besides : Json := .obj [
  ("a", .obj [("kubegen.String.Join", .bool true)]),
  ("a_args", .arr [.obj [("kubegen.Null.If", .bool true), ("then", .obj [("kubegen.Null.If", .bool false)])]])]

/-- Two directives in one object. -/
def doubtful : Json := .arr [.obj [("kubegen.String.AsJSON", .null), ("kubegen.String.Join", .arr [])]]

theorem scan_census_besides :
    besides.Ordered ∧ doubtful.Ordered ∧
      (∃ join choice, plain.scan besides = .ok [join, choice] ∧ plain.Census besides [join, choice] ∧
        join.input = [.key "a_args"] ∧ choice.host = [.key "a_args", .index 0]) ∧
      ∃ p members, plain.Reached doubtful p (.obj members) ∧ plain.Faulty members := by
  have ho : besides.Ordered := by decide
  have ho' : doubtful.Ordered := by decide
  have hscan : ∃ join choice, plain.scan besides = .ok [join, choice] ∧
      join.input = [.key "a_args"] ∧ choice.host = [.key "a_args", .index 0] := ⟨_, _, rfl, rfl, rfl⟩
  obtain ⟨join, choice, hscan, hinput, hhost⟩ := hscan
  have hfault : ∃ cause, plain.scan doubtful = .error cause := ⟨_, rfl⟩
  exact ⟨ho, ho', ⟨join, choice, hscan, (scan_census plain ho).2 _ hscan, hinput, hhost⟩,
    (scan_census plain ho').1.mp hfault⟩

end DocExpand.Engine
