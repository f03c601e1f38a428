/-
  DocExpand.Proofs.Engine.Deeds — what a verb decides, and how that is carried out.

  Before it edits anything, a verb reads its input and, if it is a choice, an arm of its
  object. From these it decides on one deed: to refuse, to write a node in the place of its
  object, to leave that place empty, or to combine the object with an import (`deed`). What
  the verb does to a document is the deed carried out (`runOn_act`). So what holds of every
  verb is proved of the four deeds, and only this module looks into the verbs.
-/

import DocExpand.Proofs.Engine.Edits

namespace DocExpand.Engine

open Edit

/-- The arm of the host for a condition. -/
def arm? (i : Invocation) (d : Json) (condition : Bool) : Option Json :=
  Locator.resolve (i.host ++ [.key (armKey condition)]) d

/-- What a verb can decide to do. -/
inductive Deed where
  | refuse (cause : Error)
  | write (node : Json)
  /-- A choice has no arm of this name. -/
  | leave (arm : String)
  | load (payload : ByteArray)

namespace Deed

/-- The deed on an input, if it is there. -/
def upon (i : Invocation) (input : Option Json) (decide : Json → Deed) : Deed :=
  match input with
  | none => refuse (.branchNotFound i.input)
  | some node => decide node

/-- The input is not of the kind that the verb takes. -/
def mistyped (i : Invocation) (expected : Kind) (input : Json) : Deed :=
  refuse (.type i.input.display expected.name input.kind.name)

/-- The edit that carries a deed out. -/
def edit (e : Engine) (i : Invocation) : Deed → Edit Unit
  | refuse cause => throw cause
  | write node => put i.host (.tree node)
  | leave arm =>
    match i.host.getLast? with
    | some (.key _) => delete i.host
    | some (.index _) => put i.host (.tree .null)
    | none => throw (.integrity (.missingRootArm arm))
  | load payload => atomically (e.load i.branch i.directive.produces payload)

end Deed

open Deed (upon mistyped)

/-- What the verb decides, by its payload, its input and the arms of its object. -/
def deed (e : Engine) (i : Invocation) (arm : Bool → Option Json) (input : Option Json) : Deed :=
  match i.directive.verb with
  | .choose => upon i input fun
    | .bool condition =>
      match arm condition with
      | some chosen => .write chosen
      | none => .leave (armKey condition)
    | other => mistyped i .boolean other
  | .lookup => upon i input fun
    | .str name =>
      match e.parameter? name with
      | none => .refuse (.undefinedParameter name)
      | some found =>
        if found.kind = i.directive.produces then .write found
        else .refuse (.type i.host.display i.directive.produces.name found.kind.name)
    | other => mistyped i .string other
  | .load =>
    match i.payload with
    | none => .refuse (.importNotFound i.host)
    | some payload => .load payload
  | .join => upon i input fun
    | .arr items => .write (.str (String.join (items.map Json.plainText)))
    | other => mistyped i .array other
  | .asJson => upon i input fun node => .write (.str node.render)
  | .asYaml => upon i input fun node =>
    match Json.decode node.encode with
    | some content => .write (.str (Yaml.render content))
    | none => .refuse (.encode node.encode)
  | .asBase64 => upon i input fun node => .write (.str (Base64.encodeBytes (sourceBytes node)))

variable {e : Engine} {i : Invocation} {d : Json} {arm : Bool → Option Json} {input : Option Json}

/-! ## The verbs carry out their deeds -/

theorem runOn_upon {decide : Json → Deed} (x : Edit Unit)
    (hnone : Locator.resolve i.input d = none → x.runOn d = (.error (.branchNotFound i.input), d))
    (hsome : ∀ node, Locator.resolve i.input d = some node → x.runOn d = ((decide node).edit e i).runOn d) :
    x.runOn d = ((upon i (Locator.resolve i.input d) decide).edit e i).runOn d := by
  cases hr : Locator.resolve i.input d with
  | none => exact hnone hr
  | some node => exact hsome node hr

theorem runOn_choose (hv : i.directive.verb = .choose) :
    (choose i).runOn d = ((e.deed i (arm? i d) (Locator.resolve i.input d)).edit e i).runOn d := by
  simp only [deed, hv]
  refine runOn_upon _ (fun hr => ?_) fun node hr => ?_
  · rw [choose, runOn_whenKind, hr]
  · rw [choose, runOn_whenKind, hr]
    cases node with
    | bool condition =>
      have hc : ((Json.bool condition) == Json.bool true) = condition := by cases condition <;> rfl
      simp only [Json.kind, if_true, runOn_bind, runOn_valueAt, hr, runOn_get, hc, arm?]
      cases Locator.resolve (i.host ++ [.key (armKey condition)]) d <;> rfl
    | null | num _ | str _ | arr _ | obj _ => rfl

theorem runOn_lookup (hv : i.directive.verb = .lookup) :
    (e.lookup i).runOn d = ((e.deed i arm (Locator.resolve i.input d)).edit e i).runOn d := by
  simp only [deed, hv]
  refine runOn_upon _ (fun hr => ?_) fun node hr => ?_
  · rw [lookup, runOn_whenKind, hr]
  · rw [lookup, runOn_whenKind, hr]
    cases node with
    | str name =>
      have hs : (Json.str name).kind = .string := rfl
      simp only [hs, if_true, runOn_bind, runOn_valueAt, hr, Json.text?, Option.getD_some]
      cases e.parameter? name with
      | none => rfl
      | some found =>
        by_cases hk : found.kind = i.directive.produces
        · simp only [hk, if_true, Deed.edit]
        · simp only [hk, if_false, Deed.edit]
    | null | bool _ | num _ | arr _ | obj _ => rfl

theorem runOn_join (hv : i.directive.verb = .join) :
    (join i).runOn d = ((e.deed i arm (Locator.resolve i.input d)).edit e i).runOn d := by
  simp only [deed, hv]
  refine runOn_upon _ (fun hr => ?_) fun node hr => ?_
  · rw [join, runOn_whenKind, hr]
  · rw [join, runOn_whenKind, hr]
    cases node with
    | arr items =>
      simp only [Json.kind, if_true, runOn_bind, runOn_valueAt, hr, Value.items, runOn_lift]
      rfl
    | null | bool _ | num _ | str _ | obj _ => rfl

theorem runOn_asYaml (hv : i.directive.verb = .asYaml) :
    (asYaml i).runOn d = ((e.deed i arm (Locator.resolve i.input d)).edit e i).runOn d := by
  simp only [deed, hv]
  refine runOn_upon _ (fun hr => ?_) fun node hr => ?_
  · simp only [asYaml, runOn_bind, runOn_valueAt, hr]
  · simp only [asYaml, runOn_bind, runOn_valueAt, hr]
    cases Json.decode node.encode <;> rfl

/-- Whatever a verb does is what it has decided. -/
theorem runOn_act (e : Engine) (i : Invocation) (d : Json) :
    (e.act i).runOn d = ((e.deed i (arm? i d) (Locator.resolve i.input d)).edit e i).runOn d := by
  unfold act
  cases hv : i.directive.verb with
  | choose => exact runOn_choose hv
  | lookup => exact runOn_lookup hv
  | load =>
    simp only [deed, hv, loadPayload]
    cases i.payload <;> rfl
  | join => exact runOn_join hv
  | asJson =>
    simp only [deed, hv, asJson, runOn_bind, runOn_valueAt]
    cases Locator.resolve i.input d <;> rfl
  | asYaml => exact runOn_asYaml hv
  | asBase64 =>
    simp only [deed, hv, asBase64, runOn_bind, runOn_valueAt]
    cases Locator.resolve i.input d <;> rfl

/-! ## Which deeds there are -/

theorem arm?_eq {ms : Members Json} (hr : Locator.resolve i.host d = some (.obj ms)) :
    arm? i d = fun condition => Members.get? (armKey condition) ms := by
  funext condition
  rw [arm?, Locator.resolve_snoc, hr]
  rfl

theorem deed_choose {condition : Bool} (hv : i.directive.verb = .choose) :
    e.deed i arm (some (.bool condition)) =
      match arm condition with
      | some chosen => .write chosen
      | none => .leave (armKey condition) := by
  simp only [deed, hv, upon]

theorem deed_mistyped {other : Json} (hv : i.directive.verb = .choose) (hk : other.kind ≠ .boolean) :
    e.deed i arm (some other) = mistyped i .boolean other := by
  simp only [deed, hv, upon]
  cases other with
  | bool condition => exact absurd rfl hk
  | null | num _ | str _ | arr _ | obj _ => rfl

/-- Every verb but an import needs its input. -/
theorem deed_none (hv : i.directive.verb ≠ .load) : e.deed i arm none = .refuse (.branchNotFound i.input) := by
  unfold deed
  cases hverb : i.directive.verb with
  | load => exact absurd hverb hv
  | choose | lookup | join | asJson | asYaml | asBase64 => rfl

/-- What is written is an arm, a parameter or a text. -/
inductive Writes (e : Engine) (i : Invocation) (arm : Bool → Option Json) : Json → Prop
  | arm {condition : Bool} {chosen : Json} : i.directive.verb = .choose → arm condition = some chosen →
    Writes e i arm chosen
  | parameter {name : String} {found : Json} : e.parameter? name = some found → Writes e i arm found
  | text (text : String) : Writes e i arm (.str text)

/-- Why nothing is edited: the input or the import is not there, something is of the wrong kind, there is no such
    parameter, or a text does not read back. -/
inductive Refuses (i : Invocation) (input : Option Json) : Error → Prop
  | input : input = none → i.directive.verb ≠ .load → Refuses i input (.branchNotFound i.input)
  | type (place expected found : String) : Refuses i input (.type place expected found)
  | parameter (name : String) : Refuses i input (.undefinedParameter name)
  | missing : Refuses i input (.importNotFound i.host)
  | encode {node : Json} : input = some node → Json.decode node.encode = none → Refuses i input (.encode node.encode)

/-- What each deed tells of the invocation that it was decided for. -/
def Deed.Told (e : Engine) (i : Invocation) (arm : Bool → Option Json) (input : Option Json) : Deed → Prop
  | .refuse cause => Refuses i input cause
  | .write node => Writes e i arm node
  | .leave k => ∃ condition, i.directive.verb = .choose ∧ k = armKey condition ∧ arm condition = none
  | .load payload => i.directive.verb = .load ∧ i.payload = some payload

theorem told_upon {decide : Json → Deed} (hv : i.directive.verb ≠ .load)
    (h : ∀ node, input = some node → (decide node).Told e i arm input) : (upon i input decide).Told e i arm input := by
  cases input with
  | none => exact .input rfl hv
  | some node => exact h node rfl

theorem deed_told (e : Engine) (i : Invocation) (arm : Bool → Option Json) (input : Option Json) :
    (e.deed i arm input).Told e i arm input := by
  unfold deed
  cases hv : i.directive.verb with
  | choose =>
    refine told_upon (by rw [hv]; decide) fun node _ => ?_
    cases node with
    | bool condition =>
      cases harm : arm condition with
      | some chosen =>
        simp only [harm]
        exact .arm hv harm
      | none =>
        simp only [harm]
        exact ⟨condition, hv, rfl, harm⟩
    | null | num _ | str _ | arr _ | obj _ => exact .type ..
  | lookup =>
    refine told_upon (by rw [hv]; decide) fun node _ => ?_
    cases node with
    | str name =>
      cases hf : e.parameter? name with
      | none =>
        simp only [hf]
        exact .parameter name
      | some found =>
        simp only [hf]
        split
        · exact .parameter hf
        · exact .type ..
    | null | bool _ | num _ | arr _ | obj _ => exact .type ..
  | load =>
    cases hp : i.payload with
    | none => exact .missing
    | some payload => exact ⟨hv, hp⟩
  | join =>
    refine told_upon (by rw [hv]; decide) fun node _ => ?_
    cases node with
    | arr items => exact .text _
    | null | bool _ | num _ | str _ | obj _ => exact .type ..
  | asJson => exact told_upon (by rw [hv]; decide) fun node _ => .text _
  | asYaml =>
    refine told_upon (by rw [hv]; decide) fun node hr => ?_
    cases hd : Json.decode node.encode with
    | none => exact .encode hr hd
    | some content => exact .text _
  | asBase64 => exact told_upon (by rw [hv]; decide) fun node _ => .text _

end DocExpand.Engine
