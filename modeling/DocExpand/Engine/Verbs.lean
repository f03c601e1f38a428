/-
  DocExpand.Engine.Verbs — what each directive does to the object that invokes it.

  A look-up puts the parameter it names in place of the host; a choice puts the arm that
  its condition selects there, and without such an arm removes the host, or makes it
  null where it is an item; an import is combined with the host; the string verbs put a
  string made of their input there.
-/

import DocExpand.Base64
import DocExpand.Engine.Load
import DocExpand.Yaml.Writer

namespace DocExpand.Engine

def lookup (e : Engine) (i : Invocation) : Edit Unit :=
  Edit.whenKind i.input .string do
    let value ← Edit.valueAt i.input
    let name := value.content.text?.getD ""
    match e.parameter? name with
    | none => throw (.undefinedParameter name)
    | some found =>
      if found.kind = i.directive.produces then Edit.put i.host (.tree found)
      else throw (.type i.host.display i.directive.produces.name found.kind.name)

/-- The key of the arm for a condition. -/
def armKey (condition : Bool) : String := if condition then "then" else "else"

def choose (i : Invocation) : Edit Unit :=
  Edit.whenKind i.input .boolean do
    let value ← Edit.valueAt i.input
    let arm := armKey (value.content == .bool true)
    match Locator.resolve (i.host ++ [.key arm]) (← get) with
    | some chosen => Edit.put i.host (.tree chosen)
    | none =>
      match i.host.getLast? with
      | some (.key _) => Edit.delete i.host
      | some (.index _) => Edit.put i.host (.tree .null)
      | none => throw (.integrity (.missingRootArm arm))

def join (i : Invocation) : Edit Unit :=
  Edit.whenKind i.input .array do
    let value ← Edit.valueAt i.input
    let items ← value.items
    Edit.put i.host (.text (String.join (items.map Json.plainText)))

def asJson (i : Invocation) : Edit Unit := do
  let value ← Edit.valueAt i.input
  Edit.put i.host (.text value.content.render)

/-- The input goes through its JSON text first. -/
def asYaml (i : Invocation) : Edit Unit := do
  let value ← Edit.valueAt i.input
  match Json.decode value.content.encode with
  | some content => Edit.put i.host (.text (Yaml.render content))
  | none => throw (.encode value.content.encode)

/-- The bytes that base64 text is made of: a string's own, or those of the JSON text. -/
def sourceBytes : Json → ByteArray
  | .str s => s.toUTF8
  | j => j.encode

def asBase64 (i : Invocation) : Edit Unit := do
  let value ← Edit.valueAt i.input
  Edit.put i.host (.text (Base64.encodeBytes (sourceBytes value.content)))

def loadPayload (e : Engine) (i : Invocation) : Edit Unit :=
  match i.payload with
  | none => throw (.importNotFound i.host)
  | some payload => Edit.atomically (e.load i.branch i.directive.produces payload)

/-- What the directive's verb does. -/
def act (e : Engine) (i : Invocation) : Edit Unit :=
  match i.directive.verb with
  | .choose => choose i
  | .lookup => e.lookup i
  | .load => e.loadPayload i
  | .join => join i
  | .asJson => asJson i
  | .asYaml => asYaml i
  | .asBase64 => asBase64 i

end DocExpand.Engine
