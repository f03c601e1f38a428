/-
  DocExpand.Engine.Load — an imported document combined with the object that asks for it.

  An invocation in the root object changes the whole document, any other its host. An
  imported object is merged into the object without its invocation; an imported array
  takes the object's place, if nothing else is left in it and it is not the root. The
  invocation is removed before the combined value is written, so a caller runs this
  inside `atomically`.
-/

import DocExpand.Engine.Edit
import DocExpand.Engine.Invocation

namespace DocExpand.Engine

/-- The members of the object at `target`. -/
def targetMembers (target : Locator) (doc : Json) : Except Error (Members Json) :=
  match Locator.resolve target doc with
  | none => .error (.merge .missingTarget)
  | some (.obj members) => .ok members
  | some other => .error (.merge (.targetNotObject target other.kind))

/-- What an import makes of the members beside its invocation. -/
def combine (e : Engine) (produces : Kind) (members : Members Json) (imported : Json) : Except Error Json :=
  match produces, imported with
  | .object, .obj incoming => .ok (.obj (Json.mergeMembers e.config.mergePolicy members incoming))
  | .object, other => .error (.merge (.importNotObject other.kind))
  | .array, imported =>
    if members ≠ [] then .error (.merge (.unexpectedKeys (Members.keys members)))
    else if imported.kind ≠ .array then .error (.merge (.importNotArray imported.kind))
    else .ok imported
  | other, _ => .error (.merge (.cannotProduce other))

/-- Members without the key that a locator ends in. -/
def withoutLast (branch : Locator) (members : Members Json) : Members Json :=
  match branch.getLast? with
  | some (.key key) => Members.erase key members
  | _ => members

def load (e : Engine) (branch : Locator) (produces : Kind) (payload : ByteArray) : Edit Unit := do
  let atRoot := branch.depth = 1
  let target := if atRoot then Locator.root else branch.dropLast
  if produces = .array ∧ atRoot then throw (.merge .arrayAtRoot)
  let members ← targetMembers target (← get)
  let some imported := Json.decode payload | throw (.importDecode payload)
  let combined ← e.combine produces (withoutLast branch members) imported
  Edit.delete branch
  if atRoot then Edit.replaceDocument combined else Edit.put target (.tree combined)

end DocExpand.Engine
