/-
  DocExpand.Engine.Edit — changes of a document that may be refused.

  An edit reads and writes the current document and ends with a result or an error. What
  was written before an error stays, unless `atomically` takes it back. Every `put` and
  `delete` is checked afterwards: the root must be an array or object and the document's
  text must read back; otherwise the change is taken back.
-/

import DocExpand.Locator.Node
import DocExpand.Value

namespace DocExpand

abbrev Edit := ExceptT Error (StateM Json)

/-- What can be written into a document. -/
inductive NewValue where
  | text (value : String)
  | encoded (bytes : ByteArray)
  | tree (value : Json)

namespace NewValue

def toJson : NewValue → Except Error Json
  | text s => .ok (.str s)
  | tree j => .ok j
  | encoded bytes =>
    match Json.decode bytes with
    | some j => .ok j
    | none => .error (.integrity (.encodedValue bytes))

end NewValue

namespace Edit

variable {α : Type}

/-- The outcome of an edit and the document after it. -/
def runOn (edit : Edit α) (doc : Json) : Except Error α × Json := (ExceptT.run edit).run doc

/-- The edit, with the document restored when it fails. -/
def atomically (edit : Edit α) : Edit α :=
  ExceptT.mk fun doc =>
    match edit.runOn doc with
    | (.ok a, doc') => (.ok a, doc')
    | (.error e, _) => (.error e, doc)

/-- Refuses a document whose root is a scalar or whose text does not read back. -/
def validate : Edit Unit := do
  let doc ← get
  if doc.kind.isContainer then
    if (Json.decode doc.encode).isSome then pure () else throw (.integrity (.undecodable doc.encode))
  else throw (.integrity (.scalarRoot doc.kind))

def write (at_ : Locator) (node : Json) : Edit Unit := do
  match Locator.write? at_ node (← get) with
  | some doc => set doc
  | none => throw (.branchNotFound at_)

def remove (at_ : Locator) : Edit Unit := do
  if at_.isEmpty then throw (.integrity .rootDeletion)
  match Locator.remove? at_ (← get) with
  | some doc => set doc
  | none => throw (.branchNotFound at_)

/-- Writes a value at a place, or nothing at all. -/
def put (at_ : Locator) (value : NewValue) : Edit Unit := do
  let node ← value.toJson
  atomically do
    write at_ node
    validate

/-- Removes the node at a place, or nothing at all. -/
def delete (at_ : Locator) : Edit Unit :=
  atomically do
    remove at_
    validate

def replaceDocument (doc : Json) : Edit Unit := put Locator.root (.tree doc)

/-- The value at a place. -/
def valueAt (at_ : Locator) : Edit Value := do
  match Locator.resolve at_ (← get) with
  | some node => pure ⟨node, at_.display⟩
  | none => throw (.branchNotFound at_)

/-- Runs `edit` if the node at a place is of a kind. -/
def whenKind (at_ : Locator) (expected : Kind) (edit : Edit Unit) : Edit Unit := do
  let value ← valueAt at_
  value.expect expected
  edit

end Edit

end DocExpand
