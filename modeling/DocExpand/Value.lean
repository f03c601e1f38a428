/-
  DocExpand.Value — a node's content together with the place it was read from.
-/

import DocExpand.Error
import DocExpand.Json.Reader
import DocExpand.Json.Writer

namespace DocExpand

structure Value where
  content : Json
  /-- The display of the node's place, empty for content that was not read from one. -/
  origin : String := ""
  deriving DecidableEq

namespace Value

def ofBytes (bytes : ByteArray) : Except Error Value :=
  match Json.decode bytes with
  | some content => .ok ⟨content, ""⟩
  | none => .error (.decode bytes)

/-- The kind of encoded content. -/
def kindOfBytes (bytes : ByteArray) : Except Error Kind := (ofBytes bytes).map (·.content.kind)

def kind (v : Value) : Kind := v.content.kind

def expect (v : Value) (expected : Kind) : Except Error Unit :=
  if v.kind = expected then .ok () else .error (.type v.origin expected.name v.kind.name)

/-- The items of an array; any other kind is refused. -/
def items (v : Value) : Except Error (List Json) :=
  match v.content with
  | .arr items => .ok items
  | _ => .error (.type v.origin Kind.array.name v.kind.name)

end Value

end DocExpand
