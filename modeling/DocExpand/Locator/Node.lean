/-
  DocExpand.Locator.Node — the node at a place, and documents with that node changed.

  A step into an object takes the member under the step's text; a step into an array
  takes the item at the step's position. `modify?` changes one node through its
  ancestors; writing and removing a child are changes of its parent.
-/

import DocExpand.Locator.Basic
import DocExpand.Json.Basic

namespace DocExpand

namespace Json

def child? : Json → Segment → Option Json
  | obj members, s => Members.get? s.text members
  | arr items, s => s.index?.bind (items[·]?)
  | _, _ => none

/-- The node with a value for the child at `s`: a new member where the object has none, but
    only a position that the array has. -/
def setChild? : Json → Segment → Json → Option Json
  | obj members, s, value => some (.obj (Members.insert s.text value members))
  | arr items, s, value => s.index?.bind fun i => if i < items.length then some (.arr (items.set i value)) else none
  | _, _, _ => none

/-- The node without its child at `s`; later items move down by one. -/
def eraseChild? : Json → Segment → Option Json
  | obj members, s => if Members.contains s.text members then some (.obj (Members.erase s.text members)) else none
  | arr items, s => s.index?.bind fun i => if i < items.length then some (.arr (items.eraseIdx i)) else none
  | _, _ => none

end Json

namespace Locator

def resolve : Locator → Json → Option Json
  | [], doc => some doc
  | s :: rest, doc => (doc.child? s).bind (resolve rest)

/-- The document with `f` applied to the node at a place; nothing where there is no node. -/
def modify? (f : Json → Option Json) : Locator → Json → Option Json
  | [], doc => f doc
  | s :: rest, doc => do
    let child ← doc.child? s
    let child ← modify? f rest child
    doc.setChild? s child

/-- The document with the node at a place replaced. The node must be there. -/
def replace? (at_ : Locator) (value : Json) (doc : Json) : Option Json := modify? (fun _ => some value) at_ doc

/-- The document with a value at a place. A last step into an object need not be there yet. -/
def write? (at_ : Locator) (value : Json) (doc : Json) : Option Json :=
  match at_.getLast? with
  | none => some value
  | some last => modify? (·.setChild? last value) at_.dropLast doc

/-- The document without the node at a place; the root cannot go. -/
def remove? (at_ : Locator) (doc : Json) : Option Json :=
  match at_.getLast? with
  | none => none
  | some last => modify? (·.eraseChild? last) at_.dropLast doc

end Locator

end DocExpand
