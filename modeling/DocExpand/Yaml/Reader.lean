/-
  DocExpand.Yaml.Reader — the value of a node.

  At most 128 collections nest, counted through aliases, and following aliases more than
  a hundred times for each part of the document is refused. A tag that opens with an
  exclamation mark stays with its value, if it is text; the tags of the core types demand
  that type; any other tag makes a scalar a string. A mapping that has two equal keys is
  refused.
-/

import DocExpand.Yaml.Document

namespace DocExpand.Yaml

/-- What every alias of a document refers to, and how often aliases may be followed. -/
structure Aliases where
  slots : List (Nat × Node)
  limit : Nat

/-- A reading that may fail, and counts the aliases that it followed. -/
abbrev Reading := StateT Nat Option

namespace Aliases

def ofRoot (root : Node) : Aliases := ⟨root.slots.reverse, root.size * 100⟩

/-- The node itself, or what it refers to. -/
def follow (a : Aliases) (node : Node) : Reading Node :=
  match node with
  | .alias slot => do
    let count := (← get) + 1
    set count
    if a.limit < count then failure
    match a.slots.find? (·.1 == slot) with
    | some (_, target) => pure target
    | none => failure
  | node => pure node

end Aliases

namespace Scalar

def coreTag (name : String) : Tag := Property.ascii ("tag:yaml.org,2002:" ++ name).toList

def ofInt? (i : Int) : Option Yaml := (Number.ofInt? i).map fun n => .num (.ofNumber n)

/-- The value of an unquoted scalar; an integer of more than 64 bits is refused. -/
def plainValue? (text : String) : Option Yaml :=
  match meaning text.toList with
  | .null => some .null
  | .bool b => some (.bool b)
  | .int i => ofInt? i
  | .float x => some (.num (.float x))
  | .text => some (.str text)

/-- A tag of the document's own opens with an exclamation mark. -/
def isOwnTag (tag : Tag) : Bool := tag.head? == some '!'.toUInt8

/-- The value of a scalar under a tag. The core tags demand a type however it is written; a tag
    of the document's own changes nothing. -/
def taggedValue? (tag : Tag) (text : String) (form : Form) : Option Yaml :=
  let cs := text.toList
  if tag = coreTag "bool" then (bool? cs).map .bool
  else if tag = coreTag "int" then (int? cs).bind ofInt?
  else if tag = coreTag "float" then (float? cs).map fun x => .num (.float x)
  else if tag = coreTag "null" then if cs ≠ [] ∧ isNull cs then some .null else none
  else if isOwnTag tag ∧ form = .plain then plainValue? text
  else some (.str text)

def value? (tag : Option Tag) (text : String) (form : Form) : Option Yaml :=
  match tag with
  | some tag => taggedValue? tag text form
  | none => if form = .plain then plainValue? text else some (.str text)

end Scalar

namespace Node

/-- The name of a tag of the document's own: the text behind the exclamation mark, or the mark
    itself when it stands alone. -/
def ownTag? (tag : Option Tag) : Option String :=
  tag.bind fun tag =>
    if Scalar.isOwnTag tag then
      String.fromUTF8? ⟨(if tag.length = 1 then tag else tag.drop 1).toArray⟩
    else none

/-- A value under the tag of its node. -/
def underTag (tag : Option Tag) (value : Yaml) : Yaml :=
  match ownTag? tag with
  | none => value
  | some name => .tagged name value

/-- The members, unless a key comes twice. -/
def distinct? (members : List (Yaml × Yaml)) : Reading Yaml :=
  if members.Pairwise fun a b => a.1.same b.1 = false then pure (.map members) else failure

def scalarValue (p : Properties) (text : String) (form : Form) : Reading Yaml := do
  match Scalar.value? p.tag text form with
  | some value => pure (underTag p.tag value)
  | none => failure

/-- The value of a node inside which `depth` more collections may nest. -/
def value (a : Aliases) : Nat → Node → Reading Yaml
  | depth, node => do
    match ← a.follow node, depth with
    | .scalar p text form, _ => scalarValue p text form
    | .seq p items, depth + 1 => do
      let items ← items.mapM (value a depth)
      return underTag p.tag (.seq items)
    | .map p members, depth + 1 => do
      let members ← members.mapM fun (k, v) => return (← value a depth k, ← value a depth v)
      return underTag p.tag (← distinct? members)
    | _, _ => failure
termination_by structural depth => depth

end Node

/-- How many collections may nest. -/
def nestingLimit : Nat := 128

end DocExpand.Yaml
