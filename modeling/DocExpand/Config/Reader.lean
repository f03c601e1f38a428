/-
  DocExpand.Config.Reader — a configuration from YAML text and from files.

  The document is a mapping of the five fields, each at most once; nothing at all is the
  empty mapping. Texts and names take the text of any scalar. A configuration that is
  read is valid.
-/

import DocExpand.Config
import DocExpand.Yaml.Reader

namespace DocExpand.Config

open Yaml
open scoped CorePower

/-- The text of a scalar, whatever its tag. -/
def text (a : Aliases) (node : Node) : Reading String := do
  match ← a.follow node with
  | .scalar _ text _ => pure text
  | _ => failure

/-- An unsigned number of 64 bits, unquoted or in a literal block under the tag of integers. -/
def count (a : Aliases) (node : Node) : Reading Nat := do
  match ← a.follow node with
  | .scalar p text form =>
    if form = .plain ∨ (form = .literal ∧ p.tag = some (Scalar.coreTag "int")) then
      match Scalar.int? text.toList with
      | some i => if 0 ≤ i ∧ i < 2 ^ (64 : Nat) ∧ text.toList.head? ≠ some '-' then pure i.toNat else failure
      | none => failure
    else failure
  | _ => failure

/-- A policy by its name, or by a tag on nothing or an unquoted null. -/
def policy (a : Aliases) (node : Node) : Reading MergePolicy := do
  match ← a.follow node with
  | .scalar p text form =>
    match Node.ownTag? p.tag with
    | some name => if form = .plain ∧ Scalar.isNull text.toList then ofName name else failure
    | none => ofName text
  | _ => failure
where
  ofName (name : String) : Reading MergePolicy :=
    match MergePolicy.ofName? name with
    | some policy => pure policy
    | none => failure

/-- The members of a mapping; an empty scalar has none. -/
def members (a : Aliases) (node : Node) : Reading (List (Node × Node)) := do
  match ← a.follow node with
  | .map _ members => pure members
  | .scalar _ "" .plain => pure []
  | _ => failure

/-- Parameters by name; the last of a name stays. -/
def parametersOf (a : Aliases) (node : Node) : Reading (Members Yaml) := do
  let members ← members a node
  members.foldlM (fun done (name, value) => do
    let name ← text a name
    return Members.insert name (← value.value a (nestingLimit - 2)) done) []

/-- The configuration with one more field set. -/
def withField (a : Aliases) (c : Config) (name : String) (value : Node) : Reading Config :=
  match name with
  | "domain" => return { c with domain := ← text a value }
  | "merge_policy" => return { c with mergePolicy := ← policy a value }
  | "max_passes" => return { c with maxPasses := ← count a value }
  | "args_suffix" => return { c with argsSuffix := ← text a value }
  | "parameters" => return { c with parameters := ← parametersOf a value }
  | _ => failure

/-- The fields in turn; `seen` are the names before. -/
def withFields (a : Aliases) (c : Config) (seen : List String) : List (Node × Node) → Reading Config
  | [] => pure c
  | (name, value) :: rest => do
    let name ← text a name
    if seen.contains name then failure
    let c ← withField a c name value
    withFields a c (name :: seen) rest

def ofRoot (root : Node) : Option Config :=
  let a := Aliases.ofRoot root
  let reading : Reading Config := do
    let fields ← members a root
    withFields a {} [] fields
  (reading.run 0).map (·.1)

/-- The configuration that a text spells, before it is validated. -/
def ofText? (yaml : String) : Option Config := do
  let tokens ← Token.ofText? yaml
  match ← Document.ofTokens? tokens with
  | some root => ofRoot root
  | none => some {}

def ofText (yaml : String) : Except Error Config :=
  match ofText? yaml with
  | some c => c.validate
  | none => .error (.configInvalid (.yaml yaml))

/-- What stands at a path. -/
inductive Entry where
  | nothing
  | directory
  | file (content : ByteArray)

/-- The configuration at a path. -/
def load (path : String) : Entry → Except Error Config
  | .nothing => .error (.configNotFound path)
  | .directory => .error (.io path none)
  | .file content =>
    match String.fromUTF8? content with
    | some yaml => ofText yaml
    | none => .error (.io path (some content))

end DocExpand.Config
