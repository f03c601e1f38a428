/-
  DocExpand.Yaml.Document — the one document that a list of tokens holds.

  Reading goes down the nesting of the tokens. Where a node may be left out an empty
  scalar stands for it. What is read so far is a `Source`: the tokens that are left, and
  the anchors seen.
-/

import DocExpand.Yaml.Lexer
import DocExpand.Yaml.Node

namespace DocExpand.Yaml

/-- Tokens left to read, and the slots of the anchor names so far. -/
structure Source where
  tokens : List Token
  anchors : List (String × Nat) := []
  /-- What the tag handles stand for. -/
  handles : List (String × Tag)

namespace Source

def head? (s : Source) : Option Token := s.tokens.head?

def skip (s : Source) : Source := { s with tokens := s.tokens.tail }

/-- The next token is one of `ts`, or there is none. -/
def atOneOf (s : Source) (ts : List Token) : Bool := s.head?.all ts.contains

/-- A slot for an anchor name: the number of different names before. -/
def bindAnchor (s : Source) (name : String) : Nat × Source :=
  let slot := s.anchors.length
  (slot, { s with anchors := (name, slot) :: s.anchors.filter (·.1 != name) })

def slot? (s : Source) (name : String) : Option Nat := (s.anchors.find? (·.1 == name)).map (·.2)

/-- A tag in full; an unknown handle is a fault. -/
def fullTag? (s : Source) (tag : TagName) : Option Tag :=
  if tag.handle = "" then some tag.suffix
  else (s.handles.find? (·.1 == tag.handle)).map fun (_, lead) => lead ++ tag.suffix

/-- The anchor and the tag in front of a node, in either order. -/
def properties? (s : Source) : Option (Properties × Source) :=
  match s.tokens with
  | .anchor name :: .tag tag :: rest =>
    let (slot, s) := { s with tokens := rest }.bindAnchor name
    (s.fullTag? tag).map fun tag => (⟨some slot, some tag⟩, s)
  | .tag tag :: .anchor name :: rest =>
    let (slot, s) := { s with tokens := rest }.bindAnchor name
    (s.fullTag? tag).map fun tag => (⟨some slot, some tag⟩, s)
  | .anchor name :: rest =>
    let (slot, s) := { s with tokens := rest }.bindAnchor name
    some (⟨some slot, none⟩, s)
  | .tag tag :: rest => (s.fullTag? tag).map fun tag => (⟨none, some tag⟩, { s with tokens := rest })
  | _ => some ({}, s)

end Source

namespace Node

/-- Where a node stands: in a flow collection, or in a block, perhaps right inside a block
    mapping, whose sequences need no indentation. -/
inductive Context where
  | flow
  | block
  | member
  deriving DecidableEq

mutual

/-- The node at the next token. -/
def read (context : Context) : Nat → Source → Option (Node × Source)
  | 0, _ => none
  | fuel + 1, s =>
    match s.head? with
    | some (.alias name) => (s.slot? name).map fun slot => (.alias slot, s.skip)
    | _ => do
      let (p, s) ← s.properties?
      match s.head? with
      | some (.scalar text form) => some (.scalar p text form, s.skip)
      | some .sequenceOpen => (readFlowItems true fuel s.skip).map fun (items, s) => (.seq p items, s)
      | some .mappingOpen => (readFlowMembers true fuel s.skip).map fun (members, s) => (.map p members, s)
      | t =>
        if context = .member ∧ t = some .dash then
          (readDashes fuel s).map fun (items, s) => (.seq p items, s)
        else if context ≠ .flow ∧ t = some .blockSequence then
          (readBlockItems fuel s.skip).map fun (items, s) => (.seq p items, s)
        else if context ≠ .flow ∧ t = some .blockMapping then
          (readBlockMembers fuel s.skip).map fun (members, s) => (.map p members, s)
        else if p = {} then none
        else some (void p, s)

/-- The node at the next token, or an empty scalar in front of one of `ends`. -/
def readOr (context : Context) (ends : List Token) : Nat → Source → Option (Node × Source)
  | 0, _ => none
  | fuel + 1, s => if s.atOneOf ends then some (void {}, s) else read context fuel s

/-- The items of an indented sequence, to its end. -/
def readBlockItems : Nat → Source → Option (List Node × Source)
  | 0, _ => none
  | fuel + 1, s =>
    match s.head? with
    | some .dash => do
      let (item, s) ← readOr .block [.dash, .blockClose] fuel s.skip
      let (items, s) ← readBlockItems fuel s
      some (item :: items, s)
    | some .blockClose => some ([], s.skip)
    | _ => none

/-- The items of a sequence without indentation. -/
def readDashes : Nat → Source → Option (List Node × Source)
  | 0, _ => none
  | fuel + 1, s =>
    match s.head? with
    | some .dash => do
      let (item, s) ← readOr .block [.dash, .key, .value, .blockClose] fuel s.skip
      let (items, s) ← readDashes fuel s
      some (item :: items, s)
    | _ => some ([], s)

/-- The members of a block mapping, to its end. -/
def readBlockMembers : Nat → Source → Option (List (Node × Node) × Source)
  | 0, _ => none
  | fuel + 1, s =>
    match s.head? with
    | some .key => do
      let (key, s) ← readOr .member [.key, .value, .blockClose] fuel s.skip
      let (value, s) ← readValue .member [.key, .value, .blockClose] fuel s
      let (members, s) ← readBlockMembers fuel s
      some ((key, value) :: members, s)
    | some .blockClose => some ([], s.skip)
    | _ => none

/-- The value behind a colon; without a colon an empty scalar. -/
def readValue (context : Context) (ends : List Token) : Nat → Source → Option (Node × Source)
  | 0, _ => none
  | fuel + 1, s => if s.head? = some .value then readOr context ends fuel s.skip else some (void {}, s)

/-- The items of a flow sequence, to its end. A key makes an item a mapping of one member. -/
def readFlowItems (first : Bool) : Nat → Source → Option (List Node × Source)
  | 0, _ => none
  | fuel + 1, s =>
    if s.head? = some .sequenceClose then some ([], s.skip)
    else if !first && s.head? ≠ some .comma then none
    else
      let s := if first then s else s.skip
      match s.head? with
      | some .sequenceClose => some ([], s.skip)
      | some .key => do
        let (member, s) ← readPair fuel s.skip
        let (items, s) ← readFlowItems false fuel s
        some (.map {} [member] :: items, s)
      | _ => do
        let (item, s) ← read .flow fuel s
        let (items, s) ← readFlowItems false fuel s
        some (item :: items, s)

/-- The key and value of a mapping that is an item. After a key that is left out, one token
    is passed over. -/
def readPair : Nat → Source → Option ((Node × Node) × Source)
  | 0, _ => none
  | fuel + 1, s => do
    let ends := [Token.value, .comma, .sequenceClose]
    let (key, s) ← if s.atOneOf ends then some (void {}, s.skip) else read .flow fuel s
    let (value, s) ← readValue .flow [.comma, .sequenceClose] fuel s
    some ((key, value), s)

/-- The members of a flow mapping, to its end. -/
def readFlowMembers (first : Bool) : Nat → Source → Option (List (Node × Node) × Source)
  | 0, _ => none
  | fuel + 1, s =>
    if s.head? = some .mappingClose then some ([], s.skip)
    else if !first && s.head? ≠ some .comma then none
    else
      let s := if first then s else s.skip
      match s.head? with
      | some .mappingClose => some ([], s.skip)
      | some .key => do
        let (key, s) ← readOr .flow [.value, .comma, .mappingClose] fuel s.skip
        let (value, s) ← readValue .flow [.comma, .mappingClose] fuel s
        let (members, s) ← readFlowMembers false fuel s
        some ((key, value) :: members, s)
      | _ => do
        let (key, s) ← read .flow fuel s
        let (members, s) ← readFlowMembers false fuel s
        some ((key, void {}) :: members, s)

end

end Node

namespace Document

def defaultHandles : List (String × Tag) := [("!", "!"), ("!!", "tag:yaml.org,2002:")].map fun (handle, lead) =>
  (handle, Property.ascii lead.toList)

/-- The directives in front of a document's start: one version at most, 1.1 or 1.2, and each
    handle once. Handles that are not defined keep their default. -/
def directives? (version : Bool) (handles : List (String × Tag)) :
    List Token → Option (List (String × Tag) × List Token)
  | .version major minor :: rest =>
    if version || major ≠ 1 || (minor ≠ 1 && minor ≠ 2) then none else directives? true handles rest
  | .tagHandle handle lead :: rest =>
    if (handles.map (·.1)).contains handle then none else directives? version ((handle, lead) :: handles) rest
  | rest => some (handles, rest)

/-- Nothing but ends of documents. -/
def onlyEnds (ts : List Token) : Bool := ts.all (· == .documentEnd)

/-- The root of the document; no root when there are no tokens. -/
def ofTokens? (ts : List Token) : Option (Option Node) :=
  if ts = [] then some none
  else do
    let (handles, rest) ← directives? false [] ts
    let explicit := rest.head? == some .documentStart
    if !explicit && rest.length < ts.length then none
    else
      let s : Source := { tokens := if explicit then rest.tail else rest, handles := handles ++ defaultHandles }
      let ended := match s.head? with
        | none | some (.version ..) | some (.tagHandle ..) | some .documentStart | some .documentEnd => explicit
        | _ => false
      let (root, s) ← if ended then some (Node.void {}, s) else Node.read .block (4 * ts.length + 4) s
      if onlyEnds s.tokens then some (some root) else none

end Document

end DocExpand.Yaml
