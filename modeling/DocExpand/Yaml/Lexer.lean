/-
  DocExpand.Yaml.Lexer — the tokens of YAML text.

  Outside flow collections the indentation opens and closes block collections. A place
  where a key may begin is remembered as a candidate, one for each level of flow
  collections; when a colon follows on the same line, within 1024 bytes, the key's
  token is put there afterwards. A candidate at the indentation of its block must turn
  out to be a key.
-/

import DocExpand.Yaml.Block
import DocExpand.Yaml.Flow
import DocExpand.Yaml.Property

namespace DocExpand.Yaml

namespace Lexer

/-- A place where a key may have begun. -/
structure Candidate where
  /-- How many tokens come before it. -/
  count : Nat
  required : Bool
  place : Position

end Lexer

structure Lexer where
  cursor : Cursor
  /-- The tokens so far, reversed. -/
  tokens : List Token
  /-- How many flow collections are open. -/
  flow : Nat
  /-- The indentation of the innermost block collection, -1 outside all. -/
  indent : Int
  /-- The indentations of the block collections around it. -/
  outer : List Int
  /-- The candidate of the innermost flow level first. -/
  candidates : List (Option Lexer.Candidate)
  /-- A key may begin at the next token. -/
  keyAllowed : Bool

namespace Lexer

def init (cursor : Cursor) : Lexer := ⟨cursor, [], 0, -1, [], [none], true⟩

def inFlow (l : Lexer) : Bool := l.flow != 0

def column (l : Lexer) : Int := l.cursor.at_.column

def emit (l : Lexer) (t : Token) : Lexer := { l with tokens := t :: l.tokens }

/-- `t` put behind the first `count` tokens. -/
def emitAt (l : Lexer) (count : Nat) (t : Token) : Lexer :=
  { l with tokens := l.tokens.insertIdx (l.tokens.length - count) t }

def moveTo (l : Lexer) (cursor : Cursor) : Lexer := { l with cursor }

def allowKey (l : Lexer) (keyAllowed : Bool) : Lexer := { l with keyAllowed }

/-- Behind white space, comments and line ends. Outside flow collections a new line may open
    with a key, and a tab cannot stand before one. A byte order mark may open a line; it takes a
    column. -/
def skipWhite (inFlow : Bool) (keyAllowed inComment : Bool) (p : Position) : List Char → Bool × Cursor
  | [] => (keyAllowed, ⟨p, []⟩)
  | c :: rest =>
    if Style.isBreak c then skipWhite inFlow (keyAllowed || !inFlow) false (p.after c) rest
    else if inComment then skipWhite inFlow keyAllowed true (p.after c) rest
    else if c == ' ' || (c == '\t' && (inFlow || !keyAllowed)) || (c == '\ufeff' && p.column == 0) then
      skipWhite inFlow keyAllowed false (p.after c) rest
    else if c == '#' then skipWhite inFlow keyAllowed true (p.after c) rest
    else (keyAllowed, ⟨p, c :: rest⟩)

def toToken (l : Lexer) : Lexer :=
  let (keyAllowed, cursor) := skipWhite l.inFlow l.keyAllowed false l.cursor.at_ l.cursor.rest
  { l with keyAllowed, cursor }

def isStale (p : Position) (k : Candidate) : Bool := k.place.line < p.line || k.place.offset + 1024 < p.offset

/-- Candidates too far back are no keys; a required one must not be lost. -/
def dropStale? (l : Lexer) : Option Lexer :=
  if l.candidates.any fun k => k.any fun k => k.required && isStale l.cursor.at_ k then none
  else some { l with candidates := l.candidates.map fun k => k.filter (!isStale l.cursor.at_ ·) }

/-- The candidate of this level is no key. -/
def removeCandidate? (l : Lexer) : Option Lexer :=
  match l.candidates with
  | some k :: rest => if k.required then none else some { l with candidates := none :: rest }
  | _ => some l

/-- A key may begin here. -/
def saveCandidate? (l : Lexer) : Option Lexer :=
  if l.keyAllowed then do
    let l ← l.removeCandidate?
    let k : Candidate := ⟨l.tokens.length, !l.inFlow && l.indent == l.column, l.cursor.at_⟩
    some { l with candidates := some k :: l.candidates.drop 1 }
  else some l

/-- Opens a block collection at a column that is deeper than the indentation, with its token
    behind the first `count` tokens. -/
def roll (l : Lexer) (column : Int) (count : Nat) (t : Token) : Lexer :=
  if !l.inFlow && l.indent < column then { l with outer := l.indent :: l.outer, indent := column }.emitAt count t
  else l

def unrollTo (column indent : Int) (tokens : List Token) : List Int → Int × List Int × List Token
  | [] => (indent, [], tokens)
  | around :: outer =>
    if column < indent then unrollTo column around (.blockClose :: tokens) outer
    else (indent, around :: outer, tokens)

/-- Closes the block collections that are deeper than a column. -/
def unroll (l : Lexer) (column : Int) : Lexer :=
  if l.inFlow then l
  else
    let (indent, outer, tokens) := unrollTo column l.indent l.tokens l.outer
    { l with indent, outer, tokens }

/-- A token of one character. -/
def punctuation (l : Lexer) (t : Token) : Lexer := (l.emit t).moveTo l.cursor.next

def directive? (l : Lexer) : Option Lexer := do
  let l ← (l.unroll (-1)).removeCandidate?
  let (t, cursor) ← Property.directive? l.cursor.next
  some (((l.allowKey false).emit t).moveTo cursor)

def marker? (l : Lexer) (t : Token) : Option Lexer := do
  let l ← (l.unroll (-1)).removeCandidate?
  some (((l.allowKey false).emit t).moveTo (l.cursor.advance 3))

def open? (l : Lexer) (t : Token) : Option Lexer := do
  let l ← l.saveCandidate?
  some ({ l with flow := l.flow + 1, candidates := none :: l.candidates, keyAllowed := true }.punctuation t)

def close? (l : Lexer) (t : Token) : Option Lexer := do
  let l ← l.removeCandidate?
  let l := if l.inFlow then { l with flow := l.flow - 1, candidates := l.candidates.drop 1 } else l
  some ((l.allowKey false).punctuation t)

def comma? (l : Lexer) : Option Lexer := do
  let l ← l.removeCandidate?
  some ((l.allowKey true).punctuation .comma)

/-- Opens a block collection here, where a key may begin; in a flow collection nothing. -/
def rollHere? (l : Lexer) (t : Token) : Option Lexer :=
  if l.inFlow then some l
  else if l.keyAllowed then some (l.roll l.column l.tokens.length t)
  else none

def dash? (l : Lexer) : Option Lexer := do
  let l ← l.rollHere? .blockSequence
  let l ← l.removeCandidate?
  some ((l.allowKey true).punctuation .dash)

def key? (l : Lexer) : Option Lexer := do
  let l ← l.rollHere? .blockMapping
  let l ← l.removeCandidate?
  some ((l.allowKey (!l.inFlow)).punctuation .key)

def value? (l : Lexer) : Option Lexer :=
  match l.candidates with
  | some k :: rest =>
    let l := (l.emitAt k.count .key).roll k.place.column k.count .blockMapping
    some ({ l with candidates := none :: rest, keyAllowed := false }.punctuation .value)
  | _ => do
    let l ← l.rollHere? .blockMapping
    some ((l.allowKey (!l.inFlow)).punctuation .value)

/-- A token that a key may begin with. -/
def startable? (l : Lexer) (read : Lexer → Option (Token × Cursor)) : Option Lexer := do
  let l ← l.saveCandidate?
  let (t, cursor) ← read l
  some (((l.allowKey false).emit t).moveTo cursor)

def blockScalar? (l : Lexer) (form : Form) : Option Lexer := do
  let l ← l.removeCandidate?
  let (text, cursor) ← Block.read (form == .literal) l.indent l.cursor.next
  some (((l.allowKey true).emit (.scalar text form)).moveTo cursor)

def quoted (single : Bool) (l : Lexer) : Option (Token × Cursor) := do
  let c := l.cursor.next
  let (text, cursor) ← Quoted.read single .text [] .empty c.at_ c.rest
  some (.scalar text .quoted, cursor)

def plain? (l : Lexer) : Option Lexer := do
  let l ← l.saveCandidate?
  let (text, cursor, lineEnded) ← Plain.read l.inFlow (l.indent + 1) [] .empty l.cursor.at_ l.cursor.rest
  some (((l.allowKey lineEnded).emit (.scalar text .plain)).moveTo cursor)

/-- Characters that open something other than an unquoted scalar. -/
def isIndicator (c : Char) : Bool := "-?:,[]\x7b\x7d#&*!|>'\"%@\x60".toList.contains c

/-- An unquoted scalar begins with `c`, and `rest` follows. -/
def opensPlain (inFlow : Bool) (c : Char) (rest : List Char) : Bool :=
  !isIndicator c && !Cursor.isWhite c || (c == '-' && !rest.head?.any Cursor.isBlank)
    || (!inFlow && (c == '?' || c == ':') && !Cursor.whiteAhead rest)

/-- The next token, which begins with `c`. -/
def token? (l : Lexer) (c : Char) (rest : List Char) : Option Lexer :=
  if l.cursor.at_.column = 0 ∧ c = '%' then l.directive?
  else if Cursor.isMarker l.cursor.at_ (c :: rest) then
    l.marker? (if c = '-' then .documentStart else .documentEnd)
  else match c with
    | '[' => l.open? .sequenceOpen
    | '\x7b' => l.open? .mappingOpen
    | ']' => l.close? .sequenceClose
    | '\x7d' => l.close? .mappingClose
    | ',' => l.comma?
    | '*' => l.startable? fun l => (Property.name? l.cursor.next).map fun (name, c) => (.alias name, c)
    | '&' => l.startable? fun l => (Property.name? l.cursor.next).map fun (name, c) => (.anchor name, c)
    | '!' => l.startable? fun l => (Property.tag? l.inFlow l.cursor).map fun (name, c) => (.tag name, c)
    | '\'' => l.startable? (quoted true)
    | '"' => l.startable? (quoted false)
    | c =>
      if c = '-' ∧ Cursor.whiteAhead rest then l.dash?
      else if c = '?' ∧ (l.inFlow || Cursor.whiteAhead rest) then l.key?
      else if c = ':' ∧ (l.inFlow || Cursor.whiteAhead rest) then l.value?
      else if c = '|' ∧ !l.inFlow then l.blockScalar? .literal
      else if c = '>' ∧ !l.inFlow then l.blockScalar? .folded
      else if opensPlain l.inFlow c rest then l.plain?
      else none

/-- The tokens to the end of the text, reading at most `fuel` of them. -/
def run : Nat → Lexer → Option (List Token)
  | 0, _ => none
  | fuel + 1, l => do
    let l ← l.toToken.dropStale?
    let l := l.unroll l.column
    match l.cursor.rest with
    | [] => do
      let l ← (l.unroll (-1)).removeCandidate?
      some l.tokens.reverse
    | c :: rest => do
      let l ← l.token? c rest
      run fuel l

end Lexer

namespace Token

/-- The tokens of a text; every token has a character of its own. -/
def ofText? (text : String) : Option (List Token) := do
  let cursor ← Cursor.ofText? text
  Lexer.run (cursor.rest.length + 1) (.init cursor)

end Token

end DocExpand.Yaml
