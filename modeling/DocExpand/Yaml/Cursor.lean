/-
  DocExpand.Yaml.Cursor — places in YAML text, and the characters that the text is made of.

  Line ends are made uniform before reading: CR, CR LF and NEL become LF, while LS and PS
  stay as they are. A position counts lines and columns, and bytes from the start.
-/

import DocExpand.Yaml.Style

namespace DocExpand.Yaml

structure Position where
  /-- The bytes of UTF-8 text in front; of a line end as many as it has when uniform. -/
  offset : Nat
  line : Nat
  column : Nat
  deriving DecidableEq

namespace Position

def start : Position := ⟨0, 0, 0⟩

/-- The position behind `c`. -/
def after (p : Position) (c : Char) : Position :=
  if Style.isBreak c then ⟨p.offset + c.utf8Size, p.line + 1, 0⟩ else ⟨p.offset + c.utf8Size, p.line, p.column + 1⟩

end Position

/-- A position and the text from there on. -/
structure Cursor where
  at_ : Position
  rest : List Char

namespace Cursor

/-- Characters that YAML text may hold. -/
def isReadable (c : Char) : Bool :=
  c == '\t' || c == '\n' || c == '\r' || c == '\u0085' || (' ' ≤ c && c ≤ '~')
    || ('\u00a0' ≤ c && c != '\ufffe' && c != '\uffff')

def uniformBreaks : List Char → List Char
  | '\r' :: '\n' :: cs => '\n' :: uniformBreaks cs
  | '\r' :: cs | '\u0085' :: cs => '\n' :: uniformBreaks cs
  | c :: cs => c :: uniformBreaks cs
  | [] => []

def ofText? (text : String) : Option Cursor :=
  if text.toList.all isReadable then some ⟨.start, uniformBreaks text.toList⟩ else none

def isBlank (c : Char) : Bool := c == ' ' || c == '\t'

def isWhite (c : Char) : Bool := isBlank c || Style.isBreak c

/-- A blank, a line end or the end of the text comes next. -/
def whiteAhead : List Char → Bool
  | [] => true
  | c :: _ => isWhite c

/-- Letters, digits, hyphen and underscore: the characters of names. -/
def isNameChar (c : Char) : Bool := c.isAlphanum || c == '-' || c == '_'

/-- A marker of a document's start or end, in the first column. -/
def isMarker (p : Position) (cs : List Char) : Bool :=
  p.column == 0 && Style.opensLikeMarker cs && whiteAhead (cs.drop 3)

/-- Behind the next character. -/
def next (c : Cursor) : Cursor :=
  match c.rest with
  | [] => c
  | x :: rest => ⟨c.at_.after x, rest⟩

def advance (c : Cursor) : Nat → Cursor
  | 0 => c
  | n + 1 => advance c.next n

def skipFrom (p : Char → Bool) (pos : Position) : List Char → Cursor
  | [] => ⟨pos, []⟩
  | c :: cs => if p c then skipFrom p (pos.after c) cs else ⟨pos, c :: cs⟩

/-- Behind the longest run of characters with `p`. -/
def skipWhile (c : Cursor) (p : Char → Bool) : Cursor := skipFrom p c.at_ c.rest

/-- The longest run of characters with `p`, and the cursor behind it. -/
def takeRun (c : Cursor) (p : Char → Bool) : List Char × Cursor := (c.rest.takeWhile p, c.skipWhile p)

/-- Behind blanks, a comment and the end of the line; nothing else may stand there. -/
def endOfLine? (c : Cursor) : Option Cursor :=
  let c := c.skipWhile isBlank
  let c := if c.rest.head? = some '#' then c.skipWhile (!Style.isBreak ·) else c
  match c.rest with
  | [] => some c
  | x :: _ => if Style.isBreak x then some c.next else none

end Cursor

end DocExpand.Yaml
