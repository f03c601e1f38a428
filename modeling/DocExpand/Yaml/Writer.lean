/-
  DocExpand.Yaml.Writer — the YAML text of a tree, in block style.

  Members and items stand on lines of their own. Inside a mapping, a nested mapping is
  indented by two and a sequence not at all; inside a sequence, what an item opens goes
  on behind its dash. Empty arrays and objects are written in brackets. A key that is
  long or has several lines stands behind a question mark. The text ends in one line end.
-/

import DocExpand.Yaml.Style

namespace DocExpand.Yaml

/-- Floats are laid out as in JSON, but a positive exponent has no sign. -/
def floatLayout : Binary64.Layout := ⟨-5, 16, []⟩

def pad (indent : Nat) (rest : List Char) : List Char := List.replicate indent ' ' ++ rest

namespace Text

def upperHex (n : Nat) : Char := (Nat.digitChar n).toUpper

/-- The escape of a character that cannot stand in double quotes as it is. -/
def escapeCode (c : Char) : List Char :=
  match c with
  | '\x00' => ['0']
  | '\x07' => ['a']
  | '\x08' => ['b']
  | '\t' => ['t']
  | '\n' => ['n']
  | '\x0b' => ['v']
  | '\x0c' => ['f']
  | '\r' => ['r']
  | '\x1b' => ['e']
  | '"' => ['"']
  | '\\' => ['\\']
  | '\u0085' => ['N']
  | '\u2028' => ['L']
  | '\u2029' => ['P']
  | c =>
    let n := c.toNat
    let low := [upperHex (n / 16 % 16), upperHex (n % 16)]
    if n < 0x100 then 'x' :: low else 'u' :: upperHex (n / 4096 % 16) :: upperHex (n / 256 % 16) :: low

def doubleChar (c : Char) : List Char :=
  if !Style.isPrintable c || Style.isBreak c || c == '"' || c == '\\' then '\\' :: escapeCode c else [c]

def double (cs : List Char) : List Char := '"' :: cs.flatMap doubleChar ++ ['"']

/-- In single quotes a quote is doubled, and after a line end the text starts at `indent`. -/
def singleBody (indent : Nat) : Bool → List Char → List Char
  | true, [] => pad indent []
  | false, [] => []
  | lineStart, c :: cs =>
    if Style.isBreak c then c :: singleBody indent true cs
    else
      let shown := (if c = '\'' then ['\'', '\''] else [c]) ++ singleBody indent false cs
      if lineStart then pad indent shown else shown

def single (indent : Nat) (cs : List Char) : List Char := '\'' :: singleBody indent false cs ++ ['\'']

/-- In a literal block every line that is not empty starts at `indent`. -/
def literalBody (indent : Nat) : Bool → List Char → List Char
  | _, [] => []
  | lineStart, c :: cs =>
    if Style.isBreak c then c :: literalBody indent true cs
    else
      let shown := c :: literalBody indent false cs
      if lineStart then pad indent shown else shown

/-- What follows the bar: the indentation when the text opens with a gap, and what is kept of
    the line ends that close it. -/
def literalHints (cs : List Char) : List Char :=
  let indentation := if cs.head?.any Style.isGap then ['2'] else []
  let chomping := match cs.reverse with
    | [] => ['-']
    | [c] => if Style.isBreak c then ['+'] else ['-']
    | c :: d :: _ => if !Style.isBreak c then ['-'] else if Style.isBreak d then ['+'] else []
  indentation ++ chomping

def literal (indent : Nat) (cs : List Char) : List Char := '|' :: literalHints cs ++ '\n' :: literalBody indent true cs

def render (indent : Nat) (cs : List Char) : List Char :=
  match Style.ofText cs with
  | .plain => cs
  | .single => single indent cs
  | .double => double cs
  | .literal => literal indent cs

end Text

/-- The text and a line end, unless the text ends in one. -/
def endLine (text : List Char) (rest : List Char) : List Char :=
  if text.getLast?.any Style.isBreak then text ++ rest else text ++ '\n' :: rest

/-- A scalar whose further lines start at `indent`. -/
def scalar (indent : Nat) : Json → List Char
  | .null => ['n', 'u', 'l', 'l']
  | .bool true => ['t', 'r', 'u', 'e']
  | .bool false => ['f', 'a', 'l', 's', 'e']
  | .num n => n.render floatLayout
  | .str s => Text.render indent s.toList
  | .arr _ => ['[', ']']
  | .obj _ => ['\x7b', '\x7d']

/-- On one line and at most 128 bytes long. -/
def isSimpleKey (key : String) : Bool := !key.toList.any Style.isBreak && key.utf8ByteSize ≤ 128

/-- A key and the colon; the indentation of the mapping is `indent`. -/
def keyText (indent : Nat) (key : String) : List Char :=
  let text := Text.render (indent + 2) key.toList
  if isSimpleKey key then text ++ [':'] else '?' :: ' ' :: endLine text (pad indent [':'])

mutual

/-- A node that begins in column `indent` of a line that is begun. -/
def writeInline (indent : Nat) : Json → List Char → List Char
  | .arr (item :: items), rest => '-' :: ' ' :: writeInline (indent + 2) item (writeItems indent items rest)
  | .obj ((key, value) :: members), rest =>
    keyText indent key ++ writeValue indent (isSimpleKey key) value (writeMembers indent members rest)
  | j, rest => endLine (scalar indent j) rest

/-- The value after a colon in a mapping at `indent`. -/
def writeValue (indent : Nat) (simple : Bool) : Json → List Char → List Char
  | .arr (item :: items), rest =>
    if simple then '\n' :: pad indent ('-' :: ' ' :: writeInline (indent + 2) item (writeItems indent items rest))
    else ' ' :: '-' :: ' ' :: writeInline (indent + 4) item (writeItems (indent + 2) items rest)
  | .obj ((key, value) :: members), rest =>
    (if simple then ('\n' :: pad (indent + 2) ·) else (' ' :: ·)) <|
      keyText (indent + 2) key ++
        writeValue (indent + 2) (isSimpleKey key) value (writeMembers (indent + 2) members rest)
  | j, rest => ' ' :: endLine (scalar (indent + 2) j) rest

def writeItems (indent : Nat) : List Json → List Char → List Char
  | [], rest => rest
  | item :: items, rest =>
    pad indent ('-' :: ' ' :: writeInline (indent + 2) item (writeItems indent items rest))

def writeMembers (indent : Nat) : List (String × Json) → List Char → List Char
  | [], rest => rest
  | (key, value) :: members, rest =>
    pad indent (keyText indent key ++ writeValue indent (isSimpleKey key) value (writeMembers indent members rest))

end

/-- The text of a document; the further lines of a lone scalar are indented by two. -/
def renderChars : Json → List Char
  | .str s => endLine (Text.render 2 s.toList) []
  | j => writeInline 0 j []

def render (j : Json) : String := String.ofList (renderChars j)

end DocExpand.Yaml
