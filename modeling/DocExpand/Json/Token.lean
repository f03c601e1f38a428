/-
  DocExpand.Json.Token — the tokens of JSON text.

  The text is taken character by character (`Lexer.step`), so scanning a concatenation is
  scanning its parts one after the other. A word is a longest run of letters, digits,
  signs and points; it must be `null`, `true`, `false` or a numeral. Blanks are space,
  tab, line feed and carriage return. In a string no character below U+0020 stands
  unescaped, and a surrogate escape must be the first of a pair.
-/

import DocExpand.Json.Numeral

namespace DocExpand.Json

inductive Token where
  | arrOpen
  | arrClose
  | objOpen
  | objClose
  | comma
  | colon
  | text (value : String)
  /-- A null, a boolean or a number. -/
  | scalar (value : Json)
  deriving DecidableEq

/-- What the characters read last belong to; the text of a string or word is kept reversed. -/
inductive Lexer.Mode where
  | between
  | word (rev : List Char)
  | text (rev : List Char)
  | escape (rev : List Char)
  /-- After `\u` and `count` of its four digits. -/
  | unit (rev : List Char) (count value : Nat)
  /-- After a high surrogate; the escape of the low one must follow. -/
  | pair (rev : List Char) (high : Nat)
  | pairEscape (rev : List Char) (high : Nat)
  | pairUnit (rev : List Char) (high count value : Nat)
  deriving DecidableEq

/-- A scan in progress; the tokens are kept reversed. -/
structure Lexer where
  tokens : List Token
  mode : Lexer.Mode
  deriving DecidableEq

namespace Lexer

def isBlank (c : Char) : Bool := c == ' ' || c == '\t' || c == '\n' || c == '\r'

def isWordChar (c : Char) : Bool := c.isAlphanum || c == '-' || c == '+' || c == '.'

def hexValue? (c : Char) : Option Nat :=
  if c.isDigit then some (c.toNat - '0'.toNat)
  else if 'a' ≤ c ∧ c ≤ 'f' then some (c.toNat - 'a'.toNat + 10)
  else if 'A' ≤ c ∧ c ≤ 'F' then some (c.toNat - 'A'.toNat + 10)
  else none

def scalarOfWord? (word : List Char) : Option Json :=
  if word = ['n', 'u', 'l', 'l'] then some .null
  else if word = ['t', 'r', 'u', 'e'] then some (.bool true)
  else if word = ['f', 'a', 'l', 's', 'e'] then some (.bool false)
  else ((Numeral.ofWord? word).bind Numeral.toNumber?).map .num

def emit (l : Lexer) (t : Token) : Lexer := ⟨t :: l.tokens, .between⟩

def within (l : Lexer) (mode : Mode) : Lexer := { l with mode }

/-- A character outside strings and words. -/
def start (l : Lexer) (c : Char) : Option Lexer :=
  match c with
  | '[' => some (l.emit .arrOpen)
  | ']' => some (l.emit .arrClose)
  | '\x7b' => some (l.emit .objOpen)
  | '\x7d' => some (l.emit .objClose)
  | ',' => some (l.emit .comma)
  | ':' => some (l.emit .colon)
  | '"' => some (l.within (.text []))
  | c =>
    if isBlank c then some (l.within .between)
    else if isWordChar c then some (l.within (.word [c]))
    else none

def closeWord (l : Lexer) (rev : List Char) : Option Lexer :=
  (scalarOfWord? rev.reverse).map fun j => l.emit (.scalar j)

/-- The character of a one-letter escape. -/
def simpleEscape? : Char → Option Char
  | '"' => some '"'
  | '\\' => some '\\'
  | '/' => some '/'
  | 'b' => some '\x08'
  | 'f' => some '\x0c'
  | 'n' => some '\n'
  | 'r' => some '\r'
  | 't' => some '\t'
  | _ => none

/-- A unit of four digits: a character, or the first half of a pair. -/
def closeUnit (l : Lexer) (rev : List Char) (value : Nat) : Option Lexer :=
  if 0xD800 ≤ value ∧ value < 0xDC00 then some (l.within (.pair rev value))
  else if 0xDC00 ≤ value ∧ value < 0xE000 then none
  else some (l.within (.text (Char.ofNat value :: rev)))

def closePair (l : Lexer) (rev : List Char) (high value : Nat) : Option Lexer :=
  if 0xDC00 ≤ value ∧ value < 0xE000 then
    some (l.within (.text (Char.ofNat (0x10000 + (high - 0xD800) * 0x400 + (value - 0xDC00)) :: rev)))
  else none

def step (l : Lexer) (c : Char) : Option Lexer :=
  match l.mode with
  | .between => l.start c
  | .word rev => if isWordChar c then some (l.within (.word (c :: rev))) else (l.closeWord rev).bind (·.start c)
  | .text rev =>
    if c = '"' then some (l.emit (.text (String.ofList rev.reverse)))
    else if c = '\\' then some (l.within (.escape rev))
    else if c.toNat < 0x20 then none
    else some (l.within (.text (c :: rev)))
  | .escape rev =>
    if c = 'u' then some (l.within (.unit rev 0 0))
    else (simpleEscape? c).map fun c => l.within (.text (c :: rev))
  | .unit rev count value =>
    (hexValue? c).bind fun d =>
      if count < 3 then some (l.within (.unit rev (count + 1) (value * 16 + d)))
      else l.closeUnit rev (value * 16 + d)
  | .pair rev high => if c = '\\' then some (l.within (.pairEscape rev high)) else none
  | .pairEscape rev high => if c = 'u' then some (l.within (.pairUnit rev high 0 0)) else none
  | .pairUnit rev high count value =>
    (hexValue? c).bind fun d =>
      if count < 3 then some (l.within (.pairUnit rev high (count + 1) (value * 16 + d)))
      else l.closePair rev high (value * 16 + d)

/-- The end of the text closes a word, and nothing else may be open. -/
def finish (l : Lexer) : Option (List Token) :=
  match l.mode with
  | .between => some l.tokens.reverse
  | .word rev => (l.closeWord rev).map fun l => l.tokens.reverse
  | _ => none

def run (l : Lexer) (cs : List Char) : Option Lexer := cs.foldlM step l

end Lexer

namespace Token

/-- The tokens of a text, if it is made of tokens. -/
def ofChars? (cs : List Char) : Option (List Token) := (Lexer.run ⟨[], .between⟩ cs).bind Lexer.finish

end Token

end DocExpand.Json
