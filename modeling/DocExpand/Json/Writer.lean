/-
  DocExpand.Json.Writer — the compact text of a tree.

  No blanks; members in their order; in strings only the quote, the backslash and the
  control characters below U+0020 are escaped. `write j rest` puts the text of `j` in
  front of `rest`, so the whole is linear and each piece can be read off its equation.
-/

import DocExpand.Json.Basic

namespace DocExpand.Json

/-- Floats are positional while the point stays within five zeros before and sixteen digits
    after; a positive exponent has its sign. -/
def floatLayout : Binary64.Layout := ⟨-5, 16, ['+']⟩

def hexDigit (n : Nat) : Char := Nat.digitChar n

/-- A character as it stands inside a string. -/
def escape (c : Char) : List Char :=
  match c with
  | '"' => ['\\', '"']
  | '\\' => ['\\', '\\']
  | '\n' => ['\\', 'n']
  | '\r' => ['\\', 'r']
  | '\t' => ['\\', 't']
  | '\x08' => ['\\', 'b']
  | '\x0c' => ['\\', 'f']
  | c =>
    if c.toNat < 0x20 then ['\\', 'u', '0', '0', hexDigit (c.toNat / 16), hexDigit (c.toNat % 16)] else [c]

def quoted (s : String) (rest : List Char) : List Char := '"' :: s.toList.flatMap escape ++ '"' :: rest

mutual

def write : Json → List Char → List Char
  | null, rest => 'n' :: 'u' :: 'l' :: 'l' :: rest
  | bool true, rest => 't' :: 'r' :: 'u' :: 'e' :: rest
  | bool false, rest => 'f' :: 'a' :: 'l' :: 's' :: 'e' :: rest
  | num n, rest => n.render floatLayout ++ rest
  | str s, rest => quoted s rest
  | arr [], rest => '[' :: ']' :: rest
  | arr (item :: items), rest => '[' :: write item (writeItems items rest)
  | obj [], rest => '\x7b' :: '\x7d' :: rest
  | obj ((key, value) :: members), rest => '\x7b' :: quoted key (':' :: write value (writeMembers members rest))

/-- The items after the first, and the closing bracket. -/
def writeItems : List Json → List Char → List Char
  | [], rest => ']' :: rest
  | item :: items, rest => ',' :: write item (writeItems items rest)

/-- The members after the first, and the closing brace. -/
def writeMembers : List (String × Json) → List Char → List Char
  | [], rest => '\x7d' :: rest
  | (key, value) :: members, rest => ',' :: quoted key (':' :: write value (writeMembers members rest))

end

def render (j : Json) : String := String.ofList (write j [])

/-- The UTF-8 bytes of the text. -/
def encode (j : Json) : ByteArray := j.render.toUTF8

/-- The form used in concatenation: a string as it is, anything else as its text. -/
def plainText : Json → String
  | str s => s
  | j => j.render

end DocExpand.Json
