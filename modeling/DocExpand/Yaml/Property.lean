/-
  DocExpand.Yaml.Property — anchors, aliases, tags and directives.

  A tag is `!<…>` with its whole text, or a handle (`!`, `!!` or `!name!`) and a suffix; a
  lone `!` is a tag too. Bytes escaped by percent signs must come in groups of the length
  that UTF-8 has, but need not be valid text.
-/

import DocExpand.Yaml.Cursor
import DocExpand.Yaml.Token

namespace DocExpand.Yaml.Property

/-- The name of an anchor or alias behind its indicator. -/
def name? (c : Cursor) : Option (String × Cursor) :=
  let (name, c) := c.takeRun Cursor.isNameChar
  if name ≠ [] ∧ (Cursor.whiteAhead c.rest || c.rest.head?.any "?:,]\x7d%@\x60".toList.contains) then
    some (String.ofList name, c)
  else none

def isUriChar (verbatim : Bool) (c : Char) : Bool :=
  Cursor.isNameChar c || ";/?:@&=+$.%!~*'()".toList.contains c || (verbatim && ",[]".toList.contains c)

/-- How many bytes go with a first byte of UTF-8. -/
def trailing? (byte : Nat) : Option Nat :=
  if byte < 0x80 then some 0
  else if byte < 0xC0 then none
  else if byte < 0xE0 then some 1
  else if byte < 0xF0 then some 2
  else if byte < 0xF8 then some 3
  else none

/-- The bytes of a run, with every percent sign and its two digits taken as one. Escapes come in
    groups: a first byte and right behind it the bytes that go with it, `left` of them to come. -/
def unescape? (left : Nat) : List Char → Option (List UInt8)
  | [] => if left = 0 then some [] else none
  | '%' :: a :: b :: rest => do
    let high ← Scalar.digitValue? 16 a
    let low ← Scalar.digitValue? 16 b
    let byte := high * 16 + low
    let left ← if left = 0 then trailing? byte else if byte / 0x40 = 2 then some (left - 1) else none
    let more ← unescape? left rest
    some (UInt8.ofNat byte :: more)
  | c :: rest => if c = '%' ∨ left ≠ 0 then none else (unescape? 0 rest).map (UInt8.ofNat c.toNat :: ·)

/-- A zero byte and what comes after it is no part of a tag. -/
def upToZero (bytes : List UInt8) : Tag := bytes.takeWhile (· ≠ 0)

/-- What a run of URI characters spells; the run is not empty. -/
def uri? (verbatim : Bool) (c : Cursor) : Option (Tag × Cursor) := do
  let (run, c) := c.takeRun (isUriChar verbatim)
  let bytes ← unescape? 0 run
  if run = [] then none else some (upToZero bytes, c)

/-- An exclamation mark, name characters and perhaps a second mark. -/
def handle? (c : Cursor) : Option (List Char × Cursor) :=
  if c.rest.head? = some '!' then
    let (name, c) := c.next.takeRun Cursor.isNameChar
    if c.rest.head? = some '!' then some ('!' :: name ++ ['!'], c.next) else some ('!' :: name, c)
  else none

/-- The bytes of ASCII characters. -/
def ascii (cs : List Char) : List UInt8 := cs.map fun c => UInt8.ofNat c.toNat

/-- The tag at the cursor. Without a handle the exclamation mark is the handle, and alone it is
    the tag itself. -/
def tagName? (c : Cursor) : Option (TagName × Cursor) := do
  if (c.rest.drop 1).head? = some '<' then
    let (suffix, c) ← uri? true (c.advance 2)
    if c.rest.head? = some '>' then some (⟨"", suffix⟩, c.next) else none
  else
    let (handle, c) ← handle? c
    if 1 < handle.length ∧ handle.getLast? = some '!' then
      let (suffix, c) ← uri? false c
      some (⟨String.ofList handle, suffix⟩, c)
    else
      let (more, c) ← if c.rest.head?.any (isUriChar false) then uri? false c else some ([], c)
      let suffix := ascii (handle.drop 1) ++ more
      some (if suffix = [] then ⟨"", ascii ['!']⟩ else ⟨"!", suffix⟩, c)

/-- The tag at the cursor, which white space must end, or a comma in a flow collection. -/
def tag? (inFlow : Bool) (c : Cursor) : Option (TagName × Cursor) := do
  let (tag, c) ← tagName? c
  if Cursor.whiteAhead c.rest || (inFlow && c.rest.head? == some ',') then some (tag, c) else none

/-- At most nine digits. -/
def versionPart? (c : Cursor) : Option (Nat × Cursor) :=
  let (ds, c) := c.takeRun Char.isDigit
  if ds ≠ [] ∧ ds.length ≤ 9 then some (Scalar.natOf ds, c) else none

def version? (c : Cursor) : Option (Token × Cursor) := do
  let (major, c) ← versionPart? (c.skipWhile Cursor.isBlank)
  if c.rest.head? = some '.' then
    let (minor, c) ← versionPart? c.next
    some (.version major minor, c)
  else none

def tagHandle? (c : Cursor) : Option (Token × Cursor) := do
  let (handle, c) ← handle? (c.skipWhile Cursor.isBlank)
  if (handle ≠ ['!'] ∧ handle.getLast? ≠ some '!') ∨ !c.rest.head?.any Cursor.isBlank then none
  else
    let (lead, c) ← uri? true (c.skipWhile Cursor.isBlank)
    if Cursor.whiteAhead c.rest then some (.tagHandle (String.ofList handle) lead, c) else none

/-- The directive behind a percent sign, to the end of its line. -/
def directive? (c : Cursor) : Option (Token × Cursor) := do
  let (name, c) := c.takeRun Cursor.isNameChar
  if !Cursor.whiteAhead c.rest then none
  else
    let (token, c) ← match String.ofList name with
      | "YAML" => version? c
      | "TAG" => tagHandle? c
      | _ => none
    let c ← c.endOfLine?
    some (token, c)

end DocExpand.Yaml.Property
