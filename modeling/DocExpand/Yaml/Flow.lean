/-
  DocExpand.Yaml.Flow — scalars that are folded: unquoted and quoted ones.

  Blanks inside a line are kept and those around a line end are not. One line end becomes
  a space; of several, the first is dropped and the others stay.
-/

import DocExpand.Yaml.Cursor

namespace DocExpand.Yaml

/-- What stands between two words of a scalar. -/
inductive Gap where
  /-- Blanks of one line, reversed. -/
  | blanks (rev : List Char)
  /-- The first line end, or none when it was escaped, and the line ends after it, reversed. -/
  | lines (first : Option Char) (more : List Char)

namespace Gap

def empty : Gap := blanks []

def isEmpty : Gap → Bool
  | blanks [] => true
  | _ => false

def hasBreak : Gap → Bool
  | lines _ _ => true
  | blanks _ => false

/-- The gap with one more blank or line end. -/
def add (g : Gap) (c : Char) : Gap :=
  match g, Style.isBreak c with
  | blanks rev, false => blanks (c :: rev)
  | blanks _, true => lines (some c) []
  | lines first more, true => lines first (c :: more)
  | lines first more, false => lines first more

/-- The text of the gap, put in front of what is reversed before it. -/
def fold (g : Gap) (rev : List Char) : List Char :=
  match g with
  | blanks bs => bs ++ rev
  | lines (some '\n') [] => ' ' :: rev
  | lines (some '\n') more => more ++ rev
  | lines (some c) more => more ++ c :: rev
  | lines none more => more ++ rev

end Gap

namespace Plain

def isFlowIndicator (c : Char) : Bool := c == ',' || c == '[' || c == ']' || c == '\x7b' || c == '\x7d'

/-- Behind a gap, what ends an unquoted scalar: a comment, a marker, or an indentation that is
    too small. -/
def endsAfterGap (inFlow : Bool) (indent : Int) (p : Position) (cs : List Char) : Bool :=
  (!inFlow && (p.column : Int) < indent) || Cursor.isMarker p cs || cs.head? == some '#'

/-- What ends an unquoted scalar anywhere: a colon before white space, or a flow indicator. -/
def endsAt (inFlow : Bool) : List Char → Bool
  | ':' :: rest => Cursor.whiteAhead rest
  | c :: _ => inFlow && isFlowIndicator c
  | [] => true

/-- A colon that a flow collection does not allow. -/
def isMisplacedColon : List Char → Bool
  | ':' :: c :: _ => isFlowIndicator c || c == '?'
  | _ => false

/-- The text of an unquoted scalar, the cursor behind it and whether a line end was passed
    last. `indent` is the least column of its further lines. -/
def read (inFlow : Bool) (indent : Int) (rev : List Char) (gap : Gap) (p : Position) :
    List Char → Option (String × Cursor × Bool)
  | [] => some (String.ofList rev.reverse, ⟨p, []⟩, gap.hasBreak)
  | c :: rest =>
    if Cursor.isWhite c then
      if gap.hasBreak && c == '\t' && (p.column : Int) < indent then none
      else read inFlow indent rev (gap.add c) (p.after c) rest
    else if !gap.isEmpty && endsAfterGap inFlow indent p (c :: rest) then
      some (String.ofList rev.reverse, ⟨p, c :: rest⟩, gap.hasBreak)
    else if inFlow && isMisplacedColon (c :: rest) then none
    else if endsAt inFlow (c :: rest) then some (String.ofList rev.reverse, ⟨p, c :: rest⟩, gap.hasBreak)
    else read inFlow indent (c :: gap.fold rev) .empty (p.after c) rest

end Plain

namespace Quoted

/-- Where the reading of a quoted scalar stands. -/
inductive Mode where
  | text
  /-- Behind a single quote, which closes unless a second one follows. -/
  | quote
  /-- Behind a backslash. -/
  | escape
  /-- Inside an escape by number, with the digits left to read. -/
  | code (left value : Nat)

/-- The character of a one-letter escape. -/
def escape? : Char → Option Char
  | '0' => some '\x00'
  | 'a' => some '\x07'
  | 'b' => some '\x08'
  | 't' | '\t' => some '\t'
  | 'n' => some '\n'
  | 'v' => some '\x0b'
  | 'f' => some '\x0c'
  | 'r' => some '\r'
  | 'e' => some '\x1b'
  | ' ' => some ' '
  | '"' => some '"'
  | '/' => some '/'
  | '\\' => some '\\'
  | 'N' => some '\u0085'
  | '_' => some '\u00a0'
  | 'L' => some '\u2028'
  | 'P' => some '\u2029'
  | _ => none

/-- How many digits the number of an escape has. -/
def codeLength? : Char → Option Nat
  | 'x' => some 2
  | 'u' => some 4
  | 'U' => some 8
  | _ => none

def char? (n : Nat) : Option Char := if h : n.isValidChar then some (Char.ofNatAux n h) else none

/-- The text of a quoted scalar and the cursor behind it; `single` tells the kind of quotes. -/
def read (single : Bool) (mode : Mode) (rev : List Char) (gap : Gap) (p : Position) :
    List Char → Option (String × Cursor)
  | [] =>
    match mode with
    | .quote => some (String.ofList rev.reverse, ⟨p, []⟩)
    | _ => none
  | c :: rest =>
    match mode with
    | .text =>
      if Cursor.isWhite c then read single .text rev (gap.add c) (p.after c) rest
      else if Cursor.isMarker p (c :: rest) then none
      else if single && c == '\'' then read single .quote (gap.fold rev) .empty (p.after c) rest
      else if !single && c == '"' then some (String.ofList (gap.fold rev).reverse, ⟨p.after c, rest⟩)
      else if !single && c == '\\' then read single .escape (gap.fold rev) .empty (p.after c) rest
      else read single .text (c :: gap.fold rev) .empty (p.after c) rest
    | .quote =>
      if c == '\'' then read single .text ('\'' :: rev) .empty (p.after c) rest
      else some (String.ofList rev.reverse, ⟨p, c :: rest⟩)
    | .escape =>
      if Style.isBreak c then read single .text rev (.lines none []) (p.after c) rest
      else match codeLength? c with
        | some n => read single (.code n 0) rev .empty (p.after c) rest
        | none => (escape? c).bind fun x => read single .text (x :: rev) .empty (p.after c) rest
    | .code left value =>
      (Scalar.digitValue? 16 c).bind fun d =>
        if left ≤ 1 then
          (char? (value * 16 + d)).bind fun x => read single .text (x :: rev) .empty (p.after c) rest
        else read single (.code (left - 1) (value * 16 + d)) rev .empty (p.after c) rest

end Quoted

end DocExpand.Yaml
