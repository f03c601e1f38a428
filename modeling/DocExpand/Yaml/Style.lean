/-
  DocExpand.Yaml.Style — the four written forms of a string and when each is used.

  A string with a line feed is a literal block. A string that would not read back as a
  string, or whose shape is not allowed unquoted, is in single quotes. What neither form
  can hold is in double quotes, with escapes.
-/

import DocExpand.Yaml.Scalar

namespace DocExpand.Yaml

inductive Style where
  | plain
  | single
  | double
  | literal
  deriving DecidableEq, Repr

namespace Style

/-- Line ends: LF, CR, NEL, LS and PS. -/
def isBreak (c : Char) : Bool :=
  c == '\n' || c == '\r' || c == '\u0085' || c == '\u2028' || c == '\u2029'

/-- Characters that can stand unescaped. A tab cannot, nor a byte order mark. -/
def isPrintable (c : Char) : Bool :=
  c == '\n' || (' ' ≤ c && c ≤ '~') || ('\u00a0' ≤ c && c != '\ufeff' && c != '\ufffe' && c != '\uffff')

/-- Characters that no unquoted string opens with. -/
def isIndicator (c : Char) : Bool := "#,[]\x7b\x7d&*!|>'\"%@\x60".toList.contains c

def isGap (c : Char) : Bool := c == ' ' || isBreak c

/-- The end of the text or a gap follows. -/
def gapAhead : List Char → Bool
  | [] => true
  | c :: _ => isGap c

def opensLikeMarker : List Char → Bool
  | '-' :: '-' :: '-' :: _ | '.' :: '.' :: '.' :: _ => true
  | _ => false

/-- The first character is an indicator where it stands. -/
def opensWithIndicator : List Char → Bool
  | [] => false
  | c :: rest => isIndicator c || ((c == '?' || c == ':' || c == '-') && gapAhead rest)

/-- A later `:` before a gap, or a later `#` after one. -/
def hasInnerIndicator : List Char → Bool
  | c :: d :: rest =>
    (d == ':' && gapAhead rest) || (d == '#' && isGap c) || hasInnerIndicator (d :: rest)
  | _ => false

/-- Some neighbours stand as `p` and `q` say. -/
def hasPair (p q : Char → Bool) : List Char → Bool
  | c :: d :: rest => (p c && q d) || hasPair p q (d :: rest)
  | _ => false

def isSpace (c : Char) : Bool := c == ' '

def allowsBlock (cs : List Char) : Bool :=
  cs.all isPrintable && !hasPair isSpace isBreak cs && cs.getLast? != some ' '

def allowsSingle (cs : List Char) : Bool :=
  cs.all isPrintable && !hasPair isSpace isBreak cs && !hasPair isBreak isSpace cs

def allowsPlain (cs : List Char) : Bool :=
  cs.all isPrintable && !cs.any isBreak && cs.head? != some ' ' && cs.getLast? != some ' '
    && !opensLikeMarker cs && !opensWithIndicator cs && !hasInnerIndicator cs

/-- Unquoted, the text would be read as something else, or by some readers as a number. -/
def isAmbiguous (cs : List Char) : Bool := Scalar.meaning cs != .text || Scalar.isPaddedDigits cs

def ofText (cs : List Char) : Style :=
  if cs.contains '\n' then if allowsBlock cs then .literal else .double
  else if !isAmbiguous cs && allowsPlain cs then .plain
  else if allowsSingle cs then .single
  else .double

end Style

end DocExpand.Yaml
