/-
  DocExpand.Locator.Basic — where a node stands: the steps to it from the root.

  A locator is a coordinate, not a handle: it may name a place that a document does not
  have. Its text is a pointer in the sense of RFC 6901: every step after a slash, with
  `~` written `~0` and `/` written `~1`. Reading a pointer gives keys only; a key that
  is a numeral still addresses an item of an array (`Segment.index?`).
-/

namespace DocExpand

/-- One step from a node to a child. -/
inductive Segment where
  | key (name : String)
  | index (position : Nat)
  deriving DecidableEq, Repr

namespace Segment

/-- The key that the step takes in an object. -/
def text : Segment → String
  | key name => name
  | index position => position.repr

def key? : Segment → Option String
  | key name => some name
  | index _ => none

/-- A numeral: one plus sign at most, then digits. -/
def numeral? (cs : List Char) : Option Nat :=
  let ds := match cs with
    | '+' :: ds => ds
    | ds => ds
  if ds ≠ [] ∧ ds.all Char.isDigit then some (ds.foldl (fun n c => n * 10 + (c.toNat - '0'.toNat)) 0) else none

/-- The position that the step takes in an array. -/
def index? : Segment → Option Nat
  | key name => numeral? name.toList
  | index position => some position

def escape (c : Char) : List Char :=
  if c = '~' then ['~', '0'] else if c = '/' then ['~', '1'] else [c]

/-- `~0` is a tilde and `~1` a slash; any other tilde stands for itself. -/
def unescape : List Char → List Char
  | '~' :: '0' :: cs => '~' :: unescape cs
  | '~' :: '1' :: cs => '/' :: unescape cs
  | c :: cs => c :: unescape cs
  | [] => []

def escaped (s : Segment) : List Char := s.text.toList.flatMap escape

end Segment

abbrev Locator := List Segment

namespace Locator

def root : Locator := []

def child (at_ : Locator) (key : String) : Locator := at_ ++ [.key key]

def item (at_ : Locator) (position : Nat) : Locator := at_ ++ [.index position]

/-- The locator without its last step; the root has none. -/
def parent? : Locator → Option Locator
  | [] => none
  | path => some path.dropLast

def depth (at_ : Locator) : Nat := at_.length

/-- `within outer at_`: the place is `outer` or lies beneath it. -/
def within (outer at_ : Locator) : Bool := outer.isPrefixOf at_

def pointer (at_ : Locator) : String := String.ofList (at_.flatMap fun s => '/' :: s.escaped)

/-- The pointer, with a slash for the root. -/
def display : Locator → String
  | [] => "/"
  | path => pointer path

/-- The parts between slashes. -/
def parts : List Char → List (List Char)
  | [] => [[]]
  | c :: cs =>
    match c, parts cs with
    | '/', ps => [] :: ps
    | c, p :: ps => (c :: p) :: ps
    | c, [] => [[c]]

def ofPointerChars? : List Char → Option Locator
  | [] => some root
  | '/' :: cs => some ((parts cs).map fun p => .key (String.ofList (Segment.unescape p)))
  | _ => none

/-- The locator of a pointer: empty, or opening with a slash. -/
def ofPointer? (pointer : String) : Option Locator := ofPointerChars? pointer.toList

end Locator

end DocExpand
