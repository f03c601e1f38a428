/-
  DocExpand.Yaml.Block — literal and folded block scalars.

  The header may give the indentation and what is kept of the line ends that close the
  text. Without a given indentation the first line that is not empty sets it. In a
  folded block a single line end between two lines that open with no blank is a space.
-/

import DocExpand.Yaml.Cursor

namespace DocExpand.Yaml.Block

/-- What is kept of the closing line ends: none, one or all. -/
inductive Chomping where
  | strip
  | clip
  | keep
  deriving DecidableEq

structure Header where
  chomping : Chomping
  /-- The indentation below that of the parent, when it is given. -/
  increment : Option Nat

def chomping? : Char → Option Chomping
  | '+' => some .keep
  | '-' => some .strip
  | _ => none

/-- A digit other than zero; a zero is a fault. -/
def increment? (c : Cursor) : Option (Option Nat × Cursor) :=
  match c.rest with
  | d :: _ =>
    if d == '0' then none
    else if d.isDigit then some (some (d.toNat - '0'.toNat), c.next)
    else some (none, c)
  | [] => some (none, c)

/-- The header behind the indicator, in either order, and the cursor on the next line. -/
def header? (c : Cursor) : Option (Header × Cursor) := do
  let (header, c) ← match c.rest.head?.bind chomping? with
    | some chomping => do
      let (increment, c) ← increment? c.next
      pure (⟨chomping, increment⟩, c)
    | none => do
      let (increment, c) ← increment? c
      match increment, c.rest.head?.bind chomping? with
      | some _, some chomping => pure (⟨chomping, increment⟩, c.next)
      | _, _ => pure (⟨.clip, increment⟩, c)
  let c ← c.endOfLine?
  some (header, c)

/-- The text so far, reversed, with the line ends that are not written yet. -/
structure State where
  rev : List Char
  /-- The end of the last line. -/
  lead : Option Char
  /-- The ends of the empty lines after it, reversed. -/
  empties : List Char
  /-- The last line opens with a blank. -/
  leadBlank : Bool

namespace State

def init : State := ⟨[], none, [], false⟩

/-- The state when a line opens with `c`. -/
def openLine (s : State) (literal : Bool) (c : Char) : State :=
  let blank := Cursor.isBlank c
  let joined := if !literal && s.lead == some '\n' && !s.leadBlank && !blank then
      if s.empties.isEmpty then ' ' :: s.rev else s.rev
    else s.lead.toList ++ s.rev
  ⟨s.empties ++ joined, none, [], blank⟩

def finish (s : State) (chomping : Chomping) : String :=
  let withLead := if chomping = .strip then s.rev else s.lead.toList ++ s.rev
  String.ofList (if chomping = .keep then s.empties ++ withLead else withLead).reverse

end State

/-- The indentation that the text has when it is not given. -/
def detected (parent : Int) (widest : Nat) : Nat := max (max widest (parent + 1).toNat) 1

/-- The lines of a block. `indent` is known or still to be detected, `widest` the widest
    indentation seen so far. -/
def lines (literal : Bool) (parent : Int) (indent : Option Nat) (widest : Nat) (inLine : Bool) (s : State)
    (p : Position) : List Char → Option (State × Cursor)
  | [] => some (s, ⟨p, []⟩)
  | c :: rest =>
    if inLine then
      if Style.isBreak c then lines literal parent indent widest false { s with lead := some c } (p.after c) rest
      else lines literal parent indent widest true { s with rev := c :: s.rev } (p.after c) rest
    else
      let before := indent.all (p.column < ·)
      let widest := max widest p.column
      if before && c == ' ' then lines literal parent indent widest false s (p.after c) rest
      else if before && c == '\t' then none
      else if Style.isBreak c then
        lines literal parent indent widest false { s with empties := c :: s.empties } (p.after c) rest
      else
        let indent := indent.getD (detected parent widest)
        if p.column = indent then
          let s := s.openLine literal c
          lines literal parent (some indent) widest true { s with rev := c :: s.rev } (p.after c) rest
        else some (s, ⟨p, c :: rest⟩)

/-- A block scalar behind its indicator, inside a collection indented by `parent`. -/
def read (literal : Bool) (parent : Int) (c : Cursor) : Option (String × Cursor) := do
  let (header, c) ← header? c
  let indent := header.increment.map fun n => (max parent 0).toNat + n
  let (s, c) ← lines literal parent indent 0 false .init c.at_ c.rest
  some (s.finish header.chomping, c)

end DocExpand.Yaml.Block
