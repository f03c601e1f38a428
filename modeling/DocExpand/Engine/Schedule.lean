/-
  DocExpand.Engine.Schedule — the order in which invocations are carried out.

  Deeper invocations come first, at one depth the earlier phase, otherwise the order
  found. Then every consumer that stands before an invocation inside its argument
  sibling is moved right behind the last such one, the first misplaced consumer first,
  until none is misplaced. Among consumers whose siblings contain each other that never
  ends: such a list has no order (`none`).
-/

import DocExpand.Engine.Invocation

namespace DocExpand

namespace Invocation

open scoped CorePower

/-- Deeper, or as deep and of no later phase. -/
def precedes (a b : Invocation) : Bool :=
  b.depth < a.depth || (a.depth == b.depth && a.directive.phase.rank ≤ b.directive.phase.rank)

/-- In front of the first that it precedes. -/
def place (i : Invocation) : List Invocation → List Invocation
  | [] => [i]
  | j :: rest => if i.precedes j then i :: j :: rest else j :: place i rest

/-- By depth and phase; equals keep their order. -/
def sort (is : List Invocation) : List Invocation := is.foldr place []

/-- `i` must follow what stands inside its argument sibling. -/
def consumes (i j : Invocation) : Bool := i.argumentSibling?.any fun sibling => Locator.within sibling j.branch

/-- Behind the last that it consumes. -/
def placeBehind (i : Invocation) : List Invocation → List Invocation
  | [] => [i]
  | j :: rest => if rest.any i.consumes then j :: placeBehind i rest else j :: i :: rest

/-- The list with its first misplaced consumer moved; nothing when none is misplaced. -/
def move? : List Invocation → Option (List Invocation)
  | [] => none
  | i :: rest => if rest.any i.consumes then some (placeBehind i rest) else (move? rest).map (i :: ·)

/-- At most `fuel` moves, and then no consumer misplaced. -/
def settle? : Nat → List Invocation → Option (List Invocation)
  | 0, is => if (move? is).isNone then some is else none
  | fuel + 1, is =>
    match move? is with
    | none => some is
    | some moved => settle? fuel moved

/-- The order of a pass, if there is one. Between two moves of a consumer something that it consumes must move, so
    without a cycle of consumers fewer than `2 ^ length` moves settle the list. With a cycle the moves never end, and
    nothing comes out. -/
def schedule (is : List Invocation) : Option (List Invocation) := settle? (2 ^ is.length) (sort is)

end Invocation

end DocExpand
