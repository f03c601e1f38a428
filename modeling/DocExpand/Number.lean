/-
  DocExpand.Number — the numbers a document can hold: an integer of 64 bits, signed or
  not, or a finite float. `5` and `5.0` are different numbers.
-/

import DocExpand.Binary64.Decimal

namespace DocExpand

open scoped CorePower

inductive Number where
  | int (value : Int) (inRange : -2 ^ (63 : Nat) ≤ value ∧ value < 2 ^ (64 : Nat))
  | float (value : Binary64)
  deriving DecidableEq

namespace Number

instance : Inhabited Number := ⟨.int 0 (by decide)⟩

def ofInt? (i : Int) : Option Number :=
  if h : -2 ^ (63 : Nat) ≤ i ∧ i < 2 ^ (64 : Nat) then some (.int i h) else none

/-- An integer in decimal. -/
def integerText : Int → List Char
  | .ofNat n => Nat.toDigits 10 n
  | .negSucc n => '-' :: Nat.toDigits 10 (n + 1)

/-- Integers in decimal, floats under `layout`. -/
def render (layout : Binary64.Layout) : Number → List Char
  | .int i _ => integerText i
  | .float x => x.render layout

end Number

end DocExpand
