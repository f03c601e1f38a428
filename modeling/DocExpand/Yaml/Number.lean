/-
  DocExpand.Yaml.Number — the numbers of a YAML document, and the JSON number of one.

  An integer is an unsigned one of 64 bits, or a signed one if it is negative. Every other
  number is a float, which may be infinite or not a number. A number is asked for a signed
  integer, then for an unsigned one, then for a float, and the first answer is the number of
  the tree (`toNumber?`). JSON has no number for a float that is not finite.
-/

import DocExpand.Number

namespace DocExpand

open scoped CorePower

namespace Yaml

/-- A float of 64 bits. -/
inductive Float64 where
  | finite (value : Binary64)
  | infinite (negative : Bool)
  | nan
  deriving DecidableEq

inductive Num where
  | unsigned (value : UInt64)
  | negative (value : Int64) (below : value < 0)
  | float (value : Float64)
  deriving DecidableEq

end Yaml

namespace Number

def ofInt64 (i : Int64) : Number :=
  .int i.toInt ⟨i.le_toInt, by have := i.toInt_lt; omega⟩

def ofUInt64 (n : UInt64) : Number :=
  .int n.toNat ⟨by omega, by have := n.toNat_lt; omega⟩

def ofFloat64? : Yaml.Float64 → Option Number
  | .finite x => some (.float x)
  | .infinite _ | .nan => none

end Number

namespace Yaml

namespace Float64

/-- The nearest float to an integer, given by its sign and magnitude. -/
def nearest (negative : Bool) (magnitude : Nat) : Float64 :=
  match Binary64.ofNat negative magnitude with
  | some x => .finite x
  | none => .infinite negative

/-- Equal as keys: a zero has no sign and a non-number equals itself. -/
def same : Float64 → Float64 → Bool
  | finite a, finite b => a == b || (a.isZero && b.isZero)
  | infinite a, infinite b => a == b
  | nan, nan => true
  | _, _ => false

end Float64

namespace Num

/-- Equal as keys; an integer is never a float. -/
def same : Num → Num → Bool
  | unsigned a, unsigned b => a == b
  | negative a _, negative b _ => a == b
  | float a, float b => a.same b
  | _, _ => false

/-! ## Kinds of number -/

def asInt64? : Num → Option Int64
  | unsigned n => if n ≤ Int64.maxValue.toUInt64 then some n.toInt64 else none
  | negative i _ => some i
  | float _ => none

def asUInt64? : Num → Option UInt64
  | unsigned n => some n
  | negative .. | float _ => none

/-- Any number, an integer perhaps rounded. -/
def asFloat64? : Num → Option Float64
  | unsigned n => some (.nearest false n.toNat)
  | negative i _ => some (.nearest true i.toInt.natAbs)
  | float x => some x

/-! ## Numbers of trees -/

def toNumber? (n : Num) : Option Number :=
  match n.asInt64? with
  | some i => some (.ofInt64 i)
  | none =>
    match n.asUInt64? with
    | some u => some (.ofUInt64 u)
    | none => n.asFloat64?.bind Number.ofFloat64?

theorem ofInt_negative {i : Int} (hmin : -2 ^ (63 : Nat) ≤ i) (h : i < 0) : Int64.ofInt i < 0 := by
  rwa [Int64.lt_iff_toInt_lt, Int64.toInt_ofInt_of_le hmin (by omega)]

/-- The number of the same value and kind. -/
def ofNumber : Number → Num
  | .int i inRange => if h : i < 0 then .negative (.ofInt i) (ofInt_negative inRange.1 h) else .unsigned (.ofNat i.toNat)
  | .float x => .float (.finite x)

end Num

end Yaml

end DocExpand
