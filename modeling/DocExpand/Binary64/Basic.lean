/-
  DocExpand.Binary64.Basic — the finite 64-bit binary floats, held exactly.

  A value is a sign, a mantissa and a power of two, kept in the one normal form that
  every finite float has (`Canonical`): the mantissa has 53 bits, or fewer only at the
  smallest exponent. Infinities and not-a-number have no place here; an operation whose
  result would overflow answers `none`.

  The only rounding is `ofRatio`: a quotient of two naturals goes to the nearest float,
  a half to the even mantissa. Products and quotients of floats round the exact result
  once (`mul`, `div`).
-/

namespace DocExpand

namespace CorePower

-- powers of naturals are the core library's, whatever else is imported
attribute [scoped instance (high)] instPowNat

end CorePower

open scoped CorePower

namespace Binary64

/-- The normal form of a finite float: a full mantissa, or the smallest exponent. -/
def Canonical (mantissa : Nat) (exponent : Int) : Prop :=
  mantissa < 2 ^ (53 : Nat) ∧ -1074 ≤ exponent ∧ exponent ≤ 971 ∧ (2 ^ (52 : Nat) ≤ mantissa ∨ exponent = -1074)

instance (mantissa : Nat) (exponent : Int) : Decidable (Canonical mantissa exponent) := by
  unfold Canonical; infer_instance

end Binary64

/-- A finite float: `mantissa * 2 ^ exponent`, negated when `negative`. Zero keeps its sign. -/
structure Binary64 where
  negative : Bool
  mantissa : Nat
  exponent : Int
  canonical : Binary64.Canonical mantissa exponent
  deriving DecidableEq

namespace Binary64

def zero (negative : Bool) : Binary64 := ⟨negative, 0, -1074, by decide⟩

instance : Inhabited Binary64 := ⟨zero false⟩

def isZero (x : Binary64) : Bool := x.mantissa == 0

def ofParts? (negative : Bool) (mantissa : Nat) (exponent : Int) : Option Binary64 :=
  if h : Canonical mantissa exponent then some ⟨negative, mantissa, exponent, h⟩ else none

/-- `num / den` to the nearest natural, a half to the even neighbour. -/
def roundHalfEven (num den : Nat) : Nat :=
  let low := num / den
  let rest := num % den
  if 2 * rest < den then low
  else if den < 2 * rest then low + 1
  else low + low % 2

/-- `num / (den * 2 ^ exponent)` as a quotient of naturals. -/
def scaled (num den : Nat) (exponent : Int) : Nat × Nat :=
  if 0 ≤ exponent then (num, den * 2 ^ exponent.toNat) else (num * 2 ^ (-exponent).toNat, den)

/-- The exponent at which `num / den` has a mantissa of 53 bits, but never below the smallest. -/
def exponentFor (num den : Nat) : Int :=
  let guess : Int := (num.log2 : Int) - (den.log2 : Int) - 52
  let (n, d) := scaled num den guess
  max (if n / d < 2 ^ (52 : Nat) then guess - 1 else guess) (-1074)

/-- The float nearest to `num / den`, a half to the even mantissa; `none` when it overflows. -/
def ofRatio (negative : Bool) (num den : Nat) : Option Binary64 :=
  if num = 0 then some (zero negative)
  else
    let exponent := exponentFor num den
    let (n, d) := scaled num den exponent
    let mantissa := roundHalfEven n d
    if mantissa = 2 ^ (53 : Nat) then ofParts? negative (2 ^ (52 : Nat)) (exponent + 1)
    else ofParts? negative mantissa exponent

def ofNat (negative : Bool) (n : Nat) : Option Binary64 := ofRatio negative n 1

/-- The magnitude as a quotient of naturals. -/
def ratio (x : Binary64) : Nat × Nat :=
  if 0 ≤ x.exponent then (x.mantissa * 2 ^ x.exponent.toNat, 1) else (x.mantissa, 2 ^ (-x.exponent).toNat)

/-- The product, rounded once. -/
def mul (x y : Binary64) : Option Binary64 :=
  let (a, b) := x.ratio
  let (c, d) := y.ratio
  ofRatio (x.negative != y.negative) (a * c) (b * d)

/-- The quotient, rounded once; `none` also for a zero divisor. -/
def div (x y : Binary64) : Option Binary64 :=
  if y.isZero then none
  else
    let (a, b) := x.ratio
    let (c, d) := y.ratio
    ofRatio (x.negative != y.negative) (a * d) (b * c)

end Binary64

end DocExpand
