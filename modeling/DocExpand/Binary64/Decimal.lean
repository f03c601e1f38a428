/-
  DocExpand.Binary64.Decimal — decimal numerals and finite floats.

  `ofDecimal` is the float nearest to `digits * 10 ^ exponent`. `shortest` is the other
  way: the fewest decimal digits that `ofDecimal` reads back as the same float and, of
  those, the nearest to it. `render` lays such digits out under a `Layout`: positional
  while the decimal point stays near the digits, otherwise with an exponent.
-/

import DocExpand.Binary64.Basic

namespace DocExpand.Binary64

open scoped CorePower

/-- A decimal magnitude `digits * 10 ^ exponent`. -/
structure Decimal where
  digits : Nat
  exponent : Int
  deriving DecidableEq, Repr

/-- How many decimal digits `n` is written with. -/
def digitCount (n : Nat) : Nat := (Nat.toDigits 10 n).length

/-- The float nearest to `d`; `none` when it overflows, a zero when it is too small. -/
def ofDecimal (negative : Bool) (d : Decimal) : Option Binary64 :=
  if d.digits = 0 then some (zero negative)
  else
    let top := (digitCount d.digits : Int) + d.exponent
    if 310 < top then none
    else if top < -330 then some (zero negative)
    else if 0 ≤ d.exponent then ofRatio negative (d.digits * 10 ^ d.exponent.toNat) 1
    else ofRatio negative d.digits (10 ^ (-d.exponent).toNat)

/-- The place of the decimal point: the `k` with `10 ^ (k - 1) ≤ |x| < 10 ^ k`, for `x` not zero. -/
def pointPlace (x : Binary64) : Int :=
  let (num, den) := x.ratio
  (digitCount (num * 10 ^ (400 : Nat) / den) : Int) - 400

/-- The neighbours of `|x|` on the grid of multiples of `10 ^ exponent`, the nearer first;
    of two equally near, the one with the even digit. -/
def neighbours (x : Binary64) (exponent : Int) : List Decimal :=
  let (num, den) := x.ratio
  let (n, d) := if 0 ≤ exponent then (num, den * 10 ^ exponent.toNat) else (num * 10 ^ (-exponent).toNat, den)
  let low := n / d
  let near := roundHalfEven n d
  let far := if near = low then low + 1 else low
  if n % d = 0 then [⟨low, exponent⟩] else [⟨near, exponent⟩, ⟨far, exponent⟩]

def readsBack (x : Binary64) (d : Decimal) : Bool := ofDecimal x.negative d == some x

/-- The nearest decimal of `size` digits that reads back as `x`, if there is one. -/
def decimalOfSize? (x : Binary64) (size : Nat) : Option Decimal :=
  (x.neighbours (x.pointPlace - size)).find? x.readsBack

/-- Digits without closing zeros. -/
def Decimal.trim (d : Decimal) : Nat → Decimal
  | 0 => d
  | fuel + 1 => if d.digits ≠ 0 ∧ d.digits % 10 = 0 then trim ⟨d.digits / 10, d.exponent + 1⟩ fuel else d

/-- The fewest digits that read back as `x`, and of those the nearest. Seventeen always do. -/
def shortest (x : Binary64) : Decimal :=
  if x.isZero then ⟨0, 0⟩
  else
    let found := ((List.range 16).map (· + 1)).findSome? x.decimalOfSize?
    let d := found.getD ((x.neighbours (x.pointPlace - 17)).headD ⟨0, 0⟩)
    d.trim (digitCount d.digits)

/-- How float text is laid out: the places of the point that are written positionally, and
    the sign of a positive exponent. -/
structure Layout where
  /-- Exclusive. -/
  lowest : Int
  /-- Inclusive. -/
  highest : Int
  positiveSign : List Char
  deriving DecidableEq, Repr

/-- The significand of exponent form: a point after the first digit when more follow. -/
def pointed : List Char → List Char
  | [] => []
  | [c] => [c]
  | c :: rest => c :: '.' :: rest

/-- An exponent with its sign. -/
def exponentText (layout : Layout) (e : Int) : List Char :=
  if 0 ≤ e then layout.positiveSign ++ Nat.toDigits 10 e.toNat else '-' :: Nat.toDigits 10 (-e).toNat

/-- The text of `0.d₁d₂… * 10 ^ place` for the digits `ds`. -/
def layOut (layout : Layout) (ds : List Char) (place : Int) : List Char :=
  let size : Int := ds.length
  if layout.lowest < place ∧ place ≤ layout.highest then
    if size ≤ place then ds ++ List.replicate (place - size).toNat '0' ++ ['.', '0']
    else if 0 < place then ds.take place.toNat ++ '.' :: ds.drop place.toNat
    else '0' :: '.' :: List.replicate (-place).toNat '0' ++ ds
  else pointed ds ++ 'e' :: exponentText layout (place - 1)

/-- The text of a magnitude that is not zero: its shortest digits, laid out. -/
def magnitudeText (layout : Layout) (x : Binary64) : List Char :=
  let d := x.shortest
  let ds := Nat.toDigits 10 d.digits
  layOut layout ds (ds.length + d.exponent)

/-- The text of a float. Zeros are `0.0` and `-0.0`. -/
def render (layout : Layout) (x : Binary64) : List Char :=
  let magnitude := if x.isZero then ['0', '.', '0'] else x.magnitudeText layout
  if x.negative then '-' :: magnitude else magnitude

end DocExpand.Binary64
