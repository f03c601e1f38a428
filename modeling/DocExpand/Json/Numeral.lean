/-
  DocExpand.Json.Numeral — the numerals of a document and the numbers they stand for.

  A numeral without fraction and exponent is an integer when 64 bits hold it, signed or
  not; `-0` and every other numeral is a float. A float is read in three roundings: the
  leading digits that fit in 64 bits are rounded to a float, the power of ten is rounded,
  and their product or quotient is rounded. That can miss the nearest float by one unit,
  and it refuses what overflows; what is too small becomes a zero.
-/

import DocExpand.Json.Basic

namespace DocExpand.Json

/-- The parts of a numeral, as digits. -/
structure Numeral where
  negative : Bool
  whole : List Char
  fraction : Option (List Char)
  /-- Whether it is negative, and its digits. -/
  exponent : Option (Bool × List Char)
  deriving DecidableEq, Repr

namespace Numeral

open scoped CorePower

def digit (c : Char) : Nat := c.toNat - '0'.toNat

/-- A run of digits that is not empty, and what follows. -/
def digits? (cs : List Char) : Option (List Char × List Char) :=
  match cs.takeWhile Char.isDigit with
  | [] => none
  | ds => some (ds, cs.dropWhile Char.isDigit)

/-- No zero stands in front of another digit. -/
def whole? (cs : List Char) : Option (List Char × List Char) := do
  let (ds, rest) ← digits? cs
  match ds with
  | '0' :: _ :: _ => none
  | ds => some (ds, rest)

def fraction? : List Char → Option (Option (List Char) × List Char)
  | '.' :: cs => (digits? cs).map fun (ds, rest) => (some ds, rest)
  | cs => some (none, cs)

def exponent? : List Char → Option (Option (Bool × List Char) × List Char)
  | 'e' :: cs | 'E' :: cs =>
    match cs with
    | '-' :: cs => (digits? cs).map fun (ds, rest) => (some (true, ds), rest)
    | '+' :: cs | cs => (digits? cs).map fun (ds, rest) => (some (false, ds), rest)
  | cs => some (none, cs)

def ofWord? (cs : List Char) : Option Numeral := do
  let (negative, cs) := match cs with
    | '-' :: cs => (true, cs)
    | cs => (false, cs)
  let (whole, cs) ← whole? cs
  let (fraction, cs) ← fraction? cs
  let (exponent, cs) ← exponent? cs
  if cs.isEmpty then some ⟨negative, whole, fraction, exponent⟩ else none

/-- Takes digits while the significand stays below `2 ^ 64`; gives back those left over. -/
def accumulate (significand : Nat) : List Char → Nat × List Char
  | [] => (significand, [])
  | c :: cs =>
    let next := significand * 10 + digit c
    if next < 2 ^ (64 : Nat) then accumulate next cs else (significand, c :: cs)

def natOf (ds : List Char) : Nat := ds.foldl (fun n c => n * 10 + digit c) 0

/-- A power of ten, rounded to a float. -/
def tenTo (e : Nat) : Option Binary64 := Binary64.ofDecimal false ⟨1, e⟩

/-- `f * 10 ^ e` in roundings of at most three hundred and eight places each. -/
def scale (f : Binary64) (e : Int) : Option Binary64 :=
  if f.isZero then some f
  else if 308 < e then none
  else if 0 ≤ e then (tenTo e.toNat).bind f.mul
  else if -308 ≤ e then (tenTo (-e).toNat).bind f.div
  else do
    let f ← (tenTo 308).bind f.div
    let e := e + 308
    if f.isZero then some f
    else if -308 ≤ e then (tenTo (-e).toNat).bind f.div
    else some (.zero f.negative)

/-- The significand rounded, then scaled. -/
def approximate (negative : Bool) (significand : Nat) (e : Int) : Option Binary64 :=
  (Binary64.ofNat negative significand).bind (scale · e)

def exponentOf : Option (Bool × List Char) → Int
  | none => 0
  | some (true, ds) => -natOf ds
  | some (false, ds) => natOf ds

/-- A numeral without fraction and exponent whose digits fit in 64 bits. -/
def integer? (negative : Bool) (n : Nat) : Option Number :=
  if negative then
    if n = 0 then none else Number.ofInt? (-n)
  else Number.ofInt? n

def toNumber? (n : Numeral) : Option Number :=
  let (significand, left) := accumulate 0 n.whole
  let (significand', left') := accumulate significand (n.fraction.getD [])
  let taken := (n.fraction.getD []).length - left'.length
  let asFloat := (approximate n.negative significand' (left.length - taken + exponentOf n.exponent)).map Number.float
  if n.fraction.isNone && n.exponent.isNone && left.isEmpty then
    match integer? n.negative significand with
    | some i => some i
    | none => asFloat
  else asFloat

end Numeral

end DocExpand.Json
