/-
  DocExpand.Yaml.Scalar — what an unquoted scalar stands for.

  Null, a boolean, an integer of at most 128 bits, a float, or its own text. Integers are
  decimal, or hexadecimal, octal or binary after `0x`, `0o`, `0b`; a numeral with a
  leading zero is text, and so is a float that overflows.
-/

import DocExpand.Binary64.Decimal
import DocExpand.Yaml.Basic

namespace DocExpand.Yaml

/-- The meaning of an unquoted scalar. -/
inductive Meaning where
  | null
  | bool (value : Bool)
  | int (value : Int)
  | float (value : Float64)
  | text
  deriving DecidableEq

namespace Scalar

open scoped CorePower

def isNull (cs : List Char) : Bool :=
  [[], ['~'], "null".toList, "Null".toList, "NULL".toList].contains cs

def bool? (cs : List Char) : Option Bool :=
  if ["true".toList, "True".toList, "TRUE".toList].contains cs then some true
  else if ["false".toList, "False".toList, "FALSE".toList].contains cs then some false
  else none

/-- Digits after a sign and a zero: text, though it looks like a number. -/
def isPaddedDigits (cs : List Char) : Bool :=
  let cs := match cs with
    | '+' :: cs | '-' :: cs => cs
    | cs => cs
  match cs with
  | '0' :: c :: cs => (c :: cs).all Char.isDigit
  | _ => false

def digitValue? (radix : Nat) (c : Char) : Option Nat :=
  let v := if c.isDigit then c.toNat - '0'.toNat
    else if 'a' ≤ c ∧ c ≤ 'z' then c.toNat - 'a'.toNat + 10
    else if 'A' ≤ c ∧ c ≤ 'Z' then c.toNat - 'A'.toNat + 10
    else radix
  if v < radix then some v else none

def nat? (radix : Nat) : List Char → Option Nat
  | [] => none
  | ds => ds.foldlM (fun n c => (digitValue? radix c).map (n * radix + ·)) 0

/-- A magnitude with its radix mark; decimal digits are not padded. -/
def magnitude? (padded : Bool) : List Char → Option Nat
  | '0' :: 'x' :: ds => nat? 16 ds
  | '0' :: 'o' :: ds => nat? 8 ds
  | '0' :: 'b' :: ds => nat? 2 ds
  | ds => if padded then none else nat? 10 ds

/-- An integer from `-2 ^ 127` to below `2 ^ 128`. -/
def int? (cs : List Char) : Option Int :=
  match cs with
  | '-' :: ds => (magnitude? (isPaddedDigits cs) ds).bind fun n => if n ≤ 2 ^ (127 : Nat) then some (-n) else none
  | '+' :: ds | ds => (magnitude? (isPaddedDigits cs) ds).bind fun n => if n < 2 ^ (128 : Nat) then some n else none

/-- Splits a run of digits off. -/
def spanDigits (cs : List Char) : List Char × List Char := (cs.takeWhile Char.isDigit, cs.dropWhile Char.isDigit)

def natOf (ds : List Char) : Nat := ds.foldl (fun n c => n * 10 + (c.toNat - '0'.toNat)) 0

/-- The exponent at the end of a decimal; zero when there is none. -/
def exponent? : List Char → Option Int
  | [] => some 0
  | 'e' :: cs | 'E' :: cs =>
    let (negative, cs) := match cs with
      | '-' :: cs => (true, cs)
      | '+' :: cs | cs => (false, cs)
    match spanDigits cs with
    | ([], _) => none
    | (ds, []) => some (if negative then -natOf ds else natOf ds)
    | _ => none
  | _ => none

/-- Digits, a point, digits, an exponent; one digit at least before the exponent. -/
def decimal? (cs : List Char) : Option Binary64.Decimal :=
  let (whole, rest) := spanDigits cs
  let (fraction, rest) := match rest with
    | '.' :: rest => spanDigits rest
    | rest => ([], rest)
  if whole ++ fraction = [] then none
  else (exponent? rest).map fun e => ⟨natOf (whole ++ fraction), e - fraction.length⟩

def finite? (negative : Bool) (cs : List Char) : Option Binary64 :=
  (decimal? cs).bind (Binary64.ofDecimal negative)

def isInfinity (cs : List Char) : Bool := [".inf".toList, ".Inf".toList, ".INF".toList].contains cs

def isNan (cs : List Char) : Bool := [".nan".toList, ".NaN".toList, ".NAN".toList].contains cs

def float? (cs : List Char) : Option Float64 :=
  match cs with
  | '-' :: cs => if isInfinity cs then some (.infinite true) else (finite? true cs).map .finite
  | '+' :: cs =>
    if isInfinity cs then some (.infinite false) else (finite? false cs).map .finite
  | cs =>
    if isInfinity cs then some (.infinite false)
    else if isNan cs then some .nan
    else (finite? false cs).map .finite

def meaning (cs : List Char) : Meaning :=
  if isNull cs then .null
  else match bool? cs with
    | some b => .bool b
    | none =>
      match int? cs with
      | some i => .int i
      | none =>
        if isPaddedDigits cs then .text
        else match float? cs with
          | some f => .float f
          | none => .text

end Scalar

end DocExpand.Yaml
