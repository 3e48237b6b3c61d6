import Validation.Decimal.Read
import Validation.Json.Document
import Validation.Value.Basic

/-!
# Numbers of JSON documents

An integer of 64 bits stands for a long, and every other number for a double that is found in
steps: the digits as far as they fit into 64 bits without a sign are rounded to a double, which is
then multiplied or divided by a power of ten. So a double may differ in its last place from the
nearest one.
-/

namespace Validation.JsonNumber

open Decimal

/-- The greatest integer of 64 bits without a sign. -/
def maxSignificand : Nat := 0xFFFFFFFFFFFFFFFF

/-- The greatest exponent that is counted. -/
def maxExponent : Nat := 0x7FFFFFFF

/-- The digits added to a number as long as it does not get greater than `limit`, and the digits
left. -/
def absorb (limit : Nat) (n : Nat) : List Char → Nat × List Char
  | [] => (n, [])
  | c :: rest =>
    let next := 10 * n + (c.toNat - '0'.toNat)
    if limit < next then (n, c :: rest) else absorb limit next rest

/-- A power of ten as a double. -/
def powerOfTen (n : Nat) : Float := ofInt (tenTo n)

/-- A double times a power of ten, in steps of at most `10 ^ 308`; nothing if that is infinite.
`steps` bounds the number of divisions: after two of them no significand is left. -/
def scaled? : Nat → Float → Int → Option Float
  | steps, x, exponent =>
    if exponent.natAbs ≤ 308 then
      if 0 ≤ exponent then
        let y := x * powerOfTen exponent.natAbs
        if y.isInf then none else some y
      else some (x / powerOfTen exponent.natAbs)
    else if x == 0 then some x
    else if 0 ≤ exponent then none
    else match steps with
      | 0 => some 0
      | steps + 1 => scaled? steps (x / powerOfTen 308) (exponent + 308)

/-- The exponent with what the digits left out and those of the fraction amount to. -/
def clampedExponent (n : Int) : Int := max (-0x80000000) (min n 0x7FFFFFFF)

/-- The double without its sign; nothing if it is out of range. -/
def magnitude? (n : JsonNumber) : Option Float :=
  let (significand, left) := absorb maxSignificand 0 n.whole
  let (significand, fractionLeft) := absorb maxSignificand significand n.fraction
  let start : Int := (left.length : Int) - (n.fraction.length - fractionLeft.length : Nat)
  let x := ofInt significand
  match n.exponent with
  | none => scaled? 3 x start
  | some (negative, digits) =>
    let (exponent, beyond) := absorb maxExponent 0 digits
    if beyond.isEmpty then
      scaled? 3 x (clampedExponent (if negative then start - exponent else start + exponent))
    else if significand ≠ 0 ∧ !negative then none
    else some 0

/-- The integer, if the number is spelt as one and has 64 bits. A zero with a sign is none. -/
def integer? (n : JsonNumber) : Option Int :=
  if n.fraction.isEmpty && n.exponent.isNone then
    let m := valueOf n.whole
    if n.negative then (if 0 < m ∧ m ≤ 0x8000000000000000 then some (-m) else none)
    else if m ≤ 0x7FFFFFFFFFFFFFFF then some m else none
  else none

/-- The value of a number; nothing if it is out of range. -/
def value? (n : JsonNumber) : Option Value :=
  match n.integer? with
  | some i => some (.long (.ofInt i))
  | none => n.magnitude?.map fun x => .double (if n.negative then -x else x)

end Validation.JsonNumber
