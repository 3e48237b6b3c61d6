import Validation.Decimal.Binary

/-!
# The shortest decimal that reads back

Every decimal in the interval of reals that round to a number of a format stands for that number.
Of these decimals the one with the fewest digits is chosen, of several the nearest to the number,
and of two equally near ones the greater.

The interval reaches half way to the two neighbours of the number, which at a power of two are
unequally far, and holds its ends exactly when the significand is even. On a decimal grid it holds
a point only if it holds one of the two grid points next to the number, so only these are tried.
-/

namespace Validation.Decimal

/-- A positive decimal: its digits, the first of them not zero, and the place of the point, counted
in digits from the first one. `⟨[1, 5], 1⟩` is 1.5 and `⟨[1, 5], -1⟩` is 0.015. -/
structure Digits where
  digits : List Nat
  point : Int
deriving DecidableEq

/-- The reals that round to a positive number, as numerators over one denominator. -/
structure Interval where
  low : Nat
  value : Nat
  high : Nat
  den : Nat
  /-- Whether the two ends belong to it. -/
  closed : Bool

/-- The interval of the reals that round to `significand * 2 ^ exponent`. -/
def Format.interval (f : Format) (significand : Nat) (exponent : Int) : Interval :=
  let below := if significand = twoTo (f.digits - 1) ∧ f.minExponent < exponent then 1 else 2
  let (unit, den) := Format.scale 1 4 (-exponent)
  ⟨(4 * significand - below) * unit, 4 * significand * unit, (4 * significand + 2) * unit, den,
    significand % 2 = 0⟩

/-- The number of decimal digits of a natural number, one for zero. -/
def decimalLength (n : Nat) : Nat := (Nat.toDigits 10 n).length

/-- The `k` with `10 ^ (k - 1) ≤ num / den < 10 ^ k`, for positive numbers. -/
def pointOf (num den : Nat) : Int :=
  if den ≤ num then decimalLength (num / den)
  else 1 - decimalLength ((den + num - 1) / num - 1)

/-- Whether the decimal `count * up / down` lies in the interval. -/
def Interval.holds (i : Interval) (count up down : Nat) : Bool :=
  let point := count * up * i.den
  if i.closed then i.low * down ≤ point && point ≤ i.high * down
  else i.low * down < point && point < i.high * down

/-- The point of the grid with step `10 ^ exponent` that lies in the interval next to its value:
the nearer of two, the upper one at equal distance. -/
def Interval.onGrid? (i : Interval) (exponent : Int) : Option Nat :=
  let up := tenTo exponent.toNat
  let down := tenTo (-exponent).toNat
  let step := up * i.den
  let lower := i.value * down / step
  let upperNearer := step ≤ 2 * (i.value * down % step)
  match i.holds lower up down, i.holds (lower + 1) up down with
  | true, true => some (if upperNearer then lower + 1 else lower)
  | true, false => some lower
  | false, true => some (lower + 1)
  | false, false => none

/-- The decimal `count * 10 ^ exponent` without the zeros at its end. -/
def Digits.ofCount (count : Nat) (exponent : Int) : Digits :=
  let all := (Nat.toDigits 10 count).map fun c => c.toNat - '0'.toNat
  ⟨(all.reverse.dropWhile (· == 0)).reverse, exponent + all.length⟩

/-- The decimal with the fewest digits in the interval. Seventeen digits tell all doubles apart,
so a grid of at most that many digits holds a point. -/
def Interval.shortest (i : Interval) : Digits :=
  let point := pointOf i.value i.den
  let onGrid (count : Nat) : Option Digits :=
    (i.onGrid? (point - (count + 1 : Nat))).map (Digits.ofCount · (point - (count + 1 : Nat)))
  ((List.range 17).findSome? onGrid).getD ⟨[], 0⟩

/-- The decimal with the fewest digits that reads back as a positive number of the format. -/
def Format.shortest (f : Format) (significand : Nat) (exponent : Int) : Digits :=
  (f.interval significand exponent).shortest

end Validation.Decimal
