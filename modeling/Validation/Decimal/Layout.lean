import Validation.Decimal.Shortest

/-!
# Texts of floating point numbers

Two ways to write a number, both with the digits of the shortest decimal that reads back.

* `plain`: never with an exponent, and without a point where the number is whole.
* `marked`: always recognisable as a fraction, by a point or by an exponent. The exponent is used
  from `10 ^ 16` on and below `10 ^ (-4)`.
-/

namespace Validation.Decimal

/-- A digit as a character. -/
def digitChar (d : Nat) : Char := Char.ofNat ('0'.toNat + d)

namespace Digits

/-- The decimal written without an exponent; `whole` is what follows a number without a
fraction. -/
def positional (d : Digits) (whole : List Char) : List Char :=
  let text := d.digits.map digitChar
  if d.point ≤ 0 then ['0', '.'] ++ List.replicate d.point.natAbs '0' ++ text
  else
    let before := d.point.toNat
    if text.length ≤ before then text ++ List.replicate (before - text.length) '0' ++ whole
    else text.take before ++ '.' :: text.drop before

/-- The decimal with one digit before the point and an exponent. -/
def scientific (d : Digits) : List Char :=
  let fraction := d.digits.tail.map digitChar
  (d.digits.take 1).map digitChar ++ (if fraction.isEmpty then [] else '.' :: fraction) ++
    'e' :: (toString (d.point - 1)).toList

/-- The decimal with a point or an exponent. -/
def marked (d : Digits) : List Char :=
  if d.point ≤ -4 ∨ 17 ≤ d.point then d.scientific else d.positional ['.', '0']

end Digits

/-- The sign, the number's text and the texts of the values that are no finite numbers. -/
def Format.write (f : Format) (zero : String) (finite : Digits → List Char) (bits : Nat) : String :=
  let signed (negative : Bool) (s : String) := if negative then "-" ++ s else s
  match f.decode bits with
  | .notANumber => "NaN"
  | .infinite negative => signed negative "inf"
  | .finite negative significand exponent =>
    signed negative <|
      if significand = 0 then zero else String.ofList (finite (f.shortest significand exponent))

/-- The text of a word of the format without an exponent. -/
def Format.plain (f : Format) (bits : Nat) : String :=
  f.write "0" (·.positional []) bits

/-- The text of a word of the format that shows it to be a fraction. -/
def Format.marked (f : Format) (bits : Nat) : String :=
  f.write "0.0" Digits.marked bits

/-- The text of a single. -/
def plainSingle (x : Float32) : String := Format.single.plain x.toBits.toNat

/-- The text of a double. -/
def plainDouble (x : Float) : String := Format.double.plain x.toBits.toNat

end Validation.Decimal
