import Validation.Decimal.Binary
import Validation.Text.Digit

/-!
# Reading numbers

Integers and floating point numbers in their usual spelling: an optional sign, then digits, for a
floating point number with a point and an exponent, or a word for infinity or not-a-number. No
blanks, no digit separators. A floating point number is rounded once, to the format asked for.

* `readNat?`, `readInt?`: decimal integers.
* `Format.read?`: the word of a format nearest to the number read.
-/

namespace Validation.Decimal

open Text

/-- The value of a run of decimal digits. -/
def valueOf (digits : List Char) : Nat :=
  digits.foldl (fun n c => 10 * n + (c.toNat - '0'.toNat)) 0

/-- A natural number: one or more decimal digits. -/
def readNat? (cs : List Char) : Option Nat :=
  if cs.isEmpty then none else if cs.all isAsciiDigit then some (valueOf cs) else none

/-- A leading sign, true for minus, and what follows it. -/
def readSign : List Char → Bool × List Char
  | '-' :: rest => (true, rest)
  | '+' :: rest => (false, rest)
  | cs => (false, cs)

/-- An integer: an optional sign and decimal digits. -/
def readInt? (cs : List Char) : Option Int :=
  let (negative, rest) := readSign cs
  (readNat? rest).map fun n => if negative then -(n : Int) else n

/-- A decimal as it is read: `count * 10 ^ exponent`. -/
structure Scaled where
  count : Nat
  exponent : Int

/-- The exponent that may follow the digits: nothing, or a letter and an integer. -/
def readExponent? : List Char → Option Int
  | [] => some 0
  | c :: rest => if c = 'e' ∨ c = 'E' then readInt? rest else none

/-- A decimal without its sign: digits with at most one point among them, at least one digit in
all, then the exponent. -/
def readDecimal? (cs : List Char) : Option Scaled :=
  let whole := cs.takeWhile isAsciiDigit
  let rest := cs.dropWhile isAsciiDigit
  let (fraction, rest) := match rest with
    | '.' :: rest => (rest.takeWhile isAsciiDigit, rest.dropWhile isAsciiDigit)
    | _ => ([], rest)
  if whole.isEmpty && fraction.isEmpty then none
  else (readExponent? rest).map fun exponent =>
    ⟨valueOf (whole ++ fraction), exponent - fraction.length⟩

/-- The number of bits that no quotient of the format's size needs: an exponent of ten beyond it
gives zero or infinity. -/
def Format.reach (f : Format) : Nat := twoTo f.exponentBits

/-- The word nearest to a decimal. An exponent so great that the digits cannot make up for it is
cut first, so that no huge power is computed. -/
def Format.ofDecimal (f : Format) (negative : Bool) (d : Scaled) : Nat :=
  let digits : Int := (Nat.toDigits 10 d.count).length
  let sign := if negative then f.signBit else 0
  if d.count = 0 then sign
  else if f.reach < d.exponent + digits then sign + f.infinityBits
  else if d.exponent + digits < -f.reach then sign
  else match d.exponent with
    | .ofNat e => f.nearest negative (d.count * tenTo e) 1
    | .negSucc e => f.nearest negative d.count (tenTo (e + 1))

/-- A word of the format: a decimal, or one of the words `inf`, `infinity` and `nan` in letters of
either case, each with an optional sign. -/
def Format.read? (f : Format) (cs : List Char) : Option Nat :=
  let (negative, rest) := readSign cs
  let sign := if negative then f.signBit else 0
  let word := rest.map Char.toLower
  if word = "inf".toList ∨ word = "infinity".toList then some (sign + f.infinityBits)
  else if word = "nan".toList then some (sign + f.notANumberBits)
  else (readDecimal? rest).map (f.ofDecimal negative)

/-- A single from its text. -/
def readSingle? (s : String) : Option Float32 :=
  (Format.single.read? s.toList).map fun bits => Float32.ofBits (.ofNat bits)

/-- A double from its text. -/
def readDouble? (s : String) : Option Float :=
  (Format.double.read? s.toList).map fun bits => Float.ofBits (.ofNat bits)

end Validation.Decimal
