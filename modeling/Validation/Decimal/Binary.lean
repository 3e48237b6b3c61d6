/-!
# Binary floating point formats

A format packs a sign, an exponent and a fraction into a word. Reading a word gives the number it
stands for; writing a fraction of natural numbers gives the nearest number of the format, and of
two equally near ones the one with the even significand.

* `Format.decode`: the number a word stands for.
* `Format.nearest`: the word nearest to a quotient.
* `widen`, `narrow`, `ofInt`: conversions between the two formats and from integers.
-/

namespace Validation.Decimal

/-- A power of two. -/
def twoTo (n : Nat) : Nat := Nat.pow 2 n

/-- A power of ten. -/
def tenTo (n : Nat) : Nat := Nat.pow 10 n

/-- A binary floating point format: the significand's digits, the first of which is not stored,
and the bits of the exponent. -/
structure Format where
  digits : Nat
  exponentBits : Nat
deriving DecidableEq

namespace Format

/-- The format of 32-bit words. -/
def single : Format := ⟨24, 8⟩

/-- The format of 64-bit words. -/
def double : Format := ⟨53, 11⟩

/-- The exponent of the last significand digit of the smallest numbers. -/
def minExponent (f : Format) : Int :=
  3 - (twoTo (f.exponentBits - 1) : Int) - f.digits

/-- The word of positive infinity; every greater one without a sign is not a number. -/
def infinityBits (f : Format) : Nat := (twoTo f.exponentBits - 1) * twoTo (f.digits - 1)

/-- The weight of the sign bit. -/
def signBit (f : Format) : Nat := twoTo (f.digits - 1 + f.exponentBits)

end Format

/-- What a word of a floating point format stands for: a finite number is its significand times
a power of two. -/
inductive Binary where
  | notANumber
  | infinite (negative : Bool)
  | finite (negative : Bool) (significand : Nat) (exponent : Int)
deriving DecidableEq

namespace Format

/-- The number that a word stands for. -/
def decode (f : Format) (bits : Nat) : Binary :=
  let negative := f.signBit ≤ bits
  let magnitude := bits % f.signBit
  if f.infinityBits < magnitude then .notANumber
  else if magnitude = f.infinityBits then .infinite negative
  else
    let hidden := twoTo (f.digits - 1)
    let biased := magnitude / hidden
    if biased = 0 then .finite negative magnitude f.minExponent
    else .finite negative (hidden + magnitude % hidden) (f.minExponent + (biased - 1 : Nat))

/-- The quotient rounded to the nearest integer, a half to the even one. -/
def roundHalfEven (num den : Nat) : Nat :=
  let quotient := num / den
  match compare (2 * (num % den)) den with
  | .lt => quotient
  | .eq => quotient + quotient % 2
  | .gt => quotient + 1

/-- `num / (den * 2 ^ e)` as a quotient of natural numbers. -/
def scale (num den : Nat) : Int → Nat × Nat
  | .ofNat e => (num, den * twoTo e)
  | .negSucc e => (num * twoTo (e + 1), den)

/-- The greatest `k` with `2 ^ k ≤ num / den`, for positive numbers. -/
def magnitudeOf (num den : Nat) : Int :=
  let guess : Int := (num.log2 : Int) - den.log2
  let (n, d) := scale num den guess
  if d ≤ n then guess else guess - 1

/-- The word, without its sign, nearest to `num / den`; infinity where the exponent is out of
reach. A significand that rounds up to the next power of two carries into the exponent. -/
def nearestMagnitude (f : Format) (num den : Nat) : Nat :=
  if num = 0 then 0
  else
    let exponent := max (magnitudeOf num den - (f.digits - 1 : Nat)) f.minExponent
    let (n, d) := scale num den exponent
    let bits := (exponent - f.minExponent).toNat * twoTo (f.digits - 1) + roundHalfEven n d
    min bits f.infinityBits

/-- The word nearest to `num / den` with the given sign. -/
def nearest (f : Format) (negative : Bool) (num den : Nat) : Nat :=
  (if negative then f.signBit else 0) + f.nearestMagnitude num den

/-- The word of the number that is not one. -/
def notANumberBits (f : Format) : Nat := f.infinityBits + twoTo (f.digits - 2)

/-- The word of a number in a format that may be another than the one it was read from. -/
def encode (f : Format) : Binary → Nat
  | .notANumber => f.notANumberBits
  | .infinite negative => (if negative then f.signBit else 0) + f.infinityBits
  | .finite negative significand (.ofNat e) => f.nearest negative (significand * twoTo e) 1
  | .finite negative significand (.negSucc e) => f.nearest negative significand (twoTo (e + 1))

end Format

/-- The number a single stands for. -/
def ofSingle (x : Float32) : Binary := Format.single.decode x.toBits.toNat

/-- The number a double stands for. -/
def ofDouble (x : Float) : Binary := Format.double.decode x.toBits.toNat

/-- The double equal to a single. -/
def widen (x : Float32) : Float := Float.ofBits (.ofNat (Format.double.encode (ofSingle x)))

/-- The single nearest to a double. -/
def narrow (x : Float) : Float32 := Float32.ofBits (.ofNat (Format.single.encode (ofDouble x)))

/-- The double nearest to an integer. -/
def ofInt (n : Int) : Float := Float.ofBits (.ofNat (Format.double.nearest (n < 0) n.natAbs 1))

end Validation.Decimal
