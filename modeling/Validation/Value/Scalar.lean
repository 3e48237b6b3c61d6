import Validation.Shape
import Validation.Value.Basic

/-!
# Scalars in values

Criteria over scalars take them out of the values they are given. A value whose kind is another
numeric one is accepted when the number is one of the scalar kind: integers that fit, and as
floating point numbers all numbers within the range.

* `Shape.Carrier`: the type that a criterion of a shape tests.
* `ScalarKind.ofValue?`, `ScalarKind.toValue`: the scalar in a value, and the value of a scalar.
-/

namespace Validation

open Decimal

/-- The type of the scalars of a kind. -/
abbrev ScalarKind.Carrier : ScalarKind → Type
  | boolean => Bool
  | char => Char
  | byte => Int8
  | short => Int16
  | int => Int32
  | long => Int64
  | float => Float32
  | double => Float

/-- The type that a criterion of a shape tests. -/
abbrev Shape.Carrier : Shape → Type
  | scalar kind => kind.Carrier
  | reference => Value

namespace Value

/-- The integer of a value of one of the integral kinds. -/
def integral? : Value → Option Int
  | byte n => some n.toInt
  | short n => some n.toInt
  | int n => some n.toInt
  | long n => some n.toInt
  | _ => none

/-- The integer of a value of an integral kind, if it lies between the bounds. -/
def integralWithin? (low high : Int) (v : Value) : Option Int :=
  v.integral?.filter fun n => low ≤ n && n ≤ high

/-- The number of a numeric value as a double; a long is rounded to the nearest one. -/
def double? : Value → Option Float
  | float x => some (widen x)
  | double x => some x
  | v => v.integral?.map ofInt

end Value

/-- The single nearest to a double, unless a finite double would become infinite. -/
def narrow? (x : Float) : Option Float32 :=
  let narrowed := narrow x
  if narrowed.isFinite || !x.isFinite then some narrowed else none

namespace ScalarKind

/-- The scalar of the kind in a value. -/
def ofValue? : (kind : ScalarKind) → Value → Option kind.Carrier
  | boolean, .bool b => some b
  | boolean, _ => none
  | char, .char c => some c
  | char, _ => none
  | byte, v => (v.integralWithin? (-0x80) 0x7F).map Int8.ofInt
  | short, v => (v.integralWithin? (-0x8000) 0x7FFF).map Int16.ofInt
  | int, v => (v.integralWithin? (-0x80000000) 0x7FFFFFFF).map Int32.ofInt
  | long, v => v.integral?.map Int64.ofInt
  | float, .float x => some x
  | float, v => v.double?.bind narrow?
  | double, v => v.double?

/-- The value of a scalar. -/
def toValue : (kind : ScalarKind) → kind.Carrier → Value
  | boolean, b => .bool b
  | char, c => .char c
  | byte, n => .byte n
  | short, n => .short n
  | int, n => .int n
  | long, n => .long n
  | float, x => .float x
  | double, x => .double x

end ScalarKind

namespace Shape

/-- What a criterion of the shape tests in a value. -/
def ofValue? : (shape : Shape) → Value → Option shape.Carrier
  | scalar kind, v => kind.ofValue? v
  | reference, v => some v

/-- The value that what a criterion of the shape tests was taken from. -/
def toValue : (shape : Shape) → shape.Carrier → Value
  | scalar kind, s => kind.toValue s
  | reference, v => v

end Shape

end Validation
