import Validation.Attribute
import Validation.Value.Scalar

/-!
# Numbers

Numeric values and attributes, compared across their kinds: two integers exactly, and all other
pairs as doubles. Not-a-number compares with nothing.
-/

namespace Validation

open Decimal

/-- A number of any numeric kind. -/
inductive Number where
  | int (value : Int)
  | float (value : Float)

namespace Number

/-- The number of a numeric value. -/
def ofValue? : Value → Option Number
  | .float x => some (float (widen x))
  | .double x => some (float x)
  | v => v.integral?.map int

/-- The number of a numeric attribute. -/
def ofAttribute? : Attribute → Option Number
  | .int n => some (int n)
  | .float bits => some (float (.ofBits bits))
  | _ => none

/-- The number as a double, an integer rounded to the nearest one. -/
def toDouble : Number → Float
  | int n => ofInt n
  | float x => x

/-- How two doubles compare as numbers. -/
def compareDoubles? (a b : Float) : Option Ordering :=
  if a < b then some .lt else if b < a then some .gt else if a == b then some .eq else none

/-- How two numbers compare; nothing if one of them is not a number. -/
def compare? : Number → Number → Option Ordering
  | int a, int b => some (compare a b)
  | a, b => compareDoubles? a.toDouble b.toDouble

/-- The number as it stands in a message. -/
def render : Number → String
  | int n => toString n
  | float x => plainDouble x

end Number

end Validation
