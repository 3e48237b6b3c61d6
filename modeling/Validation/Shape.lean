/-!
# Scalar kinds and shapes

A criterion tests either scalars of one kind, taken out of their values beforehand, or values as
they are. The shape of a criterion says which.

* `Shape.Carrier`, in the module on values, is the type that a criterion of the shape tests.
-/

namespace Validation

/-- The kinds of scalars that are not wrapped in a value. -/
inductive ScalarKind where
  | boolean
  | char
  | byte
  | short
  | int
  | long
  | float
  | double
deriving DecidableEq

namespace ScalarKind

/-- The name of the scalar type. -/
def name : ScalarKind → String
  | boolean => "boolean"
  | char => "char"
  | byte => "byte"
  | short => "short"
  | int => "int"
  | long => "long"
  | float => "float"
  | double => "double"

/-- The name of the reference type for the kind, whose values may be null. -/
def boxedName : ScalarKind → String
  | boolean => "Boolean"
  | char => "Character"
  | byte => "Byte"
  | short => "Short"
  | int => "Integer"
  | long => "Long"
  | float => "Float"
  | double => "Double"

/-- Whether the scalars are numbers. -/
def isNumeric : ScalarKind → Bool
  | boolean | char => false
  | _ => true

/-- Whether the scalars are integers. -/
def isIntegral : ScalarKind → Bool
  | byte | short | int | long => true
  | _ => false

end ScalarKind

/-- What a criterion tests: scalars of one kind, or values of any kind. -/
inductive Shape where
  | scalar (kind : ScalarKind)
  | reference
deriving DecidableEq

namespace Shape

/-- Whether the criterion tests scalars. -/
def isScalar : Shape → Bool
  | scalar _ => true
  | reference => false

/-- The name of the shape. -/
def name : Shape → String
  | scalar kind => kind.name
  | reference => "reference"

end Shape

end Validation
