import Validation.Type
import Validation.Value.Basic

/-!
# Extractors

A constraint that does not apply to a type may apply to what its values hold. An extractor says
to which type it leads from a declared one, and what a value holds.
-/

namespace Validation

/-- A way from a value to the value that it holds. -/
structure Extractor where
  name : String
  /-- The type of the held value, for the declared types that the extractor is for. -/
  resolve : DeclaredType → Option DeclaredType
  /-- The held value, or nothing where it is absent. -/
  extract : Value → Option Value

namespace Extractor

/-- What an optional holds. A value that is no optional stands for itself. -/
def present? : Value → Option Value
  | .optional content => content
  | .null => none
  | v => some v

/-- From an optional scalar to the scalar. -/
def optionalScalar : Extractor where
  name := "value"
  resolve
    | .optionalScalar kind => some (.scalar kind)
    | _ => none
  extract := present?

/-- From an optional to its content. -/
def optional : Extractor where
  name := "value"
  resolve
    | .optional content => some content.type
    | _ => none
  extract := present?

/-- The extractors that every engine has, in the order in which they are tried. -/
def defaults : List Extractor := [optionalScalar, optional]

end Extractor

end Validation
