import Validation.Value.Basic

/-!
# Accessors

How a property of an object is read: from the stored field of its name, or by a function of the
object.
-/

namespace Validation

/-- Where the value of a property comes from. -/
inductive PropertySource where
  /-- The stored field of the property's name. -/
  | field
  /-- A function of the object. -/
  | getter
deriving DecidableEq

/-- The way to the value of one property. -/
structure Accessor where
  name : String
  /-- The function of the object, or nothing for the stored field. -/
  getter : Option (Value → Value)

namespace Accessor

/-- Where the value comes from. -/
def source (a : Accessor) : PropertySource := if a.getter.isSome then .getter else .field

/-- The value of the property in an object; null for a field that is missing. -/
def read (a : Accessor) (object : Value) : Value :=
  match a.getter with
  | some getter => getter object
  | none => (object.field? a.name).getD .null

end Accessor

end Validation
