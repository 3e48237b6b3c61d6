import Validation.Kind

/-!
# Constraints

A constraint is a declaration resolved against its kind: with all its attributes, its place in the
order of checks, its message, and the constraints it expands into.
-/

namespace Validation

/-- A resolved constraint. -/
structure Constraint where
  kind : Kind
  attributes : Attributes
  order : Order
  message : Option String
  /-- The constraints it expands into, in the order of the kind's definition. -/
  parts : List Constraint

namespace Constraint

/-- The constraint of a kind with resolved attributes and parts. Order and message are the
declared ones, or else those of the kind. -/
def assemble (kind : Kind) (attributes : Attributes) (parts : List Constraint) : Constraint where
  kind := kind
  attributes := attributes
  order := (((attributes.get? orderName).bind Attribute.int?).bind Order.ofInt?) <|> kind.order
  message := ((attributes.get? messageName).bind Attribute.text?) <|> kind.message
  parts := parts

/-- The name of the kind and the attributes. -/
def settings (c : Constraint) : Settings := ⟨c.kind.name, c.attributes⟩

/-- The attributes that are parameters of the message: all but the reserved ones. -/
def params (c : Constraint) : List (String × String) :=
  (c.attributes.entries.filter fun (name, _) => !isReserved name).map fun (name, value) =>
    (name, value.render)

/-- The text of the constraint, as in `@size(max=3, min=0)`. -/
def render (c : Constraint) : String :=
  let entries := c.attributes.entries.map fun (name, value) => name ++ "=" ++ value.render
  "@" ++ c.kind.name ++ (if entries.isEmpty then "" else "(" ++ ", ".intercalate entries ++ ")")

end Constraint

end Validation
