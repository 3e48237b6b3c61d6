import Validation.Type
import Validation.Wrapper.Accessor

/-!
# Class schemas

What is declared of a class: annotations on the class itself, and its properties, each with its
type and the way to its value. A name may be declared more than once; one declaration of each name
is effective.
-/

namespace Validation

/-- A declared property of a class. -/
structure Property where
  name : String
  type : AnnotatedType
  /-- The function that computes the property, or nothing for the stored field. -/
  getter : Option (Value → Value)

/-- The way to the value of a property. -/
def Property.accessor (p : Property) : Accessor := ⟨p.name, p.getter⟩

/-- Where the value of a property comes from. -/
def Property.source (p : Property) : PropertySource := p.accessor.source

/-- The declarations of a class. -/
structure ClassSchema where
  name : String
  annotations : List Annotation
  properties : List Property

namespace ClassSchema

/-- The declarations chosen so far with one more considered: it is taken for a new name, and in
place of one of its name that is not from the preferred source if it is itself. -/
def consider (preferred : PropertySource) (chosen : List Property) (p : Property) :
    List Property :=
  match chosen with
  | [] => [p]
  | q :: rest =>
    if q.name = p.name then
      (if q.source ≠ preferred ∧ p.source = preferred then p else q) :: rest
    else q :: consider preferred rest p

/-- The effective declarations, one of each name in the order of the names' first declarations. -/
def effectiveProperties (c : ClassSchema) (preferred : PropertySource) : List Property :=
  c.properties.foldl (consider preferred) []

/-- The constraints declared on the class itself, lists written out. -/
def declarations (c : ClassSchema) : List Declaration :=
  c.annotations.flatMap Annotation.declarations

end ClassSchema

end Validation
