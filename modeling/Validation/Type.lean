import Validation.Attributes
import Validation.Shape

/-!
# Declared types

The declared type of every place that holds a value, with the annotations written on it and on
the types nested in it. A constraint declaration names a kind of constraint and gives values to
its attributes; two attribute names, `message` and `order`, mean the same for every kind.

* `AnnotatedType.declarations`: the constraints declared at a place, lists written out.
* `AnnotatedType.isCascaded`: whether the values of a class are to be validated in turn.
-/

namespace Validation

/-- The attribute that holds the text of failures. -/
def messageName : String := "message"

/-- The attribute that holds the place in the order of checks. -/
def orderName : String := "order"

/-- Whether an attribute name means the same for every kind. -/
def isReserved (name : String) : Bool := name == messageName || name == orderName

/-- A constraint as it is written at a place: the name of its kind, and attribute values. -/
structure Declaration where
  kind : String
  attributes : Attributes
deriving DecidableEq

/-- An annotation at a place. -/
inductive Annotation where
  | constraint (declaration : Declaration)
  /-- Several constraints in one annotation. -/
  | constraints (declarations : List Declaration)
  /-- The class of the place is to be validated in turn. -/
  | cascade
  /-- An annotation that is none of this library's. -/
  | other (name : String)
deriving DecidableEq

/-- The kinds of containers that are gone through in order. -/
inductive CollectionKind where
  | list
  | set
  | collection
deriving DecidableEq

/-- The name of the container type. -/
def CollectionKind.name : CollectionKind → String
  | list => "List"
  | set => "Set"
  | collection => "Collection"

mutual

/-- The declared type of a place. -/
inductive DeclaredType where
  /-- Scalars, which are never null. -/
  | scalar (kind : ScalarKind)
  /-- Scalars or null. -/
  | boxed (kind : ScalarKind)
  | text
  | array (element : AnnotatedType)
  | collection (kind : CollectionKind) (element : AnnotatedType)
  | map (key value : AnnotatedType)
  | optional (content : AnnotatedType)
  /-- An optional scalar. -/
  | optionalScalar (kind : ScalarKind)
  /-- A class, by the name under which it is registered. -/
  | classOf (name : String)
  /-- Values of any kind. -/
  | any

/-- A declared type with the annotations written on it. -/
structure AnnotatedType where
  type : DeclaredType
  annotations : List Annotation

end

deriving instance DecidableEq for DeclaredType, AnnotatedType

namespace DeclaredType

/-- The shape of the criteria that test values of the type. -/
def shape : DeclaredType → Shape
  | scalar kind => .scalar kind
  | _ => .reference

/-- The scalar kind of a scalar or boxed type. -/
def scalarKind? : DeclaredType → Option ScalarKind
  | scalar kind | boxed kind => some kind
  | _ => none

/-- Whether the values are numbers, or numbers and null. -/
def isNumeric (t : DeclaredType) : Bool := t.scalarKind?.any (·.isNumeric)

/-- Whether the values have a size. -/
def isSized : DeclaredType → Bool
  | text | array _ | collection .. | map .. => true
  | _ => false

/-- Whether the values may be null. -/
def isReference : DeclaredType → Bool
  | scalar _ => false
  | _ => true

/-- The name of a class type. -/
def className? : DeclaredType → Option String
  | classOf name => some name
  | _ => none

/-- The text of the type, without its annotations. -/
def render : DeclaredType → String
  | scalar kind => kind.name
  | boxed kind => kind.boxedName
  | text => "String"
  | array ⟨element, _⟩ => element.render ++ "[]"
  | collection kind ⟨element, _⟩ => kind.name ++ "<" ++ element.render ++ ">"
  | map ⟨key, _⟩ ⟨value, _⟩ => "Map<" ++ key.render ++ ", " ++ value.render ++ ">"
  | optional ⟨content, _⟩ => "Optional<" ++ content.render ++ ">"
  | optionalScalar .int => "OptionalInt"
  | optionalScalar kind => "Optional" ++ kind.boxedName
  | classOf name => name
  | any => "Object"

end DeclaredType

namespace Annotation

/-- The constraints that the annotation declares. -/
def declarations : Annotation → List Declaration
  | constraint declaration => [declaration]
  | constraints declarations => declarations
  | cascade | other _ => []

end Annotation

namespace AnnotatedType

/-- The type without annotations. -/
def plain (type : DeclaredType) : AnnotatedType := ⟨type, []⟩

/-- The constraints declared at the place, lists written out, in order. -/
def declarations (t : AnnotatedType) : List Declaration :=
  t.annotations.flatMap Annotation.declarations

/-- Whether the class of the place is to be validated in turn. -/
def isCascaded (t : AnnotatedType) : Bool := t.annotations.contains .cascade

end AnnotatedType

end Validation
