import Validation.Type

/-!
# Locations

Where in a schema something is declared: a root, and the steps from it to a nested type. The
text of a location is that of its steps, as in `User#address.@value[i]`.
-/

namespace Validation

/-- A step of a location. -/
inductive Segment where
  /-- A class or type by its name, as a root is rendered. -/
  | root (name : String)
  | property (name : String)
  /-- What an optional holds or an extractor finds. -/
  | held (name : String)
  /-- The items of a list. -/
  | element
  | mapKey
  | mapValue
deriving DecidableEq

/-- The text of a step. -/
def Segment.render : Segment → String
  | root name => name
  | property name => "#" ++ name
  | held name => ".@" ++ name
  | element => "[i]"
  | mapKey => "<key>"
  | mapValue => "<value>"

/-- The way from a root to a declared type. -/
structure Location where
  root : String
  steps : List Segment
deriving DecidableEq

namespace Location

/-- The location of a root. -/
def ofRoot (name : String) : Location := ⟨name, []⟩

/-- The location one step further. -/
def child (l : Location) (step : Segment) : Location := ⟨l.root, l.steps ++ [step]⟩

/-- The number of steps from the root. -/
def depth (l : Location) : Nat := l.steps.length

/-- The text of a location. -/
def render (l : Location) : String := l.root ++ String.join (l.steps.map Segment.render)

end Location

/-- A declared type at its location. -/
structure Position where
  location : Location
  type : DeclaredType

end Validation
