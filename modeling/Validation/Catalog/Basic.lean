import Validation.Kind

/-!
# Catalogs

The kinds of constraints that declarations can name. A name stands for one kind: a second kind of
the same name is refused.
-/

namespace Validation

/-- Kinds by name, in the order of their registration. -/
structure Catalog where
  kinds : List Kind

namespace Catalog

/-- No kinds. -/
def empty : Catalog := ⟨[]⟩

/-- The kind of the name. -/
def find? (c : Catalog) (name : String) : Option Kind := c.kinds.find? (·.name == name)

/-- Whether there is a kind of the name. -/
def contains (c : Catalog) (name : String) : Bool := (c.find? name).isSome

/-- The kind that a declaration names. -/
def resolve (c : Catalog) (name : String) : Except AnalysisError Kind :=
  match c.find? name with
  | some kind => .ok kind
  | none => .error (.unknownConstraint name)

/-- The catalog with a kind more, unless there is one of its name. -/
def register (c : Catalog) (kind : Kind) : Except AnalysisError Catalog :=
  if c.contains kind.name then
    .error (.invalidDefinition kind.name "constraint kind is already registered")
  else .ok ⟨c.kinds ++ [kind]⟩

/-- The names of the kinds, ascending. -/
def names (c : Catalog) : List String := (c.kinds.map (·.name)).mergeSort fun a b => !(b < a)

/-- The number of kinds. -/
def size (c : Catalog) : Nat := c.kinds.length

end Catalog

end Validation
