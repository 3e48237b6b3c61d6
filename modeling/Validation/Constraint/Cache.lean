import Validation.Constraint.Basic

/-!
# Interned constraints

Declarations of one kind that resolve to the same attributes are one constraint, which is put
together once and kept. A constraint's parts are interned before it, and stay when putting it
together fails later.

* `Interning`: operations that keep what they have done to the cache when they fail.
* `ConstraintCache.intern`: the constraint of a declaration.
-/

namespace Validation

/-- What tells interned constraints apart. -/
structure ConstraintKey where
  kind : String
  attributes : Attributes
deriving DecidableEq

/-- The key of a constraint. -/
def Constraint.key (c : Constraint) : ConstraintKey := ⟨c.kind.name, c.attributes⟩

/-- The interned constraints, in the order in which they were put together. -/
structure ConstraintCache where
  entries : List (ConstraintKey × Constraint)

namespace ConstraintCache

/-- No interned constraints. -/
def empty : ConstraintCache := ⟨[]⟩

/-- The constraint interned under a key. -/
def find? (cache : ConstraintCache) (key : ConstraintKey) : Option Constraint :=
  cache.entries.lookup key

/-- The number of interned constraints. -/
def size (cache : ConstraintCache) : Nat := cache.entries.length

/-- The cache with a constraint more, unless one is interned under the key. -/
def insert (cache : ConstraintCache) (key : ConstraintKey) (c : Constraint) : ConstraintCache :=
  match cache.find? key with
  | some _ => cache
  | none => ⟨cache.entries ++ [(key, c)]⟩

end ConstraintCache

/-- An operation on the cache. What it has interned stays when it fails. -/
abbrev Interning (α : Type) := ExceptT AnalysisError (StateM ConstraintCache) α

/-- Parts of parts may nest this deep. -/
def maxCombinationDepth : Nat := 32

namespace Kind

mutual

/-- The constraint of a kind with the declared attributes, `depth` expansions below the
declaration that is interned. -/
def internAt (depth : Nat) : Kind → Attributes → Interning Constraint
  | ⟨name, order, message, specs, factories, parts⟩, declared => do
    let kind : Kind := ⟨name, order, message, specs, factories, parts⟩
    if maxCombinationDepth < depth then
      throw (.invalidDefinition name
        ("combined constraints nest deeper than " ++ toString maxCombinationDepth))
    let attributes ← kind.resolve declared
    match (← get).find? ⟨name, attributes⟩ with
    | some interned => return interned
    | none =>
      let parts ← internParts (depth + 1) name attributes parts
      let assembled := Constraint.assemble kind attributes parts
      modify (·.insert ⟨name, attributes⟩ assembled)
      return ((← get).find? ⟨name, attributes⟩).getD assembled

/-- The constraints that a constraint of the given kind and attributes expands into. -/
def internParts (depth : Nat) (outerKind : String) (outer : Attributes) :
    List (Part Kind) → Interning (List Constraint)
  | [] => return []
  | ⟨target, sources⟩ :: rest => do
    let declared ← Part.instantiate (κ := Kind) ⟨target, sources⟩ outerKind outer
    let part ← internAt depth target declared
    return part :: (← internParts depth outerKind outer rest)

end

/-- The constraint of a kind with the declared attributes. -/
def intern (k : Kind) (declared : Attributes) : Interning Constraint := k.internAt 0 declared

end Kind

end Validation
