import Validation.Constraint.Basic
import Validation.Location
import Validation.Wrapper.Basic

/-!
# Constrained nodes

What there is to check at a position of a type and below it: the constraints declared there, the
class to cascade into, and the nodes of nested positions, each with the way its part lies in the
whole. A cascaded class is named only, so the tree of a class that refers to itself is finite.
-/

namespace Validation

/-- A node below another, and how its part lies in the whole. -/
structure Child (ν : Type) where
  wrapper : Wrapper
  node : ν

/-- What there is to check at a position and below it. -/
structure Node where
  location : Location
  type : DeclaredType
  /-- The constraints at the position, in the order of their declarations. -/
  constraints : List Constraint
  /-- The class whose constraints the value has to satisfy as well. -/
  cascade : Option String
  children : List (Child Node)

namespace Node

/-- The position of the node. -/
def position (n : Node) : Position := ⟨n.location, n.type⟩

/-- Whether there is nothing to check. -/
def isEmpty (n : Node) : Bool :=
  n.constraints.isEmpty && n.cascade.isNone && n.children.isEmpty

mutual

/-- The number of nodes in the tree. -/
def count : Node → Nat
  | ⟨_, _, _, _, children⟩ => 1 + countAll children

/-- The number of nodes in the trees of children. -/
def countAll : List (Child Node) → Nat
  | [] => 0
  | ⟨_, node⟩ :: rest => count node + countAll rest

end

mutual

/-- The nodes of the tree, each before the nodes below it. -/
def nodes : Node → List Node
  | ⟨location, type, constraints, cascade, children⟩ =>
    ⟨location, type, constraints, cascade, children⟩ :: nodesOf children

/-- The nodes of the trees of children. -/
def nodesOf : List (Child Node) → List Node
  | [] => []
  | ⟨_, node⟩ :: rest => nodes node ++ nodesOf rest

end

/-- The first node whose location has the given text. -/
def find? (n : Node) (location : String) : Option Node :=
  n.nodes.find? (·.location.render == location)

/-- The classes that nodes of the tree cascade into, each once. -/
def cascades (n : Node) : List String := (n.nodes.filterMap (·.cascade)).eraseDups

end Node

end Validation
