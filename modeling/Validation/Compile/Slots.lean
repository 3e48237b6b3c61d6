import Validation.Constraint.Process
import Validation.Node.Basic

/-!
# Compiling a tree by order

A tree becomes one criterion. Constraints are worked off by their places in the order of checks,
those of one place from the root down. Whenever the constraints of a place are done, every node
with nothing left to do, neither in its own constraints nor below, is finished: the class it
cascades into is linked, and its criterion is wrapped and added to that of the node above. So a
part whose constraints all come early is checked before the whole's constraints that come later.

The nodes lie in slots, each before those below it, so that a sweep from the last slot to the
first finishes whole subtrees at once.

* `Slot`: a node with what is done of it.
* `Node.slots`: the slots of a tree before any work.
* `compile`: the criterion of a tree.
-/

namespace Validation

/-- What answers to the name of a cascaded class with the criterion of its values. -/
abbrev Linker := String → Except AnalysisError (Criterion.On Value)

/-- A node with what is done of it. -/
structure Slot where
  node : Node
  /-- The slot of the node above, and how this one's part lies in the whole. -/
  parent : Option (Nat × Wrapper)
  /-- The criteria of the node that are done and not yet handed on. -/
  unit : ShapedCriteria
  /-- The number of constraints that are not done. -/
  pendingItems : Nat
  /-- The number of nodes right below that are not absorbed. -/
  pendingChildren : Nat
  /-- Whether the criterion is part of that of the node above. -/
  absorbed : Bool

namespace Node

mutual

/-- The slots of a tree, the first of which has the given number. -/
def slotsFrom (parent : Option (Nat × Wrapper)) (index : Nat) : Node → List Slot
  | ⟨location, type, constraints, cascade, children⟩ =>
    ⟨⟨location, type, constraints, cascade, children⟩, parent, .empty type.shape,
      constraints.length, children.length, false⟩ :: slotsOf index (index + 1) children

/-- The slots of the trees of children of the slot `parent`, from the number `index` on. -/
def slotsOf (parent index : Nat) : List (Child Node) → List Slot
  | [] => []
  | ⟨wrapper, node⟩ :: rest =>
    slotsFrom (some (parent, wrapper)) index node ++ slotsOf parent (index + node.count) rest

end

/-- The slots of a tree. -/
def slots (n : Node) : List Slot := n.slotsFrom none 0

end Node

/-- The list with the member at a place replaced, unless that fails or there is no such member. -/
def updateAt {α ε : Type} (members : List α) (index : Nat) (f : α → Except ε α) :
    Except ε (List α) :=
  match members[index]? with
  | none => .ok members
  | some member => return members.set index (← f member)

namespace Slot

/-- The slot with a constraint done. -/
def work (c : Constraint) (s : Slot) : Except AnalysisError Slot := do
  let unit ← s.unit.push (← c.process s.node.position)
  return { s with unit, pendingItems := s.pendingItems - 1 }

/-- The criterion of a node whose constraints and parts are done: the class that it cascades into
is linked last. -/
def finish (link : Linker) (s : Slot) : Except AnalysisError ShapedCriterion := do
  match s.node.cascade with
  | some name => return (← s.unit.push (.onValues (← link name))).simplify
  | none => return s.unit.simplify

/-- The slot with a part's criterion added. -/
def absorb (c : Criterion.On Value) (s : Slot) : Except AnalysisError Slot := do
  let unit ← s.unit.push (.onValues c)
  return { s with unit, pendingChildren := s.pendingChildren - 1 }

/-- Whether the node still has to be handed on and nothing is left to do. -/
def isReady (s : Slot) : Bool := !s.absorbed && s.pendingItems == 0 && s.pendingChildren == 0

/-- The slot after its criterion is handed on. -/
def handOn (s : Slot) : Slot := { s with unit := .empty s.node.type.shape, absorbed := true }

end Slot

/-- Hands the criterion of a slot on to the node above if the slot is ready. -/
def handOnAt (link : Linker) (slots : List Slot) (index : Nat) :
    Except AnalysisError (List Slot) :=
  match slots[index]? with
  | none => .ok slots
  | some s =>
    match s.parent with
    | none => .ok slots
    | some (parent, wrapper) =>
      if s.isReady then do
        let wrapped ← wrapper.wrap (← s.finish link)
        updateAt (slots.set index s.handOn) parent (·.absorb wrapped)
      else .ok slots

/-- The numbers of the slots that still have to be handed on and whose own constraints are done.
They alone are ready, or become so when a node below is handed on. -/
def openIndices (slots : List Slot) : List Nat :=
  slots.zipIdx.filterMap fun (s, index) =>
    if !s.absorbed && s.pendingItems == 0 then some index else none

/-- Hands on the criteria of all slots that are ready or become so, from the last slot to the
first. -/
def sweep (link : Linker) (slots : List Slot) : Except AnalysisError (List Slot) :=
  (openIndices slots).reverse.foldlM (handOnAt link) slots

/-- The constraints of a place in the order of checks, with the numbers of their slots. -/
def itemsOf (slots : List Slot) (order : Order) : List (Nat × Constraint) :=
  slots.zipIdx.flatMap fun (s, index) =>
    (s.node.constraints.filter (·.order == order)).map (index, ·)

/-- Works off the constraints of a place in the order of checks, and hands on what is ready. -/
def bucket (link : Linker) (slots : List Slot) (order : Order) :
    Except AnalysisError (List Slot) := do
  let worked ← (itemsOf slots order).foldlM
    (fun slots (index, c) => updateAt slots index (Slot.work c)) slots
  sweep link worked

/-- The places in the order of checks that the constraints of a tree have, ascending. No place at
all always comes first, also where no constraint is without one: a part with nothing but a cascade
is done then. -/
def bucketOrders (n : Node) : List Order :=
  let places := n.nodes.flatMap fun node => node.constraints.map (·.order)
  none :: Order.sort id (places.filter (·.isSome)).eraseDups

/-- The criterion of a tree on values. -/
def compile (link : Linker) (n : Node) : Except AnalysisError (Criterion.On Value) := do
  let slots ← (bucketOrders n).foldlM (bucket link) n.slots
  match slots with
  | [] => return .truth
  | root :: _ => return (← root.finish link).lift

end Validation
