import Validation.Constraint.Basic
import Validation.Location

/-!
# From a constraint to its criterion

A constraint at a position becomes one criterion. The constraints it expands into come in
ascending order, those at or before its own place before its own check and the others after it.
If it has a message, every failure from within gets that message and the constraint's parameters;
an outer constraint decorates what an inner one has decorated.

* `Constraint.process`: the criterion of a constraint at a position.
-/

namespace Validation

namespace Constraint

/-- The decoration of failures by a constraint's message and parameters. -/
def decorate (message : String) (params : List (String × String)) : Enhancer := fun failure =>
  (failure.withTemplate message).setParams params

/-- The check of the constraint itself, from the first factory for the type. -/
def ownCriterion (p : Position) (c : Constraint) : Except AnalysisError ShapedCriterion :=
  match c.kind.factory? p.type with
  | none => .error (.noApplicableFactory p.location.render c.render p.type.render)
  | some factory => do
    let own ← factory.produce p.type c.settings
    if own.shape = p.type.shape then return own
    else throw (.shapeMismatch p.type.shape.name own.shape.name)

/-- A criterion that is made when it is asked for. After an error nothing more is asked for, so
what a kind expands into is not made in vain, of which there may be much. -/
abbrev Deferred := Unit → Except AnalysisError ShapedCriterion

/-- The criteria of a constraint in the order in which they are run: the parts up to its own
place, its own check, and the other parts. -/
def sequence (order : Order) (own : List Deferred) (parts : List (Order × Deferred)) :
    List Deferred :=
  let sorted := Order.sort (·.1) parts
  (sorted.takeWhile (·.1.le order)).map (·.2) ++ own ++
    (sorted.dropWhile (·.1.le order)).map (·.2)

/-- One criterion of those in a sequence, or the first error. -/
def combine (shape : Shape) (criteria : List Deferred) : Except AnalysisError ShapedCriterion := do
  let unit ← criteria.foldlM (fun unit c => do unit.push (← c ())) (ShapedCriteria.empty shape)
  return unit.simplify

mutual

/-- The criterion of a constraint at a position. -/
def process (p : Position) : Constraint → Except AnalysisError ShapedCriterion
  | ⟨kind, attributes, order, message, parts⟩ => do
    let c : Constraint := ⟨kind, attributes, order, message, parts⟩
    let own := if kind.isCombinator then [] else [fun _ => c.ownCriterion p]
    let unit ← combine p.type.shape (sequence order own (deferAll p parts))
    return match message with
      | some text => unit.enhance (decorate text c.params)
      | none => unit

/-- The criteria of the parts at a position, with their places in the order of checks. -/
def deferAll (p : Position) : List Constraint → List (Order × Deferred)
  | [] => []
  | c :: rest => (c.order, fun _ => process p c) :: deferAll p rest

end

end Constraint

end Validation
