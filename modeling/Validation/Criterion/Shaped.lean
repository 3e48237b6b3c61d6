import Validation.AnalysisError
import Validation.Criterion.Basic
import Validation.Value.Scalar

/-!
# Criteria of a shape

A criterion together with the shape that says what it tests, and aggregates of criteria of one
shape.

* `ShapedCriterion.validate`: the trial on a value. Where the criterion tests scalars, a value
  without such a scalar is a type mismatch.
* `ShapedCriterion.lift`: the criterion as one on values.
* `ShapedCriteria.push`: a criterion of another shape is refused.
-/

namespace Validation

/-- A criterion and the shape of what it tests. -/
structure ShapedCriterion where
  shape : Shape
  criterion : Criterion.On shape.Carrier

namespace ShapedCriterion

/-- Nothing to check, in a shape. -/
def truth (shape : Shape) : ShapedCriterion := ⟨shape, .truth⟩

/-- A criterion on values. -/
def onValues (c : Criterion.On Value) : ShapedCriterion := ⟨.reference, c⟩

/-- Whether there is nothing to check, as it is written. -/
def isTruth (c : ShapedCriterion) : Bool := c.criterion.isTruth

/-- The criterion without truths and without aggregates in aggregates. -/
def simplify (c : ShapedCriterion) : ShapedCriterion := ⟨c.shape, c.criterion.simplify⟩

/-- The criterion with an enhancer. -/
def enhance (c : ShapedCriterion) (enhancer : Enhancer) : ShapedCriterion :=
  ⟨c.shape, c.criterion.enhance enhancer⟩

/-- The number of checks in the criterion. -/
def leafCount (c : ShapedCriterion) : Nat := c.criterion.leafCount

/-- The trial of the criterion on a value. -/
def validate (c : ShapedCriterion) (v : Value) : Trial Verdict :=
  match c.shape.ofValue? v with
  | some x => c.criterion.validate x
  | none => .fail (.typeMismatch c.shape.name v)

/-- The criterion as one on values: a criterion on scalars becomes a single check. -/
def lift : ShapedCriterion → Criterion.On Value
  | ⟨.reference, c⟩ => c
  | ⟨.scalar kind, c⟩ => if c.isTruth then .truth else .leaf (validate ⟨.scalar kind, c⟩)

end ShapedCriterion

/-- Criteria of one shape, in order. -/
structure ShapedCriteria where
  shape : Shape
  members : List (Criterion.On shape.Carrier)

namespace ShapedCriteria

/-- No criteria. -/
def empty (shape : Shape) : ShapedCriteria := ⟨shape, []⟩

/-- The criteria with one more at the end, if it has their shape. -/
def push (cs : ShapedCriteria) (c : ShapedCriterion) : Except AnalysisError ShapedCriteria :=
  if h : c.shape = cs.shape then .ok ⟨cs.shape, cs.members ++ [h ▸ c.criterion]⟩
  else .error (.shapeMismatch cs.shape.name c.shape.name)

/-- The criteria as one, simplified. -/
def simplify (cs : ShapedCriteria) : ShapedCriterion :=
  ⟨cs.shape, (Criterion.all cs.members).simplify⟩

end ShapedCriteria

end Validation
