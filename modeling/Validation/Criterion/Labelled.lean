import Validation.Criterion.Basic

/-!
# Telling criteria apart

Checks and enhancers are functions, and two functions cannot be compared. A label given to each
when it is made tells them apart, and with the labels the structure of two criteria can be
compared.

* `Criterion.same`: equality of structure, checks and enhancers being compared by their labels.
* `Criterion.unlabelled`: the criterion to run.
-/

namespace Validation

/-- Something with a label of its own. -/
structure Labelled (β : Type) where
  label : Nat
  content : β

/-- A criterion whose checks and enhancers carry labels. -/
abbrev Criterion.LabelledOn (α : Type) := Criterion (Labelled (Check α)) (Labelled Enhancer)

namespace Criterion

variable {α : Type}

mutual

/-- Whether two criteria are put together alike from the same checks and enhancers. -/
def same : Criterion.LabelledOn α → Criterion.LabelledOn α → Bool
  | truth, truth => true
  | leaf a, leaf b => a.label == b.label
  | all as, all bs => sameAll as bs
  | enhanced a f, enhanced b g => f.label == g.label && same a b
  | _, _ => false

/-- Whether two lists of criteria are put together alike. -/
def sameAll : List (Criterion.LabelledOn α) → List (Criterion.LabelledOn α) → Bool
  | [], [] => true
  | a :: as, b :: bs => same a b && sameAll as bs
  | _, _ => false

end

/-- The criterion without its labels. -/
def unlabelled (c : Criterion.LabelledOn α) : Criterion.On α := c.map (·.content) (·.content)

end Criterion

end Validation
