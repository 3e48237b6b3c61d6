import Validation.Trial

/-!
# Criteria

A criterion is put together from single checks: several in order, of which the first failure
counts, and criteria whose failures are decorated on their way out. What a check and an enhancer
are is left open here; a criterion on values or scalars is `Criterion.On`.

* `simplify`: the same criterion without truths and without aggregates in aggregates.
* `validate`: the trial of a criterion on what it tests.
-/

namespace Validation

/-- A criterion put together from checks and enhancers. -/
inductive Criterion (κ ε : Type) where
  /-- Nothing to check. -/
  | truth
  | leaf (check : κ)
  /-- All members in order. -/
  | all (members : List (Criterion κ ε))
  /-- A criterion with an enhancer for its failures. -/
  | enhanced (inner : Criterion κ ε) (enhancer : ε)
deriving Inhabited

/-- A check of what it tests. -/
abbrev Check (α : Type) := α → Trial Verdict

/-- What is done to a failure on its way out. -/
abbrev Enhancer := Failure → Failure

/-- A criterion that tests `α`. -/
abbrev Criterion.On (α : Type) := Criterion (Check α) Enhancer

namespace Criterion

variable {κ ε : Type}

/-- Whether there is nothing to check, as it is written. -/
def isTruth : Criterion κ ε → Bool
  | truth => true
  | _ => false

/-- The criterion with an enhancer. Truth never fails and stays as it is. -/
def enhance (c : Criterion κ ε) (enhancer : ε) : Criterion κ ε :=
  match c with
  | truth => truth
  | c => enhanced c enhancer

/-- The criterion of members that are neither truth nor aggregates. -/
def gather : List (Criterion κ ε) → Criterion κ ε
  | [] => truth
  | [member] => member
  | members => all members

mutual

/-- The members that a criterion stands for in an aggregate: none for truth, those of an
aggregate, and otherwise one. -/
def members : Criterion κ ε → List (Criterion κ ε)
  | truth => []
  | leaf check => [leaf check]
  | all cs => membersOf cs
  | enhanced inner enhancer =>
    match gather (members inner) with
    | truth => []
    | inner => [enhanced inner enhancer]

/-- The members that a list of criteria stands for in an aggregate. -/
def membersOf : List (Criterion κ ε) → List (Criterion κ ε)
  | [] => []
  | c :: rest => members c ++ membersOf rest

end

/-- The criterion without truths and without aggregates in aggregates. -/
def simplify (c : Criterion κ ε) : Criterion κ ε := gather c.members

/-- Both criteria, the first one first. -/
def and (a b : Criterion κ ε) : Criterion κ ε := (all [a, b]).simplify

mutual

/-- The number of checks in the criterion. -/
def leafCount : Criterion κ ε → Nat
  | truth => 0
  | leaf _ => 1
  | all cs => leafCounts cs
  | enhanced inner _ => leafCount inner

/-- The number of checks in a list of criteria. -/
def leafCounts : List (Criterion κ ε) → Nat
  | [] => 0
  | c :: rest => leafCount c + leafCounts rest

end

mutual

/-- The criterion with its checks and enhancers replaced. -/
def map {κ' ε' : Type} (f : κ → κ') (g : ε → ε') : Criterion κ ε → Criterion κ' ε'
  | truth => truth
  | leaf check => leaf (f check)
  | all cs => all (mapAll f g cs)
  | enhanced inner enhancer => enhanced (map f g inner) (g enhancer)

/-- The criteria with their checks and enhancers replaced. -/
def mapAll {κ' ε' : Type} (f : κ → κ') (g : ε → ε') :
    List (Criterion κ ε) → List (Criterion κ' ε')
  | [] => []
  | c :: rest => map f g c :: mapAll f g rest

end

variable {α : Type}

mutual

/-- The trial of a criterion: its checks in order up to the first failure, which passes through
the enhancers around its check, innermost first. -/
def validate : Criterion.On α → α → Trial Verdict
  | truth, _ => .pass
  | leaf check, x => check x
  | all cs, x => validateAll cs x
  | enhanced inner enhancer, x => (validate inner x).mapFailure enhancer

/-- The trial of the members of an aggregate. -/
def validateAll : List (Criterion.On α) → α → Trial Verdict
  | [], _ => .pass
  | c :: rest, x => (validate c x).andThen fun _ => validateAll rest x

end

end Criterion

end Validation
