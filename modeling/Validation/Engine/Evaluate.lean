import Validation.Engine.Basic

/-!
# Validating values

Running a criterion answers its requests for the verdicts of classes: the class is compiled unless
it is already, and its criterion is run on the value. A chain of such requests may go on for ever
if classes compute ever new values, so its length has a limit; an evaluation within the limit has
a result.

* `Engine.evaluate`: the verdict of a criterion on a value, with the notes of the run.
* `Engine.detached`: the answer to requests where the engine is gone.
-/

namespace Validation

/-- An engine in use, and the notes of the run so far. -/
structure Evaluation where
  engine : Engine
  /-- The notes of the run so far, the latest first. -/
  trail : List String

/-- The notes of the run so far, in order. -/
def Evaluation.notes (s : Evaluation) : List String := s.trail.reverse

/-- A step of an evaluation. It gives no result where the limit for chains of cascades is reached. -/
abbrev Evaluating (α : Type) := StateT Evaluation Option α

/-- Runs a trial with the given treatment of notes and requests. -/
def Trial.runIn {m : Type → Type} [Monad m] {α : Type} (note : String → m Unit)
    (answer : String → Value → m Verdict) : Trial α → m α
  | done result => pure result
  | .note entry next => do
    note entry
    next.runIn note answer
  | cascade className value next => do
    let verdict ← answer className value
    (next verdict).runIn note answer

namespace Engine

/-- The failure of a value of a class that cannot be analysed. -/
def analysisFailure (className : String) (e : AnalysisError) (v : Value) : Failure :=
  (Failure.new "analysis_error"
    "cascaded class \x7bclass\x7d cannot be compiled: \x7berror\x7d" v).setParams
    [("class", className), ("error", e.message)]

/-- The failure of a value of a class whose engine is gone. -/
def unavailableFailure (className : String) (v : Value) : Failure :=
  (Failure.new "cascade_unavailable"
    "cascaded class \x7bclass\x7d cannot be resolved: its engine was dropped" v).setParams
    [("class", className)]

/-- The answer to a request where the engine is gone. -/
def detached (className : String) (v : Value) : Verdict :=
  .error (unavailableFailure className v)

/-- Adds a note to those of the run. -/
def addNote (entry : String) : Evaluating Unit :=
  modify fun s => { s with trail := entry :: s.trail }

/-- A request to the engine in use. -/
def asking {α : Type} (request : Request α) : Evaluating (Except AnalysisError α) := do
  let s ← get
  let (result, engine) := request.run s.engine
  set { s with engine }
  return result

/-- The answer to a request for the verdict of a class, in a chain of at most `limit` requests. -/
def answer : Nat → String → Value → Evaluating Verdict
  | 0, _, _ => failure
  | limit + 1, className, v => do
    match ← asking (validator (.ofClass className)) with
    | .error e => return .error (analysisFailure className e v)
    | .ok validator => (validator.criterion.validate v).runIn addNote (answer limit)

/-- The verdict of a criterion on a value, with the notes of the run and the engine after it. -/
def evaluate (limit : Nat) (e : Engine) (c : Criterion.On Value) (v : Value) :
    Option (Verdict × Evaluation) :=
  ((c.validate v).runIn addNote (answer limit)).run ⟨e, []⟩

end Engine

end Validation
