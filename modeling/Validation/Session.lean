import Validation.Engine.Evaluate

/-!
# Sessions

A session holds an engine, validators under names, and criteria taken out of their validators. A
validator keeps its engine in being; a criterion that was taken out does not. So the engine of a
session is there as long as the session has not let go of it or some validator is left, and after
that a criterion finds no class that it refers to.
-/

namespace Validation

/-- An engine with what was made by it, under names. -/
structure Session where
  engine : Engine
  /-- Whether the session itself still holds the engine. -/
  holdsEngine : Bool
  validators : List (String × Validator)
  /-- The criteria taken out of their validators. -/
  taken : List (String × Criterion.On Value)

namespace Session

/-- How long a chain of cascades may get in one evaluation. -/
def cascadeLimit : Nat := 100000

/-- A session with an engine. -/
def start (e : Engine) : Session := ⟨e, true, [], []⟩

/-- Whether there still is an engine. -/
def hasEngine (s : Session) : Bool := s.holdsEngine || !s.validators.isEmpty

/-- A request to the engine. -/
def ask {α : Type} (request : Request α) (s : Session) : Except AnalysisError α × Session :=
  let (result, engine) := request.run s.engine
  (result, { s with engine })

/-- Makes the validator of a root and keeps it under a name. -/
def keepValidator (name : String) (root : Root) (s : Session) :
    Except AnalysisError Validator × Session :=
  match s.ask (Engine.validator root) with
  | (.ok v, s) => (.ok v, { s with validators := setField name v s.validators })
  | (.error e, s) => (.error e, s)

/-- The verdict of a criterion on a value, with the notes of the run; nothing if the limit for
chains of cascades is reached. -/
def validate (c : Criterion.On Value) (v : Value) (s : Session) :
    Option (Verdict × List String) × Session :=
  if s.hasEngine then
    match s.engine.evaluate cascadeLimit c v with
    | some (verdict, state) => (some (verdict, state.notes), { s with engine := state.engine })
    | none => (none, s)
  else (some ((c.validate v).run Engine.detached), s)

/-- Takes the criterion out of a validator, which is gone then. -/
def take (name : String) (s : Session) : Session :=
  match s.validators.lookup name with
  | some v =>
    { s with validators := s.validators.filter (·.1 != name)
             taken := setField name v.criterion s.taken }
  | none => s

/-- Lets go of the engine. -/
def letGo (s : Session) : Session := { s with holdsEngine := false }

/-- Validates an object by its own class. -/
def check (v : Value) (s : Session) :
    Except AnalysisError (Option (Verdict × List String)) × Session :=
  match v.className? with
  | none => (.error (.unknownClass v.kindName), s)
  | some name =>
    match s.ask (Engine.validator (.ofClass name)) with
    | (.error e, s) => (.error e, s)
    | (.ok validator, s) =>
      let (outcome, s) := s.validate validator.criterion v
      (.ok outcome, s)

end Session

end Validation
