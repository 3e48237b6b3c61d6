import Validation.Failure

/-!
# Trials

Running a check on a value is a trial. It ends in a verdict, may leave notes on the way, and may
ask for the verdict of a registered class on a value. It does not know how such a request is
answered: whoever runs the trial does, so a criterion never refers to the registry that it was
compiled in, and classes may refer to each other and to themselves.

* `Trial.bind`: one trial after another.
* `Trial.first`: trials one after another up to the first failure.
-/

namespace Validation

/-- What a check says of a value. -/
abbrev Verdict := Except Failure Unit

/-- A run of checks that ends in a result. -/
inductive Trial (α : Type) where
  | done (result : α)
  /-- A note on the run, and the rest of it. -/
  | note (entry : String) (next : Trial α)
  /-- A request for the verdict of a class on a value, and the rest of the run for each answer. -/
  | cascade (className : String) (value : Value) (next : Verdict → Trial α)

namespace Trial

/-- The first trial, then the one that follows from its result. -/
def bind {α β : Type} : Trial α → (α → Trial β) → Trial β
  | done result, f => f result
  | note entry next, f => note entry (next.bind f)
  | cascade className value next, f => cascade className value fun verdict => (next verdict).bind f

/-- The trial with a function applied to its result. -/
def map {α β : Type} (f : α → β) (t : Trial α) : Trial β := t.bind fun result => done (f result)

instance : Monad Trial where
  pure := done
  bind := bind

/-- Going on with the result alone changes nothing. -/
theorem bind_done {α : Type} (t : Trial α) : t.bind done = t := by
  induction t with
  | done result => rfl
  | note entry next ih => simp [bind, ih]
  | cascade className value next ih => simp [bind, ih]

theorem bind_assoc {α β γ : Type} (t : Trial α) (f : α → Trial β) (g : β → Trial γ) :
    (t.bind f).bind g = t.bind fun result => (f result).bind g := by
  induction t with
  | done result => rfl
  | note entry next ih => simp [bind, ih]
  | cascade className value next ih => simp [bind, ih]

instance : LawfulMonad Trial :=
  LawfulMonad.mk' Trial bind_done (fun _ _ => rfl) bind_assoc

/-- The trial that passes without running anything. -/
def pass : Trial Verdict := done (.ok ())

/-- The trial that fails without running anything. -/
def fail (failure : Failure) : Trial Verdict := done (.error failure)

/-- The first trial and, if it passes, the second. -/
def andThen (t : Trial Verdict) (next : Unit → Trial Verdict) : Trial Verdict :=
  t.bind fun
    | .ok () => next ()
    | .error failure => fail failure

/-- The trial with its failure changed. -/
def mapFailure (f : Failure → Failure) (t : Trial Verdict) : Trial Verdict :=
  t.map (Except.mapError f)

/-- The trials of the members one after another, up to the first failure. -/
def first {α : Type} (test : α → Trial Verdict) : List α → Trial Verdict
  | [] => pass
  | member :: rest => (test member).andThen fun _ => first test rest

/-- The result and the notes of a trial whose requests are all answered by the same function. -/
def run {α : Type} (answer : String → Value → Verdict) : Trial α → α × List String
  | done result => (result, [])
  | note entry next =>
    let (result, notes) := next.run answer
    (result, entry :: notes)
  | cascade className value next => (next (answer className value)).run answer

end Trial

end Validation
