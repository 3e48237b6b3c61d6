import Mathlib.Data.List.Forall2
import Validation.Engine.Evaluate

/-!
# Trials one after another

Trials compose like the steps of a program that stops at the first failure. With fixed answers to its
requests a trial comes to a verdict, `Trial.verdict`. Where notes and requests are dealt with by
programs on a state, it comes to a result and a state, `Trial.Runs`; in an engine, which changes with
the requests, this is `Trial.Yields`.

* `verdict_first_ok`, `verdict_first_error`: the verdict of trials in a row.
* `runs_andThen`, `runs_mapFailure`: what one trial after another and a decorated trial come to.
-/

namespace Validation

namespace Trial

variable {α : Type}

@[simp]
theorem pass_andThen (next : Unit → Trial Verdict) : pass.andThen next = next () := rfl

@[simp]
theorem fail_andThen (f : Failure) (next : Unit → Trial Verdict) :
    (fail f).andThen next = fail f := rfl

theorem andThen_assoc (t : Trial Verdict) (u v : Unit → Trial Verdict) :
    (t.andThen u).andThen v = t.andThen fun x => (u x).andThen v := by
  unfold andThen
  rw [bind_assoc]
  congr 1
  funext verdict
  cases verdict <;> rfl

@[simp]
theorem andThen_pass (t : Trial Verdict) : (t.andThen fun _ => pass) = t := by
  induction t with
  | done verdict => cases verdict <;> rfl
  | note entry next ih => exact congrArg (note entry) ih
  | cascade className value next ih => exact congrArg (cascade className value) (funext ih)

@[simp]
theorem mapFailure_pass (f : Enhancer) : pass.mapFailure f = pass := rfl

@[simp]
theorem mapFailure_fail (f : Enhancer) (g : Failure) : (fail g).mapFailure f = fail (f g) := rfl

/-- A failure is changed on its way out, so an unchanged one leaves the trial as it is. -/
@[simp]
theorem mapFailure_id (t : Trial Verdict) : t.mapFailure id = t := by
  induction t with
  | done verdict => cases verdict <;> rfl
  | note entry next ih => exact congrArg (note entry) ih
  | cascade className value next ih => exact congrArg (cascade className value) (funext ih)

theorem mapFailure_mapFailure (f g : Enhancer) (t : Trial Verdict) :
    (t.mapFailure f).mapFailure g = t.mapFailure fun failure => g (f failure) := by
  unfold mapFailure map
  rw [bind_assoc]
  congr 1
  funext verdict
  cases verdict <;> rfl

theorem mapFailure_andThen (f : Enhancer) (t : Trial Verdict) (u : Unit → Trial Verdict) :
    (t.andThen u).mapFailure f = (t.mapFailure f).andThen fun x => (u x).mapFailure f := by
  unfold mapFailure andThen map
  rw [bind_assoc, bind_assoc]
  congr 1
  funext verdict
  cases verdict <;> rfl

theorem first_append (test : α → Trial Verdict) (l l' : List α) :
    first test (l ++ l') = (first test l).andThen fun _ => first test l' := by
  induction l with
  | nil => rfl
  | cons a l ih => simp only [List.cons_append, first, ih, andThen_assoc]

/-- Members that are tried alike, pair by pair, are tried alike in a row. -/
theorem first_of_forall₂ {β : Type} {test : α → Trial Verdict} {test' : β → Trial Verdict}
    {l : List α} {l' : List β} (h : List.Forall₂ (fun a b => test a = test' b) l l') :
    first test l = first test' l' := by
  induction h with
  | nil => rfl
  | cons hhead _ ih => rw [first, first, hhead, ih]

theorem first_congr {test test' : α → Trial Verdict} {l : List α}
    (h : ∀ a ∈ l, test a = test' a) : first test l = first test' l :=
  first_of_forall₂ (List.forall₂_same.2 h)

theorem first_map {β : Type} (test : β → Trial Verdict) (f : α → β) (l : List α) :
    first test (l.map f) = first (fun a => test (f a)) l := by
  induction l with
  | nil => rfl
  | cons a l ih => rw [List.map_cons, first, first, ih]

theorem first_flatMap {β : Type} (test : β → Trial Verdict) (f : α → List β) (l : List α) :
    first test (l.flatMap f) = first (fun a => first test (f a)) l := by
  induction l with
  | nil => rfl
  | cons a l ih => rw [List.flatMap_cons, first_append, ih, first]

theorem mapFailure_first (f : Enhancer) (test : α → Trial Verdict) (l : List α) :
    (first test l).mapFailure f = first (fun a => (test a).mapFailure f) l := by
  induction l with
  | nil => rfl
  | cons a l ih => rw [first, mapFailure_andThen, ih, first]

/-- The verdict of a trial whose requests are all answered by the same function. -/
def verdict (answer : String → Value → Verdict) (t : Trial Verdict) : Verdict := (t.run answer).1

section Verdict

variable {answer : String → Value → Verdict}

theorem verdict_bind (t : Trial Verdict) (f : Verdict → Trial Verdict) :
    verdict answer (t.bind f) = verdict answer (f (verdict answer t)) := by
  induction t with
  | done result => rfl
  | note entry next ih => exact ih
  | cascade className value next ih => exact ih _

theorem verdict_andThen (t : Trial Verdict) (u : Unit → Trial Verdict) :
    verdict answer (t.andThen u) =
      match verdict answer t with
      | .ok () => verdict answer (u ())
      | .error f => .error f := by
  unfold andThen
  rw [verdict_bind]
  rcases verdict answer t with _ | _ <;> rfl

theorem verdict_mapFailure (f : Failure → Failure) (t : Trial Verdict) :
    verdict answer (t.mapFailure f) = (verdict answer t).mapError f :=
  verdict_bind t _

theorem verdict_pass : pass.verdict answer = .ok () ↔ True := iff_of_true rfl trivial

theorem verdict_fail (f : Failure) : (fail f).verdict answer = .ok () ↔ False :=
  iff_of_false nofun id

/-- A change of failures does not change what passes. -/
theorem verdict_mapFailure_ok (f : Failure → Failure) (t : Trial Verdict) :
    (t.mapFailure f).verdict answer = .ok () ↔ t.verdict answer = .ok () := by
  rw [verdict_mapFailure]
  cases t.verdict answer with
  | ok => exact Iff.rfl
  | error g => exact iff_of_false nofun nofun

/-- A row of trials passes exactly when every member does. -/
theorem verdict_first_ok {test : α → Trial Verdict} {l : List α} :
    verdict answer (first test l) = .ok () ↔ ∀ a ∈ l, verdict answer (test a) = .ok () := by
  induction l with
  | nil => simp [first, pass, verdict, run]
  | cons a l ih =>
    rw [first, verdict_andThen, List.forall_mem_cons, ← ih]
    rcases verdict answer (test a) with _ | _ <;> simp

/-- **A row of trials fails as a member does** before which all members pass. -/
theorem verdict_first_error {test : α → Trial Verdict} {l : List α} {f : Failure} :
    verdict answer (first test l) = .error f ↔
      ∃ pre a post, l = pre ++ a :: post ∧ (∀ b ∈ pre, verdict answer (test b) = .ok ()) ∧
        verdict answer (test a) = .error f := by
  constructor
  · induction l with
    | nil => exact fun h => nomatch h
    | cons b l ih =>
      rw [first, verdict_andThen]
      intro h
      cases hb : verdict answer (test b) with
      | error g =>
        rw [hb] at h
        exact ⟨[], b, l, rfl, by simp, hb.trans h⟩
      | ok =>
        rw [hb] at h
        obtain ⟨pre, a, post, rfl, hpre, ha⟩ := ih h
        exact ⟨b :: pre, a, post, rfl, List.forall_mem_cons.2 ⟨hb, hpre⟩, ha⟩
  · rintro ⟨pre, a, post, rfl, hpre, ha⟩
    rw [first_append, verdict_andThen, verdict_first_ok.2 hpre, first]
    simp only [verdict_andThen, ha]

end Verdict

section RunIn

variable {m : Type → Type} [Monad m] [LawfulMonad m] {note : String → m Unit}
  {answer : String → Value → m Verdict}

theorem runIn_bind {β : Type} (note : String → m Unit) (answer : String → Value → m Verdict)
    (t : Trial α) (f : α → Trial β) :
    (t.bind f).runIn note answer = (do (f (← t.runIn note answer)).runIn note answer) := by
  induction t with
  | done result => simp [bind, runIn]
  | note entry next ih => simp [bind, runIn, ih]
  | cascade className value next ih => simp [bind, runIn, ih]

theorem runIn_mapFailure_andThen (f : Enhancer) (t : Trial Verdict) (u : Unit → Trial Verdict) :
    ((t.mapFailure f).andThen u).runIn note answer = (do
      match ← t.runIn note answer with
      | .ok () => (u ()).runIn note answer
      | .error failure => return .error (f failure)) := by
  unfold andThen mapFailure map
  rw [bind_assoc, runIn_bind]
  refine congrArg _ (funext fun verdict => ?_)
  cases verdict <;> rfl

end RunIn

section Runs

variable {σ : Type} {note : String → StateT σ Option Unit}
  {answer : String → Value → StateT σ Option Verdict} {s s' : σ}

/-- What a trial comes to where notes and requests are dealt with by programs on a state: its result,
and the state after it. -/
def Runs (note : String → StateT σ Option Unit) (answer : String → Value → StateT σ Option Verdict)
    (t : Trial α) (s : σ) (result : α) (s' : σ) : Prop :=
  (t.runIn note answer).run s = some (result, s')

theorem runs_done {result r : α} :
    (done result).Runs note answer s r s' ↔ r = result ∧ s' = s := by
  simp [Runs, runIn, eq_comm]

theorem runs_bind {β : Type} {t : Trial α} {f : α → Trial β} {r : β} :
    (t.bind f).Runs note answer s r s' ↔
      ∃ a s₁, t.Runs note answer s a s₁ ∧ (f a).Runs note answer s₁ r s' := by
  simp only [Runs, runIn_bind, StateT.run_bind, Option.bind_eq_bind, Option.bind_eq_some_iff,
    Prod.exists]

theorem runs_pass {verdict : Verdict} :
    pass.Runs note answer s verdict s' ↔ verdict = .ok () ∧ s' = s := runs_done

theorem runs_fail {f : Failure} {verdict : Verdict} :
    (fail f).Runs note answer s verdict s' ↔ verdict = .error f ∧ s' = s := runs_done

/-- **One trial after another** fails as the first does, or else comes to what the second does. -/
theorem runs_andThen {t : Trial Verdict} {u : Unit → Trial Verdict} {verdict : Verdict} :
    (t.andThen u).Runs note answer s verdict s' ↔
      (∃ f, t.Runs note answer s (.error f) s' ∧ verdict = .error f) ∨
        ∃ s₁, t.Runs note answer s (.ok ()) s₁ ∧ (u ()).Runs note answer s₁ verdict s' := by
  unfold andThen
  rw [runs_bind]
  constructor
  · rintro ⟨_ | _, s₁, ht, hu⟩
    case error f =>
      obtain ⟨rfl, rfl⟩ := runs_fail.1 hu
      exact .inl ⟨f, ht, rfl⟩
    case ok => exact .inr ⟨s₁, ht, hu⟩
  · rintro (⟨f, ht, rfl⟩ | ⟨s₁, ht, hu⟩)
    · exact ⟨.error f, s', ht, runs_fail.2 ⟨rfl, rfl⟩⟩
    · exact ⟨.ok (), s₁, ht, hu⟩

theorem runs_mapFailure {t : Trial Verdict} {g : Failure → Failure} {verdict : Verdict} :
    (t.mapFailure g).Runs note answer s verdict s' ↔
      ∃ v, t.Runs note answer s v s' ∧ v.mapError g = verdict := by
  simp only [mapFailure, map, runs_bind, runs_done]
  constructor
  · rintro ⟨v, s₁, ht, rfl, rfl⟩
    exact ⟨v, ht, rfl⟩
  · rintro ⟨v, ht, rfl⟩
    exact ⟨v, s', ht, rfl, rfl⟩

theorem runs_mapFailure_ok {t : Trial Verdict} {g : Failure → Failure} :
    (t.mapFailure g).Runs note answer s (.ok ()) s' ↔ t.Runs note answer s (.ok ()) s' := by
  rw [runs_mapFailure]
  constructor
  · rintro ⟨_ | _, ht, hv⟩
    · cases hv
    · exact ht
  · exact fun ht => ⟨.ok (), ht, rfl⟩

theorem runs_mapFailure_error {t : Trial Verdict} {g : Failure → Failure} {f : Failure} :
    (t.mapFailure g).Runs note answer s (.error f) s' ↔
      ∃ f₀, t.Runs note answer s (.error f₀) s' ∧ f = g f₀ := by
  rw [runs_mapFailure]
  constructor
  · rintro ⟨f₀ | _, ht, hv⟩
    · cases hv
      exact ⟨f₀, ht, rfl⟩
    · cases hv
  · rintro ⟨f₀, ht, rfl⟩
    exact ⟨.error f₀, ht, rfl⟩

end Runs

/-- What a trial comes to in an engine in use, in chains of at most `limit` requests: its result, and
the state of the engine after it. -/
def Yields (limit : Nat) (t : Trial α) (s : Evaluation) (result : α) (s' : Evaluation) : Prop :=
  (t.runIn Engine.addNote (Engine.answer limit)).run s = some (result, s')

variable {limit : Nat} {s s' : Evaluation}

@[simp]
theorem yields_done {result r : α} : (done result).Yields limit s r s' ↔ r = result ∧ s' = s :=
  runs_done

@[simp]
theorem yields_note {entry : String} {t : Trial α} {r : α} :
    (note entry t).Yields limit s r s' ↔
      t.Yields limit { s with trail := entry :: s.trail } r s' := Iff.rfl

theorem yields_cascade {className : String} {v : Value} {next : Verdict → Trial α} {r : α} :
    (cascade className v next).Yields limit s r s' ↔
      ∃ verdict s₁, (Engine.answer limit className v).run s = some (verdict, s₁) ∧
        (next verdict).Yields limit s₁ r s' := by
  simp only [Yields, runIn, StateT.run_bind, Option.bind_eq_bind, Option.bind_eq_some_iff,
    Prod.exists]

@[simp]
theorem yields_pass {verdict : Verdict} :
    pass.Yields limit s verdict s' ↔ verdict = .ok () ∧ s' = s := runs_pass

@[simp]
theorem yields_fail {f : Failure} {verdict : Verdict} :
    (fail f).Yields limit s verdict s' ↔ verdict = .error f ∧ s' = s := runs_fail

theorem yields_andThen {t : Trial Verdict} {u : Unit → Trial Verdict} {verdict : Verdict} :
    (t.andThen u).Yields limit s verdict s' ↔
      (∃ f, t.Yields limit s (.error f) s' ∧ verdict = .error f) ∨
        ∃ s₁, t.Yields limit s (.ok ()) s₁ ∧ (u ()).Yields limit s₁ verdict s' := runs_andThen

theorem yields_mapFailure {t : Trial Verdict} {g : Failure → Failure} {verdict : Verdict} :
    (t.mapFailure g).Yields limit s verdict s' ↔
      ∃ v, t.Yields limit s v s' ∧ v.mapError g = verdict := runs_mapFailure

end Trial

end Validation
