import Validation.Proofs.Compile.Members

/-!
# Criteria on wholes

A wrapper makes a criterion on a whole of one on its part. What this comes to is said here by the
criterion on the part alone, on the values that the wrapper comes to: which of them are tried, in
which order and up to which, what is put in front of the path of a failure, and what a whole without
the part or of another kind comes to. Requests and notes count as well: what is not tried makes none.

* `PassInTurn`, `InTurn`: what parts come to one after another, up to the first that fails.
* `runs_first_within`: trials of parts come to this.
* `Wrapper.Projects`: what a criterion on a whole comes to.
* `Wrapper.wrap_projects`: the wrapped criteria come to this.
-/

namespace Validation

variable {σ : Type}

/-! ### Parts in turn -/

section InTurn

/-- All parts pass in turn, each from the state that the one before it left. -/
def PassInTurn (R : Value → σ → Verdict → σ → Prop) : List (Value × Step) → σ → σ → Prop
  | [], s, s' => s' = s
  | (x, _) :: rest, s, s' => ∃ s₁, R x s (.ok ()) s₁ ∧ PassInTurn R rest s₁ s'

/-- **What parts come to in turn**, each with the step that leads to it. They pass, or the first one
that fails is reported from one step further out, and the state is what it left. -/
inductive InTurn (R : Value → σ → Verdict → σ → Prop) (parts : List (Value × Step)) (s : σ) :
    Verdict → σ → Prop
  | pass {s' : σ} (h : PassInTurn R parts s s') : InTurn R parts s (.ok ()) s'
  | fail {before after : List (Value × Step)} {x : Value} {step : Step} {f : Failure} {s₁ s' : σ}
      (hparts : parts = before ++ (x, step) :: after) (hbefore : PassInTurn R before s s₁)
      (hfails : R x s₁ (.error f) s') : InTurn R parts s (.error (f.within step)) s'

variable {R : Value → σ → Verdict → σ → Prop} {s s' : σ} {verdict : Verdict}

theorem inTurn_nil : InTurn R [] s verdict s' ↔ verdict = .ok () ∧ s' = s := by
  constructor
  · rintro (h | ⟨hparts, -, -⟩)
    · exact ⟨rfl, h⟩
    · simp at hparts
  · rintro ⟨rfl, rfl⟩
    exact .pass rfl

/-- Parts fail with the first of them, or it passes and they come to what the others do. -/
theorem inTurn_cons {x : Value} {step : Step} {rest : List (Value × Step)} :
    InTurn R ((x, step) :: rest) s verdict s' ↔
      (∃ f, R x s (.error f) s' ∧ verdict = .error (f.within step)) ∨
        ∃ s₁, R x s (.ok ()) s₁ ∧ InTurn R rest s₁ verdict s' := by
  constructor
  · rintro (⟨s₁, hx, hrest⟩ | ⟨hparts, hbefore, hfails⟩)
    · exact .inr ⟨s₁, hx, .pass hrest⟩
    · -- the failing part is the first one, or it is among the others
      rcases List.cons_eq_append_iff.1 hparts with ⟨rfl, hcons⟩ | ⟨before, rfl, rfl⟩
      · cases hcons
        cases hbefore
        exact .inl ⟨_, hfails, rfl⟩
      · obtain ⟨s₁, hx, hbefore⟩ := hbefore
        exact .inr ⟨s₁, hx, .fail rfl hbefore hfails⟩
  · rintro (⟨f, hfails, rfl⟩ | ⟨s₁, hx, hrest | ⟨rfl, hbefore, hfails⟩⟩)
    · exact .fail (List.nil_append _).symm rfl hfails
    · exact .pass ⟨s₁, hx, hrest⟩
    · exact .fail List.cons_append.symm ⟨s₁, hx, hbefore⟩ hfails

variable {note : String → StateT σ Option Unit} {answer : String → Value → StateT σ Option Verdict}

/-- **The trials of parts** come to what the parts come to in turn. -/
theorem runs_first_within {test : Value → Trial Verdict} {parts : List (Value × Step)} :
    (Trial.first (fun part => (test part.1).mapFailure (·.within part.2)) parts).Runs note answer s
        verdict s' ↔
      InTurn (fun x => (test x).Runs note answer) parts s verdict s' := by
  induction parts generalizing s with
  | nil => rw [inTurn_nil, Trial.first, Trial.runs_pass]
  | cons part rest ih =>
    rw [inTurn_cons, Trial.first, Trial.runs_andThen]
    simp only [Trial.runs_mapFailure_ok, Trial.runs_mapFailure_error, ih]
    refine or_congr_left ⟨?_, ?_⟩
    · rintro ⟨_, ⟨f, hfails, rfl⟩, hverdict⟩
      exact ⟨f, hfails, hverdict⟩
    · rintro ⟨f, hfails, hverdict⟩
      exact ⟨_, ⟨f, hfails, rfl⟩, hverdict⟩

end InTurn

/-! ### Wholes -/

/-- The items of a list, with the steps to them. -/
def Value.itemParts (items : List Value) : List (Value × Step) :=
  items.zipIdx.map fun (item, position) => (item, .index position)

/-- One side of the entries of a map, with the steps to it. -/
def Value.entryParts (side : Value × Value → Value) (entries : List (Value × Value)) :
    List (Value × Step) :=
  entries.map fun entry => (side entry, .key entry.1)

namespace Wrapper

/-- **What a criterion on a whole comes to**, where `R` says what the criterion on its part comes to.
Nothing is tried in a whole that is null or of another kind than the wrapper is for. -/
def Projects (R : Value → σ → Verdict → σ → Prop) (w : Wrapper) (shape : Shape) (v : Value) (s : σ)
    (verdict : Verdict) (s' : σ) : Prop :=
  match w, v with
  | property _, .null | arrayElement, .null | iterableElement, .null | mapKey, .null
  | mapValue, .null => verdict = .ok () ∧ s' = s
  | property accessor, .object className fields =>
    ∃ inside, R (accessor.read (.object className fields)) s inside s' ∧
      inside.mapError (·.within (.property accessor.name)) = verdict
  | arrayElement, .list items | iterableElement, .list items =>
    InTurn R (Value.itemParts items) s verdict s'
  | mapKey, .map entries => InTurn R (Value.entryParts (·.1) entries) s verdict s'
  | mapValue, .map entries => InTurn R (Value.entryParts (·.2) entries) s verdict s'
  | property _, v => verdict = .error (.typeMismatch "object" v) ∧ s' = s
  | arrayElement, v => verdict = .error (.typeMismatch "array" v) ∧ s' = s
  | iterableElement, v => verdict = .error (.typeMismatch "iterable" v) ∧ s' = s
  | mapKey, v | mapValue, v => verdict = .error (.typeMismatch "map" v) ∧ s' = s
  | optionalValue, .optional (some content) => R content s verdict s'
  | optionalValue, .optional none => R .null s verdict s'
  | optionalValue, v => R v s verdict s'
  | extracted extractor, v =>
    match extractor.extract v with
    | some held => R held s verdict s'
    | none => if shape.isScalar then verdict = .ok () ∧ s' = s else R .null s verdict s'

section Check

variable {note : String → StateT σ Option Unit} {answer : String → Value → StateT σ Option Verdict}
  {inner : Criterion.On Value} {v : Value} {s s' : σ} {verdict : Verdict}

theorem runs_checkElements_list (expected : String) (items : List Value) :
    (checkElements expected inner (.list items)).Runs note answer s verdict s' ↔
      InTurn (fun x => (inner.validate x).Runs note answer) (Value.itemParts items) s verdict s' := by
  rw [← runs_first_within, Value.itemParts, Trial.first_map]
  rfl

theorem runs_checkEntries_map (side : Value × Value → Value) (entries : List (Value × Value)) :
    (checkEntries side inner (.map entries)).Runs note answer s verdict s' ↔
      InTurn (fun x => (inner.validate x).Runs note answer) (Value.entryParts side entries) s verdict
        s' := by
  rw [← runs_first_within, Value.entryParts, Trial.first_map]
  rfl

/-- **The check of the whole**, wrapper by wrapper and by the kinds of values that they tell apart. -/
theorem runs_check (w : Wrapper) (shape : Shape) :
    (w.check shape inner v).Runs note answer s verdict s' ↔
      w.Projects (fun x => (inner.validate x).Runs note answer) shape v s verdict s' := by
  cases w with
  | property accessor =>
    cases v with
    | null => exact Trial.runs_pass
    | object className fields => exact Trial.runs_mapFailure
    | _ => exact Trial.runs_fail
  | arrayElement =>
    cases v with
    | null => exact Trial.runs_pass
    | list items => exact runs_checkElements_list "array" items
    | _ => exact Trial.runs_fail
  | iterableElement =>
    cases v with
    | null => exact Trial.runs_pass
    | list items => exact runs_checkElements_list "iterable" items
    | _ => exact Trial.runs_fail
  | mapKey =>
    cases v with
    | null => exact Trial.runs_pass
    | map entries => exact runs_checkEntries_map _ entries
    | _ => exact Trial.runs_fail
  | mapValue =>
    cases v with
    | null => exact Trial.runs_pass
    | map entries => exact runs_checkEntries_map _ entries
    | _ => exact Trial.runs_fail
  | optionalValue =>
    cases v with
    | optional content => cases content <;> exact Iff.rfl
    | _ => exact Iff.rfl
  | extracted extractor =>
    simp only [check, checkExtracted, Projects]
    cases extractor.extract v with
    | some held => exact Iff.rfl
    | none =>
      cases shape with
      | scalar kind => exact Trial.runs_pass
      | reference => exact Iff.rfl

end Check

end Wrapper

namespace ShapedCriterion

variable {c : ShapedCriterion}

theorem isTruth_eq_false (hc : c.leafCount ≠ 0) : c.isTruth = false := by
  obtain ⟨shape, c⟩ := c
  cases c <;> first | rfl | exact absurd rfl hc

/-- A criterion that has something to check is the same on values, whatever its shape. -/
theorem lift_validate (hc : c.leafCount ≠ 0) (v : Value) : c.lift.validate v = c.validate v := by
  cases hx : c.shape.ofValue? v with
  | some x => rw [lift_validate_of_some hx, validate_of_some hx]
  | none =>
    rw [lift_validate_of_none hx, isTruth_eq_false hc, validate, hx]
    rfl

end ShapedCriterion

namespace Wrapper

/-- **What wrapped criteria come to.** A criterion that has something to check can be wrapped exactly
when the wrapper supports its shape. Then, however notes and requests are dealt with, the criterion on
the whole comes to what the wrapper makes of the runs of the criterion on its parts, with the same
changes of the state. -/
theorem wrap_projects (w : Wrapper) {c : ShapedCriterion} (hc : c.leafCount ≠ 0) :
    ((∃ wrapped, w.wrap c = .ok wrapped) ↔ w.supports c.shape = true) ∧
    ∀ wrapped, w.wrap c = .ok wrapped →
      ∀ {σ : Type} (note : String → StateT σ Option Unit)
        (answer : String → Value → StateT σ Option Verdict) v s verdict s',
        (wrapped.validate v).Runs note answer s verdict s' ↔
          w.Projects (fun x => (c.validate x).Runs note answer) c.shape v s verdict s' := by
  refine ⟨?_, ?_⟩
  · constructor
    · rintro ⟨wrapped, hw⟩
      exact (wrap_eq_ok.1 hw).1
    · exact fun hsupports => ⟨_, wrap_eq_ok.2 ⟨hsupports, rfl⟩⟩
  · intro wrapped hw σ note answer v s verdict s'
    obtain ⟨-, rfl⟩ := wrap_eq_ok.1 hw
    rw [ShapedCriterion.isTruth_eq_false hc]
    have hlift : (fun x => (c.lift.validate x).Runs note answer) =
        fun x => (c.validate x).Runs note answer := by
      funext x
      rw [ShapedCriterion.lift_validate hc]
    rw [← hlift]
    exact runs_check w c.shape

/-! ### Numbers in an array -/

namespace Numbers

/-- The failure of a negative number. -/
def negative (n : Int32) : Failure := .new "positive" "negative" (.int n)

/-- A criterion on numbers that notes each of its trials and fails on negative numbers. -/
def positive : ShapedCriterion :=
  ⟨.scalar .int, .leaf fun n : Int32 => .note "tried" (if n < 0 then .fail (negative n) else .pass)⟩

/-- The trail of notes, latest first. -/
def trail (entry : String) : StateT (List String) Option Unit := modify (entry :: ·)

def unanswered (_ : String) (_ : Value) : StateT (List String) Option Verdict := fun _ => none

/-- The first negative number in an array is reported with its position, and the number after it is
not tried. The keys of a map are no scalars. -/
theorem first_negative_item_is_reported :
    positive.leafCount ≠ 0 ∧ (¬ ∃ wrapped, mapKey.wrap positive = .ok wrapped) ∧
    ∃ wrapped, arrayElement.wrap positive = .ok wrapped ∧
      (wrapped.validate (.list [.int 0, .int (-1), .int (-2)])).Runs trail unanswered []
        (.error ((negative (-1)).within (.index 1))) ["tried", "tried"] := by
  have hc : positive.leafCount ≠ 0 := by decide
  obtain ⟨hkeys, -⟩ := wrap_projects mapKey hc
  obtain ⟨hitems, hruns⟩ := wrap_projects arrayElement hc
  obtain ⟨wrapped, hwrapped⟩ := hitems.2 rfl
  refine ⟨hc, ?_, wrapped, hwrapped, (hruns wrapped hwrapped _ _ _ _ _ _).2 ?_⟩
  · rw [hkeys]
    decide
  · have hparts : Value.itemParts [.int 0, .int (-1), .int (-2)] =
        [(.int 0, .index 0)] ++ (.int (-1), .index 1) :: [(.int (-2), .index 2)] := rfl
    exact .fail hparts ⟨["tried"], rfl, rfl⟩ rfl

end Numbers

end Wrapper

end Validation
