import Validation.Proofs.Projections
import Validation.Proofs.Simplified.Normal

/-!
# Lifting a criterion to values

A criterion of any shape can be tried on a value in three ways: as it is, lifted to a criterion on
values, and simplified and then lifted. The last two convert the value inside the lifted check, and skip
this where nothing is to be checked. As long as there is a leaf, all three make the same run.

* `runOnValue`: the run of the leaves on what a value holds.
* `lift_validate_eq_iff`, `simplify_lift_validate_eq_iff`: when lifting changes nothing.
* `lifting_keeps_runs`: with it, the runs of all three ways.
-/

namespace Validation

variable {m : Type → Type} [Monad m]

/-- **The reference on values**: what the shape tests is taken out of the value, and the leaves are run on
it. Where the value holds no such scalar, this is the failure, and no leaf is run. -/
def runOnValue {shape : Shape} (note : String → m Unit) (answer : String → Value → m Verdict)
    (c : Criterion.LabelledOn shape.Carrier) (v : Value) : m Verdict :=
  match shape.ofValue? v with
  | some x => Criterion.runLeaves note answer x c.leaves
  | none => pure (.error (.typeMismatch shape.name v))

namespace Criterion

variable {α : Type}

theorem leafCount_traced (c : Criterion.LabelledOn α) : c.traced.leafCount = c.leafCount := by
  rw [leafCount_eq_length, leafCount_eq_length, traced, leaves_map, List.length_map]

end Criterion

namespace ShapedCriterion

variable {s : ShapedCriterion}

/-- Null holds no scalar of any kind. -/
theorem ofValue?_null {shape : Shape} (h : shape ≠ .reference) : shape.ofValue? .null = none := by
  cases shape with
  | scalar kind => cases kind <;> rfl
  | reference => exact absurd rfl h

theorem simplify_validate (s : ShapedCriterion) (v : Value) : s.simplify.validate v = s.validate v := by
  cases hx : s.shape.ofValue? v with
  | some x =>
    have hsimplify : s.simplify.validate v = s.criterion.simplify.validate x := validate_of_some hx
    rw [hsimplify, Criterion.validate_simplify, validate_of_some hx]
  | none =>
    simp only [validate, simplify]
    rw [hx]

theorem leafCount_simplify (s : ShapedCriterion) : s.simplify.leafCount = s.leafCount :=
  Criterion.leafCount_simplify s.criterion

/-- **Lifting changes nothing**, unless a criterion on scalars is written as truth: values without such a
scalar pass it only when it is lifted. -/
theorem lift_validate_eq_iff :
    (∀ v, s.lift.validate v = s.validate v) ↔ s.shape = .reference ∨ s.isTruth = false := by
  constructor
  · intro h
    by_contra hnot
    obtain ⟨hshape, htruth⟩ := not_or.1 hnot
    have hnone := ofValue?_null hshape
    have hnull := h .null
    rw [lift_validate_of_none hnone, if_pos (Bool.eq_true_of_not_eq_false htruth), validate,
      hnone] at hnull
    cases hnull
  · intro h v
    cases hx : s.shape.ofValue? v with
    | some x => rw [lift_validate_of_some hx, validate_of_some hx]
    | none =>
      have htruth : s.isTruth = false := by
        refine h.resolve_left fun hshape => ?_
        rw [hshape] at hx
        cases hx
      rw [lift_validate_of_none hx, htruth, validate, hx]
      rfl

/-- **What is simplified and lifted is truth** exactly when there is no leaf. -/
theorem simplify_lift_eq_truth_iff : s.simplify.lift = .truth ↔ s.leafCount = 0 := by
  have htruth := Criterion.simplify_eq_truth_iff (c := s.criterion)
  rw [leafCount, ← htruth]
  obtain ⟨kind | _, c⟩ := s
  case scalar =>
    rw [simplify, lift_scalar]
    constructor
    · intro h
      split_ifs at h with hwritten
      generalize c.simplify = d at hwritten ⊢
      cases d <;> first | rfl | cases hwritten
    · intro h
      rw [h]
      rfl
  case reference => exact Iff.rfl

/-- **Simplifying and lifting change nothing** exactly when there is a leaf, or nothing to convert. -/
theorem simplify_lift_validate_eq_iff :
    (∀ v, s.simplify.lift.validate v = s.validate v) ↔ s.shape = .reference ∨ s.leafCount ≠ 0 := by
  have hwritten : s.simplify.isTruth = false ↔ s.leafCount ≠ 0 := by
    constructor
    · intro h hzero
      have htruth : s.criterion.simplify = .truth := Criterion.simplify_eq_truth_iff.2 hzero
      rw [isTruth, simplify, htruth] at h
      cases h
    · exact fun h => isTruth_eq_false (leafCount_simplify s ▸ h)
  have hshape : s.simplify.shape = s.shape := rfl
  simp only [← simplify_validate s, ← hshape, ← hwritten]
  exact lift_validate_eq_iff

theorem runIn_validate [LawfulMonad m] {shape : Shape} (note : String → m Unit)
    (answer : String → Value → m Verdict) (c : Criterion.LabelledOn shape.Carrier) (v : Value) :
    ((⟨shape, c.traced⟩ : ShapedCriterion).validate v).runIn note answer =
      runOnValue note answer c v := by
  simp only [validate, runOnValue]
  cases shape.ofValue? v with
  | some x => exact (Criterion.simplify_preserves_evaluation c x).2.2.2.2 m note answer
  | none => rfl

/-- **Lifting keeps the runs.** A criterion of any shape that has a leaf makes the same run on every value
as it is, lifted, and simplified and lifted: it leaves the same notes, makes the same requests and comes
to the same verdict. With each leaf noting that it is run, this is the run of the leaves on what the value
holds. A criterion without leaves is simplified and lifted to truth, and only such a criterion is. For
criteria on scalars this makes a difference: simplifying and lifting change nothing exactly if there is a
leaf, lifting alone exactly if the criterion is not written as truth. -/
theorem lifting_keeps_runs :
    (∀ s : ShapedCriterion, s.leafCount ≠ 0 → ∀ v,
      s.lift.validate v = s.validate v ∧ s.simplify.lift.validate v = s.validate v) ∧
    (∀ (shape : Shape) (c : Criterion.LabelledOn shape.Carrier), c.leafCount ≠ 0 →
      ∀ (m : Type → Type) [Monad m] [LawfulMonad m] (note : String → m Unit)
        (answer : String → Value → m Verdict) (v : Value),
        let s : ShapedCriterion := ⟨shape, c.traced⟩
        (s.validate v).runIn note answer = runOnValue note answer c v ∧
          (s.lift.validate v).runIn note answer = runOnValue note answer c v ∧
          (s.simplify.lift.validate v).runIn note answer = runOnValue note answer c v) ∧
    ∀ s : ShapedCriterion, (s.simplify.lift = .truth ↔ s.leafCount = 0) ∧
      ((∀ v, s.simplify.lift.validate v = s.validate v) ↔
        s.shape = .reference ∨ s.leafCount ≠ 0) ∧
      ((∀ v, s.lift.validate v = s.validate v) ↔ s.shape = .reference ∨ s.isTruth = false) := by
  have hsame : ∀ s : ShapedCriterion, s.leafCount ≠ 0 → ∀ v,
      s.lift.validate v = s.validate v ∧ s.simplify.lift.validate v = s.validate v :=
    fun s hleaf v => ⟨lift_validate hleaf v, simplify_lift_validate_eq_iff.2 (.inr hleaf) v⟩
  refine ⟨hsame, fun shape c hleaf m _ _ note answer v => ?_, fun s =>
    ⟨simplify_lift_eq_truth_iff, simplify_lift_validate_eq_iff, lift_validate_eq_iff⟩⟩
  have hrun := runIn_validate note answer c v
  have htraced : (⟨shape, c.traced⟩ : ShapedCriterion).leafCount ≠ 0 := by
    rw [leafCount, Criterion.leafCount_traced]
    exact hleaf
  obtain ⟨hlift, hsimplify⟩ := hsame ⟨shape, c.traced⟩ htraced v
  exact ⟨hrun, hlift ▸ hrun, hsimplify ▸ hrun⟩

/-- Brackets around nothing, and a check of integers that only small ones pass. -/
def small : Criterion.LabelledOn (ScalarKind.int).Carrier :=
  .all [.all [], .leaf ⟨7, fun n => if n < 10 then .pass else .fail (.new "large" "" (.int n))⟩]

/-- The names of the leaves that are run, in order. -/
def jot (entry : String) : StateM (List String) Unit := modify (· ++ [entry])

def passing (_ : String) (_ : Value) : StateM (List String) Verdict := pure (.ok ())

/-- A long that is no integer is a mismatch before any leaf is run; one that is has its leaf run. With
nothing but the brackets left, everything passes once they are simplified away. -/
theorem small_integers_are_tested_alike :
    let s : ShapedCriterion := ⟨.scalar .int, small.traced⟩
    let none : ShapedCriterion := ⟨.scalar .int, .all []⟩
    ((s.simplify.lift.validate (.long 5000000000)).runIn jot passing).run [] =
        (.error (.typeMismatch "int" (.long 5000000000)), []) ∧
      ((s.simplify.lift.validate (.long 12)).runIn jot passing).run [] =
        (.error (.new "large" "" (.int 12)), ["7"]) ∧
      (∀ v, s.simplify.lift.validate v = s.validate v) ∧
      none.simplify.lift = .truth ∧ ¬ ∀ v, none.simplify.lift.validate v = none.validate v := by
  intro s none
  obtain ⟨hsame, hrun, hexact⟩ := lifting_keeps_runs
  have hruns := hrun (.scalar .int) small (by decide) (StateM (List String)) jot passing
  refine ⟨?_, ?_, fun v => (hsame s (by decide) v).2, (hexact none).1.2 rfl, ?_⟩
  · rw [(hruns _).2.2]
    rfl
  · rw [(hruns _).2.2]
    rfl
  · rw [(hexact none).2.1]
    decide

end ShapedCriterion

end Validation
