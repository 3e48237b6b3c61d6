import Validation.Criterion.Labelled
import Validation.Proofs.Trial

/-!
# The leaves of a criterion

A criterion is a way to write down a row of checks, each with the enhancers around it. Simplifying
changes the writing only: the row stays, and the row alone says how the criterion runs.

* `leaves_simplify`: a simplified criterion has the leaves of the criterion.
* `validate_eq_first_leaves`: a criterion runs its leaves from left to right.
* `simplify_preserves_evaluation`: both together, for the checks that are run and for the result.
-/

namespace Validation

/-- A check in a criterion, with the enhancers around it. -/
structure Leaf (κ ε : Type) where
  check : κ
  /-- The enhancers that enclose the check, innermost first. -/
  enhancers : List ε

namespace Leaf

variable {κ ε : Type}

/-- The leaf with one more enhancer around it. -/
def inside (enhancer : ε) (l : Leaf κ ε) : Leaf κ ε :=
  { l with enhancers := l.enhancers ++ [enhancer] }

/-- The leaf with its check and its enhancers replaced. -/
def map {κ' ε' : Type} (f : κ → κ') (g : ε → ε') (l : Leaf κ ε) : Leaf κ' ε' :=
  ⟨f l.check, l.enhancers.map g⟩

/-- A failure of the check, passed through the enhancers around it, innermost first. -/
def decorate (l : Leaf κ Enhancer) : Enhancer := fun failure =>
  l.enhancers.foldl (fun failure enhancer => enhancer failure) failure

/-- The trial of the check under its enhancers. -/
def test {α : Type} (l : Leaf (Check α) Enhancer) (x : α) : Trial Verdict :=
  (l.check x).mapFailure l.decorate

theorem decorate_inside (enhancer : Enhancer) (l : Leaf κ Enhancer) :
    (l.inside enhancer).decorate = fun failure => enhancer (l.decorate failure) := by
  funext failure
  simp only [decorate, inside, List.foldl_append, List.foldl_cons, List.foldl_nil]

theorem test_inside {α : Type} (enhancer : Enhancer) (l : Leaf (Check α) Enhancer) (x : α) :
    (l.inside enhancer).test x = (l.test x).mapFailure enhancer := by
  rw [test, test, Trial.mapFailure_mapFailure, decorate_inside]
  rfl

end Leaf

namespace Criterion

section Leaves

variable {κ ε : Type}

mutual

/-- The checks of a criterion from left to right, each with the enhancers that enclose it. -/
def leaves : Criterion κ ε → List (Leaf κ ε)
  | truth => []
  | leaf check => [⟨check, []⟩]
  | all cs => leavesOf cs
  | enhanced inner enhancer => (leaves inner).map (·.inside enhancer)

/-- The checks of a list of criteria. -/
def leavesOf : List (Criterion κ ε) → List (Leaf κ ε)
  | [] => []
  | c :: rest => leaves c ++ leavesOf rest

end

theorem leavesOf_append (cs ds : List (Criterion κ ε)) :
    leavesOf (cs ++ ds) = leavesOf cs ++ leavesOf ds := by
  induction cs with
  | nil => rfl
  | cons c cs ih => rw [List.cons_append, leavesOf, leavesOf, ih, List.append_assoc]

theorem leavesOf_singleton (c : Criterion κ ε) : leavesOf [c] = c.leaves := List.append_nil _

/-- Gathering members adds nothing but brackets. -/
theorem leaves_gather (cs : List (Criterion κ ε)) : (gather cs).leaves = leavesOf cs := by
  rcases cs with _ | ⟨c, _ | ⟨d, cs⟩⟩
  · rfl
  · exact (leavesOf_singleton c).symm
  · rfl

-- An enhancer is a boundary for `members`: what it encloses is gathered on its own, and dropped
-- with its enhancer if nothing is left of it.
mutual

theorem leavesOf_members : ∀ c : Criterion κ ε, leavesOf c.members = c.leaves
  | truth => rfl
  | leaf check => rfl
  | all cs => leavesOf_membersOf cs
  | enhanced inner enhancer => by
    have hinner : (gather inner.members).leaves = inner.leaves := by
      rw [leaves_gather, leavesOf_members inner]
    rw [members, leaves, ← hinner]
    split
    case h_1 htruth =>
      rw [htruth]
      rfl
    case h_2 => exact leavesOf_singleton _

theorem leavesOf_membersOf : ∀ cs : List (Criterion κ ε), leavesOf (membersOf cs) = leavesOf cs
  | [] => rfl
  | c :: cs => by
    rw [membersOf, leavesOf_append, leavesOf_members c, leavesOf_membersOf cs, leavesOf]

end

/-- **Simplifying keeps the leaves**, their order and the enhancers around each. -/
theorem leaves_simplify (c : Criterion κ ε) : c.simplify.leaves = c.leaves := by
  rw [simplify, leaves_gather, leavesOf_members]

mutual

theorem leaves_map {κ' ε' : Type} (f : κ → κ') (g : ε → ε') :
    ∀ c : Criterion κ ε, (c.map f g).leaves = c.leaves.map (·.map f g)
  | truth => rfl
  | leaf check => rfl
  | all cs => leavesOf_mapAll f g cs
  | enhanced inner enhancer => by
    rw [map, leaves, leaves, leaves_map f g inner, List.map_map, List.map_map]
    refine List.map_congr_left fun l _ => ?_
    simp only [Function.comp_apply, Leaf.map, Leaf.inside, List.map_append, List.map_cons,
      List.map_nil]

theorem leavesOf_mapAll {κ' ε' : Type} (f : κ → κ') (g : ε → ε') :
    ∀ cs : List (Criterion κ ε), leavesOf (mapAll f g cs) = (leavesOf cs).map (·.map f g)
  | [] => rfl
  | c :: cs => by
    rw [mapAll, leavesOf, leavesOf, leaves_map f g c, leavesOf_mapAll f g cs, List.map_append]

end

end Leaves

section Trials

variable {α : Type}

mutual

/-- **A criterion runs its leaves from left to right** up to the first failure, which passes through
the enhancers around its leaf. -/
theorem validate_eq_first_leaves : ∀ (c : Criterion.On α) (x : α),
    c.validate x = Trial.first (·.test x) c.leaves
  | truth, _ => rfl
  | leaf check, x => by
    have hplain : Leaf.test ⟨check, []⟩ x = check x := Trial.mapFailure_id _
    rw [validate, leaves, Trial.first, hplain]
    exact (Trial.andThen_pass _).symm
  | all cs, x => validateAll_eq_first_leavesOf cs x
  | enhanced inner enhancer, x => by
    rw [validate, leaves, validate_eq_first_leaves inner x, Trial.mapFailure_first, Trial.first_map]
    exact Trial.first_congr fun l _ => (Leaf.test_inside enhancer l x).symm

theorem validateAll_eq_first_leavesOf : ∀ (cs : List (Criterion.On α)) (x : α),
    validateAll cs x = Trial.first (·.test x) (leavesOf cs)
  | [], _ => rfl
  | c :: cs, x => by
    rw [validateAll, leavesOf, Trial.first_append, validate_eq_first_leaves c x,
      validateAll_eq_first_leavesOf cs x]

end

/-- **A simplified criterion runs as the criterion does.** -/
theorem validate_simplify (c : Criterion.On α) (x : α) : c.simplify.validate x = c.validate x := by
  rw [validate_eq_first_leaves, validate_eq_first_leaves, leaves_simplify]

/-- What is done to the checks and enhancers can be done before simplifying or after it. -/
theorem validate_map_simplify {κ ε : Type} (f : κ → Check α) (g : ε → Enhancer)
    (c : Criterion κ ε) (x : α) : (c.simplify.map f g).validate x = (c.map f g).validate x := by
  rw [validate_eq_first_leaves, validate_eq_first_leaves, leaves_map, leaves_map, leaves_simplify]

end Trials

section Tracing

variable {α : Type} {m : Type → Type} [Monad m]

/-- A check that notes its label whenever it is run. -/
def noting (check : Labelled (Check α)) : Check α := fun x =>
  .note (toString check.label) (check.content x)

/-- The criterion without its labels, each check of which notes its label when it is run. -/
def traced (c : Criterion.LabelledOn α) : Criterion.On α := c.map noting (·.content)

/-- **The reference**: run the leaves one after another, noting the label of each that is run. The
first failure ends the run; it passes through the enhancers around its leaf, innermost first, and no
leaf after it is run. -/
def runLeaves (note : String → m Unit) (answer : String → Value → m Verdict) (x : α) :
    List (Leaf (Labelled (Check α)) (Labelled Enhancer)) → m Verdict
  | [] => pure (.ok ())
  | l :: rest => do
    note (toString l.check.label)
    match ← (l.check.content x).runIn note answer with
    | .ok () => runLeaves note answer x rest
    | .error failure =>
      return .error (l.enhancers.foldl (fun failure enhancer => enhancer.content failure) failure)

variable [LawfulMonad m] {note : String → m Unit} {answer : String → Value → m Verdict} {x : α}

theorem runIn_leaves (ls : List (Leaf (Labelled (Check α)) (Labelled Enhancer))) :
    (Trial.first (fun l => (l.map noting (·.content)).test x) ls).runIn note answer =
      runLeaves note answer x ls := by
  induction ls with
  | nil => rfl
  | cons l ls ih =>
    have hfold : ∀ failure : Failure,
        l.enhancers.foldl (fun failure enhancer => enhancer.content failure) failure =
          (l.map noting (·.content)).decorate failure := by
      intro failure
      rw [Leaf.decorate, Leaf.map, List.foldl_map]
    have hnote : (l.map noting (·.content)).check x =
        .note (toString l.check.label) (l.check.content x) := rfl
    simp only [Trial.first, runLeaves, ← ih, hfold]
    rw [Leaf.test, Trial.runIn_mapFailure_andThen, hnote, Trial.runIn]
    exact bind_assoc _ _ _

end Tracing

/-- **Simplification preserves evaluation.** A criterion and its simplified form have the same leaves
under the same enhancers, and on every input they make the same run: leave the same notes, make the
same requests and come to the same verdict, with or without each check noting that it is run. That
run, by whoever answers the requests, is the run of the leaves from left to right. -/
theorem simplify_preserves_evaluation {α : Type} (c : Criterion.LabelledOn α) (x : α) :
    c.simplify.leaves = c.leaves ∧
      c.simplify.unlabelled.validate x = c.unlabelled.validate x ∧
      c.unlabelled.simplify.validate x = c.unlabelled.validate x ∧
      c.simplify.traced.validate x = c.traced.validate x ∧
      ∀ (m : Type → Type) [Monad m] [LawfulMonad m] (note : String → m Unit)
        (answer : String → Value → m Verdict),
        (c.traced.validate x).runIn note answer = runLeaves note answer x c.leaves := by
  refine ⟨leaves_simplify c, validate_map_simplify _ _ c x, validate_simplify _ x,
    validate_map_simplify _ _ c x, fun m _ _ note answer => ?_⟩
  rw [traced, validate_eq_first_leaves, leaves_map, Trial.first_map, runIn_leaves]

/-- Three checks in brackets and enhancers, of which the second fails: two are run, and its failure is
seen from within the two properties around it, the inner one first. -/
theorem nested_checks_run_in_order :
    let failing : Labelled (Check Value) := ⟨2, fun v => .fail (.new "second" "" v)⟩
    let within (name : String) : Labelled Enhancer := ⟨0, (·.within (.property name))⟩
    let c : Criterion.LabelledOn Value :=
      all [truth, leaf ⟨1, fun _ => .pass⟩,
        enhanced (all [enhanced (all []) (within "none"), enhanced (leaf failing) (within "inner")])
          (within "outer"),
        leaf ⟨3, fun _ => .pass⟩]
    ((c.simplify.traced.validate .null).runIn (m := StateM (List String))
        (fun entry => modify (· ++ [entry])) fun _ _ => pure (.ok ())).run [] =
      (.error ⟨"second", "", [], .null, [.property "outer", .property "inner"]⟩,
        [toString 1, toString 2]) := by
  intro failing within c
  obtain ⟨-, -, -, hsimplify, hrun⟩ := simplify_preserves_evaluation c .null
  rw [hsimplify, hrun]
  rfl

end Criterion

end Validation
