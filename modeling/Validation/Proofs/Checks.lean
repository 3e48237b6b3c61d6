import Mathlib
import Validation.Proofs.Leaves
import Validation.Proofs.Process

/-!
# The checks of a constraint

A constraint becomes one criterion, in which the constraints it expands into and its own check have
been put in a row, pushed, simplified and decorated at every level. Here the row is read off the
constraint alone: its parts are sorted by their places, those at or before its own place come first,
its own check next, and the other parts last; each part stands for its own row.

* `Constraint.checks`: the row of checks, each under the messages around it.
* `Constraint.expansion`: a constraint and all that it expands into.
* `validate_of_process`: the criterion of a constraint runs the row.
* `exists_process_iff`: there is a criterion when every constraint in the expansion has its own check.
* `constraints_run_their_checks_in_order`: both.
-/

namespace Validation

namespace Constraint

/-! ### Constraints as trees -/

section Induction

variable {P : Constraint → Prop}

mutual

/-- **Induction over constraints**: what holds of a constraint as soon as it holds of its parts. -/
theorem induction (h : ∀ c : Constraint, (∀ part ∈ c.parts, P part) → P c) : ∀ c, P c
  | ⟨_, _, _, _, parts⟩ => h _ (inductionAll h parts)

theorem inductionAll (h : ∀ c : Constraint, (∀ part ∈ c.parts, P part) → P c) :
    ∀ parts : List Constraint, ∀ part ∈ parts, P part
  | [], _, hpart => absurd hpart List.not_mem_nil
  | c :: rest, part, hpart =>
    (List.mem_cons.1 hpart).elim (fun heq => heq ▸ induction h c) (inductionAll h rest part)

end

end Induction

mutual

/-- The constraint and all constraints that it expands into. -/
def expansion : Constraint → List Constraint
  | ⟨kind, attributes, order, message, parts⟩ =>
    ⟨kind, attributes, order, message, parts⟩ :: expansions parts

/-- The constraints of a list and all that they expand into. -/
def expansions : List Constraint → List Constraint
  | [] => []
  | c :: rest => c.expansion ++ expansions rest

end

theorem mem_expansions {d : Constraint} {parts : List Constraint} :
    d ∈ expansions parts ↔ ∃ part ∈ parts, d ∈ part.expansion := by
  induction parts with
  | nil => simp [expansions]
  | cons c rest ih => simp [expansions, ih]

theorem mem_expansion {c d : Constraint} :
    d ∈ c.expansion ↔ d = c ∨ ∃ part ∈ c.parts, d ∈ part.expansion := by
  obtain ⟨kind, attributes, order, message, parts⟩ := c
  rw [expansion, List.mem_cons, mem_expansions]

/-! ### The row of checks -/

/-- The check of a constraint itself, under the messages of the constraints around it. -/
abbrev OwnCheck := Leaf Constraint Enhancer

/-- The own check of a constraint, unless its kind only expands. -/
def ownChecks (c : Constraint) : List OwnCheck := if c.kind.isCombinator then [] else [⟨c, []⟩]

/-- A check under the message of a constraint, if it has one. -/
def around (c : Constraint) (l : OwnCheck) : OwnCheck :=
  match c.message with
  | some text => l.inside (decorate text c.params)
  | none => l

mutual

/-- **The checks of a constraint**, in the order in which they are run: those of its parts up to its own
place, in ascending order, its own, and those of the other parts. -/
def checks : Constraint → List OwnCheck
  | ⟨kind, attributes, order, message, parts⟩ =>
    let c : Constraint := ⟨kind, attributes, order, message, parts⟩
    let sorted := Order.sort (·.1) (partChecks parts)
    let row := (sorted.filter (·.1.le order)).flatMap (·.2) ++ c.ownChecks ++
      (sorted.filter (!·.1.le order)).flatMap (·.2)
    row.map c.around

/-- The checks of each part, with its place. -/
def partChecks : List Constraint → List (Order × List OwnCheck)
  | [] => []
  | c :: rest => (c.order, c.checks) :: partChecks rest

end

theorem partChecks_eq (parts : List Constraint) :
    partChecks parts = parts.map fun c => (c.order, c.checks) := by
  induction parts with
  | nil => rw [partChecks, List.map_nil]
  | cons c rest ih => rw [partChecks, ih, List.map_cons]

/-- The parts up to the constraint's place, ascending and equals in the order of the definition. -/
def partsBefore (c : Constraint) : List Constraint :=
  (Order.sort (·.order) c.parts).filter (·.order.le c.order)

/-- The parts after the constraint's place, ascending and equals in the order of the definition. -/
def partsAfter (c : Constraint) : List Constraint :=
  (Order.sort (·.order) c.parts).filter (!·.order.le c.order)

theorem mem_parts_iff {c d : Constraint} : d ∈ c.parts ↔ d ∈ c.partsBefore ∨ d ∈ c.partsAfter := by
  simp only [partsBefore, partsAfter, List.mem_filter, Order.sort, List.mem_mergeSort]
  cases d.order.le c.order <;> simp

theorem checks_eq (c : Constraint) :
    c.checks = (c.partsBefore.flatMap (·.checks) ++ c.ownChecks ++
      c.partsAfter.flatMap (·.checks)).map c.around := by
  obtain ⟨kind, attributes, order, message, parts⟩ := c
  rw [checks, partChecks_eq, Order.sort_map]
  simp only [List.filter_map, List.flatMap_map, partsBefore, partsAfter, Function.comp_def]

theorem check_around (c : Constraint) (l : OwnCheck) : (c.around l).check = l.check := by
  unfold around
  cases c.message <;> rfl

/-- The checks of a constraint are the own checks of the constraints in its expansion. -/
theorem exists_mem_checks {c d : Constraint} :
    (∃ l ∈ c.checks, l.check = d) ↔ d ∈ c.expansion ∧ d.kind.isCombinator = false := by
  induction c using induction with
  | _ c ih =>
    have hown : (∃ l ∈ c.ownChecks, l.check = d) ↔ d = c ∧ d.kind.isCombinator = false := by
      unfold ownChecks
      cases hcombinator : c.kind.isCombinator with
      | true => simp +contextual [hcombinator]
      | false =>
        simp only [Bool.false_eq_true, if_false, List.mem_singleton, exists_eq_left]
        exact ⟨fun heq => heq ▸ ⟨rfl, hcombinator⟩, fun h => h.1.symm⟩
    have hparts : ∀ parts : List Constraint, (∀ part ∈ parts, part ∈ c.parts) →
        ((∃ l ∈ parts.flatMap (·.checks), l.check = d) ↔
          (∃ part ∈ parts, d ∈ part.expansion) ∧ d.kind.isCombinator = false) := by
      intro parts hparts
      simp only [List.mem_flatMap]
      constructor
      · rintro ⟨l, ⟨part, hpart, hl⟩, hd⟩
        obtain ⟨hmem, hcombinator⟩ := (ih part (hparts part hpart)).1 ⟨l, hl, hd⟩
        exact ⟨⟨part, hpart, hmem⟩, hcombinator⟩
      · rintro ⟨⟨part, hpart, hmem⟩, hcombinator⟩
        obtain ⟨l, hl, hd⟩ := (ih part (hparts part hpart)).2 ⟨hmem, hcombinator⟩
        exact ⟨l, ⟨part, hpart, hl⟩, hd⟩
    have hbefore := hparts c.partsBefore fun part hpart => mem_parts_iff.2 (.inl hpart)
    have hafter := hparts c.partsAfter fun part hpart => mem_parts_iff.2 (.inr hpart)
    -- what is said around a check does not matter to whose check it is
    have hmap : (∃ l ∈ c.checks, l.check = d) ↔
        ∃ l ∈ c.partsBefore.flatMap (·.checks) ++ c.ownChecks ++ c.partsAfter.flatMap (·.checks),
          l.check = d := by
      rw [checks_eq]
      simp only [List.mem_map, exists_exists_and_eq_and, check_around]
    have hexpansion : d ∈ c.expansion ↔ d = c ∨ (∃ part ∈ c.partsBefore, d ∈ part.expansion) ∨
        ∃ part ∈ c.partsAfter, d ∈ part.expansion := by
      rw [mem_expansion]
      simp only [mem_parts_iff, or_and_right, exists_or]
    rw [hmap, hexpansion]
    simp only [List.mem_append, or_and_right (c := _ = d), exists_or]
    rw [hbefore, hown, hafter, ← or_and_right, ← or_and_right, or_assoc, or_left_comm]

/-! ### Running the row -/

/-- The run of one check in the row, on a value. -/
def runCheck (p : Position) (v : Value) (l : OwnCheck) : Trial Verdict :=
  match l.check.ownCriterion p with
  | .ok own => (own.validate v).mapFailure l.decorate
  | .error _ => .pass

/-- What the constraint does to failures from within. -/
def enhancer (c : Constraint) : Enhancer :=
  match c.message with
  | some text => decorate text c.params
  | none => id

theorem runCheck_around (c : Constraint) (p : Position) (v : Value) (l : OwnCheck) :
    runCheck p v (c.around l) = (runCheck p v l).mapFailure c.enhancer := by
  unfold runCheck enhancer
  rw [check_around]
  cases hown : l.check.ownCriterion p with
  | error e => rfl
  | ok own =>
    unfold around
    cases c.message with
    | none => exact (Trial.mapFailure_id _).symm
    | some text =>
      simp only
      rw [Trial.mapFailure_mapFailure, Leaf.decorate_inside]

theorem first_map_around (c : Constraint) (p : Position) (v : Value) (row : List OwnCheck) :
    Trial.first (runCheck p v) (row.map c.around) =
      (Trial.first (runCheck p v) row).mapFailure c.enhancer := by
  rw [Trial.first_map, Trial.mapFailure_first]
  exact Trial.first_congr fun l _ => runCheck_around c p v l

/-- What is made of the parts of a constraint lies in a sequence as the parts lie around its place. -/
theorem sequence_parts (c : Constraint) (own : List Deferred) (make : Constraint → Deferred) :
    sequence c.order own (c.parts.map fun d => (d.order, make d)) =
      c.partsBefore.map make ++ own ++ c.partsAfter.map make := by
  have hsorted := Order.sorted_sort (c.parts.map fun d => (d.order, make d))
  obtain ⟨htake, hdrop⟩ := Order.takeWhile_eq_filter hsorted (Order.upTo_downClosed c.order)
  simp only [Order.upTo] at htake hdrop
  rw [sequence, htake, hdrop, Order.sort_map]
  simp only [List.filter_map, List.map_map, partsBefore, partsAfter, Function.comp_def]

/-- What a constraint runs, in the order in which it runs it. -/
theorem runs_eq (c : Constraint) (p : Position) :
    c.runs p = (c.partsBefore.map fun d => fun _ => d.process p) ++
      (if c.kind.isCombinator then [] else [fun _ => c.ownCriterion p]) ++
      c.partsAfter.map fun d => fun _ => d.process p :=
  sequence_parts c _ _

theorem validate_decorated {c : Constraint} {s : ShapedCriterion} {v : Value}
    (hv : (s.shape.ofValue? v).isSome) :
    (c.decorated s).validate v = (s.validate v).mapFailure c.enhancer := by
  obtain ⟨x, hx⟩ := Option.isSome_iff_exists.1 hv
  unfold decorated enhancer
  cases c.message with
  | none => exact (Trial.mapFailure_id _).symm
  | some text =>
    have henhanced : (s.enhance (decorate text c.params)).validate v =
        (s.criterion.enhance (decorate text c.params)).validate x :=
      ShapedCriterion.validate_of_some (s := s.enhance _) hx
    rw [ShapedCriterion.validate_of_some hx]
    exact henhanced.trans (Criterion.validate_enhance _ _ _)

/-- A simplified aggregate runs what it is made of, one after another. -/
theorem validate_all_of_makes {shape : Shape} {ds : List Deferred}
    {ms : List (Criterion.On shape.Carrier)} (hms : List.Forall₂ (Makes shape) ds ms) {v : Value}
    (hv : (shape.ofValue? v).isSome) :
    (⟨shape, (Criterion.all ms).simplify⟩ : ShapedCriterion).validate v =
      Trial.first (trialOf · v) ds := by
  obtain ⟨x, hx⟩ := Option.isSome_iff_exists.1 hv
  have hall : (⟨shape, (Criterion.all ms).simplify⟩ : ShapedCriterion).validate v =
      (Criterion.all ms).simplify.validate x :=
    ShapedCriterion.validate_of_some (s := ⟨shape, _⟩) hx
  rw [hall, ← first_of_makes hms, Criterion.validate_simplify, Criterion.validate,
    Criterion.validateAll_eq_first]
  exact Trial.first_congr fun m _ =>
    (ShapedCriterion.lift_validate_of_some (s := ⟨shape, m⟩) hx).symm

theorem trialOf_eq {d : Deferred} {s : ShapedCriterion} (hd : d () = .ok s) {v : Value}
    (hv : (s.shape.ofValue? v).isSome) : trialOf d v = s.validate v := by
  obtain ⟨x, hx⟩ := Option.isSome_iff_exists.1 hv
  rw [trialOf, hd, ShapedCriterion.validate_of_some hx]
  exact ShapedCriterion.lift_validate_of_some hx

/-- **The criterion of a constraint runs its checks** in their order, on a value that its shape
converts. -/
theorem validate_of_process {c : Constraint} {p : Position} {v : Value}
    (hv : (p.type.shape.ofValue? v).isSome) :
    ∀ {s}, c.process p = .ok s → s.validate v = Trial.first (runCheck p v) c.checks := by
  induction c using induction with
  | _ c ih =>
    intro s hs
    obtain ⟨ms, hms, rfl⟩ := process_eq_ok_iff.1 hs
    have hmade : ∀ d ∈ c.runs p, ∃ m, Makes p.type.shape d m := exists_forall₂_makes.1 ⟨ms, hms⟩
    obtain ⟨hown, hparts⟩ := forall_runs.1 hmade
    -- a part runs its own row, in which the messages around are not yet counted
    have hpart : ∀ part ∈ c.parts,
        trialOf (fun _ => part.process p) v = Trial.first (runCheck p v) part.checks := by
      intro part hpart
      obtain ⟨m, hm⟩ := hparts part hpart
      rw [trialOf_eq (s := ⟨p.type.shape, m⟩) hm hv]
      exact ih part hpart hm
    have hrow : ∀ parts : List Constraint, (∀ part ∈ parts, part ∈ c.parts) →
        Trial.first (trialOf · v) (parts.map fun d => fun _ => d.process p) =
          Trial.first (runCheck p v) (parts.flatMap (·.checks)) := by
      intro parts hsub
      rw [Trial.first_map, Trial.first_flatMap]
      exact Trial.first_congr fun part hmem => hpart part (hsub part hmem)
    have hself : Trial.first (trialOf · v)
        (if c.kind.isCombinator then [] else [fun _ => c.ownCriterion p]) =
          Trial.first (runCheck p v) c.ownChecks := by
      unfold ownChecks
      cases hcombinator : c.kind.isCombinator with
      | true => rfl
      | false =>
        obtain ⟨m, hm⟩ := hown hcombinator
        have hm : c.ownCriterion p = .ok ⟨p.type.shape, m⟩ := hm
        have hcheck : runCheck p v ⟨c, []⟩ =
            (⟨p.type.shape, m⟩ : ShapedCriterion).validate v := by
          simp only [runCheck, hm]
          exact Trial.mapFailure_id _
        simp only [Bool.false_eq_true, if_false, Trial.first, hcheck]
        rw [trialOf_eq (s := ⟨p.type.shape, m⟩) hm hv]
    rw [validate_decorated hv, validate_all_of_makes hms hv, checks_eq, first_map_around, runs_eq]
    simp only [Trial.first_append, hself]
    rw [hrow c.partsBefore fun part hmem => mem_parts_iff.2 (.inl hmem),
      hrow c.partsAfter fun part hmem => mem_parts_iff.2 (.inr hmem)]

/-! ### Failing to make a criterion -/

/-- What can be made has the shape of the type anyway. -/
theorem exists_makes_iff {shape : Shape} {x : Except AnalysisError ShapedCriterion}
    (h : ∀ own, x = .ok own → own.shape = shape) :
    (∃ m, x = .ok ⟨shape, m⟩) ↔ ∃ own, x = .ok own := by
  constructor
  · rintro ⟨m, hm⟩
    exact ⟨_, hm⟩
  · rintro ⟨own, hown⟩
    obtain rfl := h own hown
    exact ⟨own.criterion, hown⟩

/-- **When there is a criterion**: every constraint in the expansion that does not only expand has its
own check. -/
theorem exists_process_iff {c : Constraint} {p : Position} :
    (∃ s, c.process p = .ok s) ↔
      ∀ d ∈ c.expansion, d.kind.isCombinator = false → ∃ own, d.ownCriterion p = .ok own := by
  induction c using induction with
  | _ c ih =>
    have hmade : (∃ s, c.process p = .ok s) ↔ ∀ d ∈ c.runs p, ∃ m, Makes p.type.shape d m := by
      rw [← exists_forall₂_makes]
      constructor
      · rintro ⟨s, hs⟩
        obtain ⟨ms, hms, -⟩ := process_eq_ok_iff.1 hs
        exact ⟨ms, hms⟩
      · rintro ⟨ms, hms⟩
        exact ⟨_, process_eq_ok_iff.2 ⟨ms, hms, rfl⟩⟩
    -- whatever is made at a position has the shape of its type
    have hown : (∃ m, c.ownCriterion p = .ok ⟨p.type.shape, m⟩) ↔
        ∃ own, c.ownCriterion p = .ok own := by
      refine exists_makes_iff fun own hown => ?_
      obtain ⟨-, -, -, hshape⟩ := ownCriterion_eq_ok.1 hown
      exact hshape
    have hpart : ∀ part : Constraint, (∃ m, part.process p = .ok ⟨p.type.shape, m⟩) ↔
        ∃ s, part.process p = .ok s := fun _ => exists_makes_iff fun _ => shape_of_process
    rw [hmade, forall_runs]
    simp only [Makes, hown, hpart]
    constructor
    · rintro ⟨hself, hparts⟩ d hd hcombinator
      rcases mem_expansion.1 hd with rfl | ⟨part, hmem, hd⟩
      · exact hself hcombinator
      · exact (ih part hmem).1 (hparts part hmem) d hd hcombinator
    · intro hall
      refine ⟨hall c (mem_expansion.2 (.inl rfl)), fun part hmem => (ih part hmem).2 ?_⟩
      exact fun d hd => hall d (mem_expansion.2 (.inr ⟨part, hmem, hd⟩))

/-- **Why a constraint has no check of its own** at a position. -/
inductive Lacks (p : Position) (c : Constraint) : Prop where
  /-- No factory of its kind is for the type. -/
  | factory (h : c.kind.factory? p.type = none)
  /-- The factory refuses the constraint. -/
  | refused (factory : Factory) (e : AnalysisError) (h : c.kind.factory? p.type = some factory)
    (he : factory.produce p.type c.settings = .error e)
  /-- The factory's criterion is not of the shape of the type. -/
  | shape (factory : Factory) (own : ShapedCriterion) (h : c.kind.factory? p.type = some factory)
    (hown : factory.produce p.type c.settings = .ok own) (hshape : own.shape ≠ p.type.shape)

theorem not_exists_ownCriterion_iff {c : Constraint} {p : Position} :
    (¬ ∃ own, c.ownCriterion p = .ok own) ↔ c.Lacks p := by
  simp only [ownCriterion_eq_ok]
  constructor
  · intro h
    cases hfactory : c.kind.factory? p.type with
    | none => exact .factory hfactory
    | some factory =>
      cases hproduce : factory.produce p.type c.settings with
      | error e => exact .refused factory e hfactory hproduce
      | ok own =>
        refine .shape factory own hfactory hproduce fun hshape => ?_
        exact h ⟨own, factory, hfactory, hproduce, hshape⟩
  · rintro h ⟨own, factory, hfactory, hproduce, hshape⟩
    cases h with
    | factory h => exact nomatch hfactory.symm.trans h
    | refused factory' e h he =>
      obtain rfl := Option.some.inj (hfactory.symm.trans h)
      exact nomatch hproduce.symm.trans he
    | shape factory' own' h hown hne =>
      obtain rfl := Option.some.inj (hfactory.symm.trans h)
      obtain rfl := Except.ok.inj (hproduce.symm.trans hown)
      exact hne hshape

theorem fails_iff {c : Constraint} {p : Position} :
    (∃ e, c.process p = .error e) ↔
      ∃ d ∈ c.expansion, d.kind.isCombinator = false ∧ d.Lacks p := by
  have hfails : (∃ e, c.process p = .error e) ↔ ¬ ∃ s, c.process p = .ok s := by
    cases c.process p <;> simp
  rw [hfails, exists_process_iff]
  simp only [← not_exists_ownCriterion_iff]
  push Not
  rfl

/-- **Constraints run their checks in order.** A constraint becomes a criterion of the shape of the
type. On a value that the shape converts it runs the checks of the constraint, each made by the first
factory for the type, one after another up to the first failure, which gets the messages around its
check, innermost first; on any other value it is a type mismatch. There is no criterion exactly when a
constraint in the expansion, which does not only expand, lacks a check of its own. -/
theorem constraints_run_their_checks_in_order (c : Constraint) (p : Position) :
    (∀ s, c.process p = .ok s → s.shape = p.type.shape ∧
      (∀ l ∈ c.checks, ∃ own, l.check.ownCriterion p = .ok own) ∧
      ∀ v, s.validate v = match p.type.shape.ofValue? v with
        | some _ => Trial.first (runCheck p v) c.checks
        | none => .fail (.typeMismatch p.type.shape.name v)) ∧
    ((∃ e, c.process p = .error e) ↔
      ∃ d ∈ c.expansion, d.kind.isCombinator = false ∧ d.Lacks p) := by
  refine ⟨fun s hs => ?_, fails_iff⟩
  have hshape := shape_of_process hs
  refine ⟨hshape, fun l hl => ?_, fun v => ?_⟩
  · obtain ⟨hmem, hcombinator⟩ := exists_mem_checks.1 ⟨l, hl, rfl⟩
    exact exists_process_iff.1 ⟨s, hs⟩ l.check hmem hcombinator
  · cases hv : p.type.shape.ofValue? v with
    | some x => exact validate_of_process (by rw [hv]; rfl) hs
    | none =>
      obtain ⟨shape, criterion⟩ := s
      obtain rfl : shape = p.type.shape := hshape
      simp only [ShapedCriterion.validate, hv]

/-! ### A constraint within a constraint -/

namespace Nested

/-- A kind of checks of truth values, which note their name and pass on the given one. -/
def kind (name : String) (passing : Bool) : Kind where
  name := name
  order := none
  message := none
  attributes := []
  factories := [⟨fun type => type == .scalar .boolean, fun _ _ => .ok ⟨.scalar .boolean, .leaf fun b =>
    .note name (if b = passing then .pass else .fail (.new name "" (.bool b)))⟩⟩]
  parts := []

def constraint (name : String) (passing : Bool) (order : Order) (message : Option String)
    (parts : List Constraint) : Constraint := ⟨kind name passing, .empty, order, message, parts⟩

/-- A constraint with one part at its own place, one before it and one after it. -/
def inner : Constraint :=
  constraint "inner" true (some (-1)) (some "within")
    [constraint "last" false (some 0) none [], constraint "equal" true (some (-1)) none [],
      constraint "first" true none none []]

/-- A constraint with the other one among its parts, one of which has a later place. -/
def outer : Constraint :=
  constraint "outer" true (some 2) none
    [constraint "after" true (some 3) none [], constraint "before" true (some 2) none [], inner]

def position (type : DeclaredType) : Position := ⟨.ofRoot "flag", type⟩

/-- All parts of the inner constraint run before the other parts of the outer one. Its last part fails
on a truth that all others pass on, with the message of the inner constraint. The checks are for truth
values only. -/
theorem inner_runs_first :
    outer.checks.map (·.check.kind.name) =
      ["first", "equal", "inner", "last", "before", "outer", "after"] ∧
    (∃ s, outer.process (position (.scalar .boolean)) = .ok s ∧
      (s.validate (.bool true)).run (fun _ _ => .ok ()) =
        (.error ⟨"last", "within", [], .bool true, []⟩, ["first", "equal", "inner", "last"]) ∧
      s.validate .null = .fail (.typeMismatch "boolean" .null)) ∧
    ∃ e, outer.process (position .text) = .error e := by
  obtain ⟨hruns, hfails⟩ := constraints_run_their_checks_in_order outer (position (.scalar .boolean))
  refine ⟨by cbv, ?_, ?_⟩
  · obtain ⟨s, hs⟩ : ∃ s, outer.process (position (.scalar .boolean)) = .ok s :=
      exists_of_isOk (by cbv)
    obtain ⟨-, -, hvalidate⟩ := hruns s hs
    refine ⟨s, hs, ?_, hvalidate .null⟩
    rw [hvalidate]
    cbv
  · refine ((constraints_run_their_checks_in_order outer (position .text)).2).2 ?_
    exact ⟨outer, mem_expansion.2 (.inl rfl), rfl, .factory rfl⟩

end Nested

end Constraint

end Validation
