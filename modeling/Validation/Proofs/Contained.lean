import Validation.Proofs.Failure
import Validation.Proofs.Process
import Validation.Proofs.Wrapper

/-!
# What a trial asks for

The trial of a compiled tree asks for the verdicts of the classes that the tree cascades into, and of
no others, as long as the checks of the constraints ask for none. And it never makes up a failure of
the code that is kept for classes that cannot be analysed: it has one only from an answer.

* `Trial.Contained`: such a trial.
* `Node.contained_finished`: the trials of a compiled tree are contained in its cascades.
-/

namespace Validation

/-- The code of a failure for a class that cannot be analysed. -/
def analysisCode : String := "analysis_error"

/-- A verdict that is no report of a class that cannot be analysed. -/
def Verdict.Analysed (v : Verdict) : Prop := ∀ f, v = .error f → f.code ≠ analysisCode

theorem Verdict.analysed_error {f : Failure} (hf : f.code ≠ analysisCode) :
    Verdict.Analysed (.error f) := fun _ h => Except.error.inj h ▸ hf

namespace Trial

/-- The trial asks for classes of `names` only and fails as soon as an answer is a failure. It comes to
an analysis error only if that answer is one. -/
def Contained (names : String → Prop) : Trial Verdict → Prop
  | done verdict => verdict.Analysed
  | note _ next => next.Contained names
  | cascade className _ next =>
    names className ∧ (next (.ok ())).Contained names ∧ ∀ f : Failure, ∃ g : Failure,
      next (.error f) = fail g ∧ (f.code ≠ analysisCode → g.code ≠ analysisCode)

variable {names names' : String → Prop} {t : Trial Verdict}

theorem contained_pass : pass.Contained names := fun _ h => nomatch h

theorem contained_fail {f : Failure} (hf : f.code ≠ analysisCode) : (fail f).Contained names :=
  Verdict.analysed_error hf

/-- The trial passes or fails on the spot, and its failure is no analysis error. -/
def IsPlain (t : Trial Verdict) : Prop := t = pass ∨ ∃ f : Failure, t = fail f ∧ f.code ≠ analysisCode

theorem isPlain_pass : pass.IsPlain := .inl rfl

theorem isPlain_fail {f : Failure} (hf : f.code ≠ analysisCode) : (fail f).IsPlain :=
  .inr ⟨f, rfl, hf⟩

theorem IsPlain.contained (h : t.IsPlain) : t.Contained names := by
  rcases h with rfl | ⟨f, rfl, hf⟩
  · exact contained_pass
  · exact contained_fail hf

theorem Contained.mono (h : t.Contained names) (hnames : ∀ name, names name → names' name) :
    t.Contained names' := by
  induction t with
  | done verdict => exact h
  | note entry next ih => exact ih h
  | cascade className value next ih => exact ⟨hnames _ h.1, ih _ h.2.1, h.2.2⟩

theorem Contained.andThen {u : Unit → Trial Verdict} (ht : t.Contained names)
    (hu : (u ()).Contained names) : (t.andThen u).Contained names := by
  induction t with
  | done verdict =>
    cases verdict with
    | ok => exact hu
    | error f => exact contained_fail (ht f rfl)
  | note entry next ih => exact ih ht
  | cascade className value next ih =>
    refine ⟨ht.1, ih _ ht.2.1, fun f => ?_⟩
    obtain ⟨g, hnext, hg⟩ := ht.2.2 f
    refine ⟨g, ?_, hg⟩
    change (next (.error f)).andThen u = fail g
    rw [hnext, fail_andThen]

theorem Contained.mapFailure {change : Failure → Failure} (hchange : ∀ f, (change f).code = f.code)
    (ht : t.Contained names) : (t.mapFailure change).Contained names := by
  induction t with
  | done verdict =>
    cases verdict with
    | ok => exact contained_pass
    | error f => exact contained_fail (hchange f ▸ ht f rfl)
  | note entry next ih => exact ih ht
  | cascade className value next ih =>
    refine ⟨ht.1, ih _ ht.2.1, fun f => ?_⟩
    obtain ⟨g, hnext, hg⟩ := ht.2.2 f
    refine ⟨change g, ?_, fun hf => hchange g ▸ hg hf⟩
    change (next (.error f)).mapFailure change = fail (change g)
    rw [hnext, mapFailure_fail]

theorem contained_first {α : Type} {test : α → Trial Verdict} {l : List α}
    (h : ∀ a ∈ l, (test a).Contained names) : (first test l).Contained names := by
  induction l with
  | nil => exact contained_pass
  | cons a l ih =>
    exact (h a List.mem_cons_self).andThen (ih fun b hb => h b (List.mem_cons_of_mem _ hb))

end Trial

theorem code_typeMismatch (expected : String) (actual : Value) :
    (Failure.typeMismatch expected actual).code ≠ analysisCode := by
  simp [Failure.typeMismatch, Failure.new, analysisCode]

theorem code_decorate (message : String) (params : List (String × String)) (f : Failure) :
    (Constraint.decorate message params f).code = f.code := Failure.code_setParams _ params

/-- Criteria whose trials are contained. -/
def Criterion.Contained {α : Type} (names : String → Prop) (c : Criterion.On α) : Prop :=
  ∀ x, (c.validate x).Contained names

variable {names : String → Prop}

theorem Criterion.contained_simplify {α : Type} {cs : List (Criterion.On α)}
    (h : ∀ c ∈ cs, c.Contained names) : (Criterion.all cs).simplify.Contained names := by
  intro x
  rw [validate_simplify, validate, validateAll_eq_first]
  exact Trial.contained_first fun c hc => h c hc x

theorem Criterion.Contained.enhance {α : Type} {c : Criterion.On α} (h : c.Contained names)
    {f : Enhancer} (hf : ∀ failure, (f failure).code = failure.code) :
    (c.enhance f).Contained names := by
  intro x
  rw [validate_enhance]
  exact (h x).mapFailure hf

/-- Lifting adds failures of values of another kind only. -/
theorem ShapedCriterion.contained_lift {s : ShapedCriterion} (h : s.criterion.Contained names) :
    s.lift.Contained names := by
  intro v
  cases hx : s.shape.ofValue? v with
  | some x =>
    rw [lift_validate_of_some hx]
    exact h x
  | none =>
    rw [lift_validate_of_none hx]
    split_ifs
    · exact Trial.contained_pass
    · exact Trial.contained_fail (code_typeMismatch _ _)

/-- The check of the whole asks for what the criterion of the part asks for. -/
theorem Wrapper.contained_check {w : Wrapper} {shape : Shape} {inner : Criterion.On Value}
    (h : inner.Contained names) (v : Value) : (w.check shape inner v).Contained names := by
  have hwithin : ∀ step x, ((inner.validate x).mapFailure (·.within step)).Contained names :=
    fun step x => (h x).mapFailure fun _ => rfl
  have htries := w.tries_check shape inner v
  generalize w.check shape inner v = t at htries ⊢
  cases htries with
  | nothing => exact Trial.contained_pass
  | mismatch => exact Trial.contained_fail (code_typeMismatch _ v)
  | part => exact h _
  | member => exact hwithin _ _
  | members => exact Trial.contained_first fun m _ => hwithin _ _

/-- What a kind makes of its constraints asks for no class. -/
def Kind.IsQuiet (k : Kind) : Prop :=
  ∀ factory ∈ k.factories, ∀ type attributes s,
    factory.produce type ⟨k.name, attributes⟩ = .ok s → s.criterion.Contained fun _ => False

/-- The criterion is a single check, which passes or fails on the spot. -/
def ShapedCriterion.IsPlain (s : ShapedCriterion) : Prop :=
  ∃ check, s.criterion = .leaf check ∧ ∀ x, (check x).IsPlain

/-- What a kind makes of its constraints is a single check, which passes or fails on the spot. -/
def Kind.IsPlain (k : Kind) : Prop :=
  ∀ factory ∈ k.factories, ∀ type attributes s,
    factory.produce type ⟨k.name, attributes⟩ = .ok s → s.IsPlain

theorem Kind.IsPlain.isQuiet {k : Kind} (h : k.IsPlain) : k.IsQuiet := by
  intro factory hfactory type attributes s hs
  obtain ⟨check, hleaf, hcheck⟩ := h factory hfactory type attributes s hs
  rw [hleaf]
  exact fun x => (hcheck x).contained

/-- What a constraint becomes asks for no class. -/
def Constraint.IsQuiet (c : Constraint) : Prop :=
  ∀ p s, c.process p = .ok s → s.criterion.Contained fun _ => False

namespace Constraint

theorem contained_decorated {c : Constraint} {s : ShapedCriterion}
    (h : s.criterion.Contained names) : (c.decorated s).criterion.Contained names := by
  unfold decorated
  cases c.message with
  | none => exact h
  | some text => exact h.enhance (code_decorate text c.params)

/-- A constraint is quiet if its kind and its parts are. -/
theorem isQuiet_of_kind {c : Constraint} (hkind : c.kind.IsQuiet)
    (hparts : ∀ d ∈ c.parts, d.IsQuiet) : c.IsQuiet := by
  intro p s hs
  obtain ⟨ms, hms, rfl⟩ := process_eq_ok_iff.1 hs
  have hall : (Criterion.all ms).simplify.Contained fun _ => False := by
    refine Criterion.contained_simplify fun m hm => ?_
    obtain ⟨d, hd, hmakes⟩ := exists_mem_of_forall₂ hms m hm
    rcases mem_runs.1 hd with ⟨-, rfl⟩ | ⟨part, hpart, rfl⟩
    · obtain ⟨factory, hfactory, hproduce, -⟩ := ownCriterion_eq_ok.1 hmakes
      exact hkind factory (List.mem_of_find?_eq_some hfactory) _ _ _ hproduce
    · exact hparts part hpart p _ hmakes
  exact contained_decorated hall

end Constraint

/-- **The trial of a node** asks for the classes that the nodes of its tree cascade into. -/
theorem Node.contained_finished {link : Linker} {n : Node}
    (hquiet : ∀ m ∈ n.nodes, ∀ c ∈ m.constraints, c.IsQuiet)
    (hlink : ∀ m ∈ n.nodes, ∀ name, m.cascade = some name → ∀ c, link name = .ok c →
      c.Contained names) {s : ShapedCriterion} (h : n.finished link = .ok s) :
    s.lift.Contained names := by
  induction n using Node.induction generalizing s with
  | _ n ih =>
    intro v
    rw [validate_finished h]
    refine Trial.contained_first (forall_trialOf Trial.contained_pass ?own ?child ?linked)
    case own =>
      intro c hc s hs
      have hown := hquiet n (mem_nodes_self n) c hc _ s hs
      exact (ShapedCriterion.contained_lift hown v).mono fun _ => False.elim
    case child =>
      intro k hk s hs
      have hsub : ∀ m ∈ k.node.nodes, m ∈ n.nodes := fun m hm => mem_nodes.2 (.inr ⟨k, hk, hm⟩)
      have hbelow := ih k hk (fun m hm => hquiet m (hsub m hm)) (fun m hm => hlink m (hsub m hm)) hs
      exact Wrapper.contained_check hbelow v
    case linked => exact fun name hname c hc => hlink n (mem_nodes_self n) name hname c hc v

end Validation
