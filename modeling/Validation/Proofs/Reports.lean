import Validation.Proofs.Intern
import Validation.Proofs.Process
import Validation.Proofs.Wrapper

/-!
# What a trial asks for and what it reports

The trial of a tree is put together from the trials of its constraints, of the parts of the value and
of the classes that it asks for. So is what it reports: a failure comes from a constraint at its own
place, from a part through the step that leads there, or from an answer.

* `Trial.Meets`: what a trial asks for, and what it reports as long as the answers are right.
* `Constraint.Reports`: what the checks of a constraint report, which ask for nothing.
* `Node.meets_finished`: what the trial of a tree asks for and reports.
-/

namespace Validation

namespace Trial

/-- **What a trial asks for and reports.** It makes only requests that are `asked`, and as long as it
is answered with failures that are `answered` only, its own failure is `reported`. -/
def Meets (asked : String → Value → Prop) (answered : String → Value → Failure → Prop)
    (reported : Failure → Prop) : Trial Verdict → Prop
  | done verdict => ∀ f, verdict = .error f → reported f
  | note _ next => next.Meets asked answered reported
  | cascade className v next => asked className v ∧
      ∀ verdict : Verdict, (∀ f, verdict = .error f → answered className v f) →
        (next verdict).Meets asked answered reported

/-- The trial makes no request, and its failure is `reported`. -/
def Reports (reported : Failure → Prop) (t : Trial Verdict) : Prop :=
  t.Meets (fun _ _ => False) (fun _ _ _ => False) reported

variable {asked asked' : String → Value → Prop} {answered answered' : String → Value → Failure → Prop}
  {reported reported' : Failure → Prop} {t : Trial Verdict}

theorem meets_pass : pass.Meets asked answered reported := nofun

theorem meets_fail {f : Failure} (hf : reported f) : (fail f).Meets asked answered reported :=
  fun _ h => Except.error.inj h ▸ hf

theorem Meets.mono (h : t.Meets asked answered reported)
    (hasked : ∀ name v, asked name v →
      asked' name v ∧ ∀ f, answered' name v f → answered name v f)
    (hreported : ∀ f, reported f → reported' f) : t.Meets asked' answered' reported' := by
  induction t with
  | done verdict => exact fun f hf => hreported f (h f hf)
  | note entry next ih => exact ih h
  | cascade className v next ih =>
    obtain ⟨hask, hnext⟩ := h
    obtain ⟨hask', hanswer⟩ := hasked className v hask
    exact ⟨hask', fun verdict hverdict =>
      ih verdict (hnext verdict fun f hf => hanswer f (hverdict f hf))⟩

/-- A trial that makes no request meets what is asked of any. -/
theorem Reports.meets (h : t.Reports reported) (hreported : ∀ f, reported f → reported' f) :
    t.Meets asked answered reported' := Meets.mono h (fun _ _ hasked => hasked.elim) hreported

theorem Meets.andThen {u : Unit → Trial Verdict} (ht : t.Meets asked answered reported)
    (hu : (u ()).Meets asked answered reported) : (t.andThen u).Meets asked answered reported := by
  induction t with
  | done verdict =>
    cases verdict with
    | ok => exact hu
    | error f => exact meets_fail (ht f rfl)
  | note entry next ih => exact ih ht
  | cascade className v next ih =>
    exact ⟨ht.1, fun verdict hverdict => ih verdict (ht.2 verdict hverdict)⟩

theorem Meets.mapFailure {change : Enhancer} (ht : t.Meets asked answered reported)
    (hchange : ∀ f, reported f → reported' (change f)) :
    (t.mapFailure change).Meets asked answered reported' := by
  induction t with
  | done verdict =>
    cases verdict with
    | ok => exact meets_pass
    | error f => exact meets_fail (hchange f (ht f rfl))
  | note entry next ih => exact ih ht
  | cascade className v next ih =>
    exact ⟨ht.1, fun verdict hverdict => ih verdict (ht.2 verdict hverdict)⟩

theorem meets_first {α : Type} {test : α → Trial Verdict} {l : List α}
    (h : ∀ a ∈ l, (test a).Meets asked answered reported) :
    (first test l).Meets asked answered reported := by
  induction l with
  | nil => exact meets_pass
  | cons a l ih =>
    have hhead := h a List.mem_cons_self
    exact hhead.andThen (ih fun b hb => h b (List.mem_cons_of_mem _ hb))

end Trial

variable {asked : String → Value → Prop} {answered : String → Value → Failure → Prop}

/-- A simplified aggregate asks for and reports what its members do. -/
theorem Criterion.meets_simplify {α : Type} {cs : List (Criterion.On α)} {x : α}
    {reported : Failure → Prop}
    (h : ∀ c ∈ cs, (c.validate x).Meets asked answered reported) :
    ((Criterion.all cs).simplify.validate x).Meets asked answered reported := by
  rw [validate_simplify, validate, validateAll_eq_first]
  exact Trial.meets_first h

/-- Lifting adds failures of values without a scalar only. -/
theorem ShapedCriterion.meets_lift {s : ShapedCriterion} {v : Value} {reported : Failure → Prop}
    (h : ∀ x, s.shape.ofValue? v = some x → (s.criterion.validate x).Meets asked answered reported)
    (hmismatch : reported (.typeMismatch s.shape.name v)) :
    (s.lift.validate v).Meets asked answered reported := by
  cases hx : s.shape.ofValue? v with
  | some x =>
    rw [lift_validate_of_some hx]
    exact h x hx
  | none =>
    rw [lift_validate_of_none hx]
    split_ifs
    · exact Trial.meets_pass
    · exact Trial.meets_fail hmismatch

/-- The failure as seen from the beginning of the steps that lead to where it is reported. -/
def Failure.through (f : Failure) (steps : List Step) : Failure :=
  { f with path := steps ++ f.path }

namespace Wrapper

/-- **The check of the whole** asks for what the criterion of the part asks for. It reports what is
reported of a part, through the steps that lead there, and wholes of another kind. -/
theorem meets_check {w : Wrapper} {shape : Shape} {inner : Criterion.On Value} {v : Value}
    {reported : Failure → Prop} {within : Value → Failure → Prop}
    (hinner : ∀ steps x, w.Enters v steps x → (inner.validate x).Meets asked answered (within x))
    (henters : ∀ steps x, w.Enters v steps x → ∀ f, within x f → reported (f.through steps))
    (hmismatch : ∀ expected, reported (.typeMismatch expected v)) :
    (w.check shape inner v).Meets asked answered reported := by
  have hstep : ∀ step x, w.Enters v [step] x →
      ((inner.validate x).mapFailure (·.within step)).Meets asked answered reported :=
    fun step x hx => (hinner [step] x hx).mapFailure (henters [step] x hx)
  have hsame : ∀ x, w.Enters v [] x → (inner.validate x).Meets asked answered reported :=
    fun x hx => (hinner [] x hx).mono (fun _ _ hasked => ⟨hasked, fun _ h => h⟩) (henters [] x hx)
  have htries := w.tries_check shape inner v
  generalize w.check shape inner v = t at htries ⊢
  cases htries with
  | nothing => exact Trial.meets_pass
  | mismatch => exact Trial.meets_fail (hmismatch _)
  | part hx => exact hsame _ hx
  | member hx => exact hstep _ _ hx
  | members hall => exact Trial.meets_first fun m hm => hstep _ _ (hall m hm)

end Wrapper

variable {q : Value → Failure → Prop}

/-- The checks of the criterion make no request, and what they report of a value has a property. -/
def ShapedCriterion.Reports (q : Value → Failure → Prop) (s : ShapedCriterion) : Prop :=
  ∀ x, (s.criterion.validate x).Reports (q (s.shape.toValue x))

/-- What a kind makes of its constraints makes no request, and what it reports has a property. -/
def Kind.Reports (q : Value → Failure → Prop) (k : Kind) : Prop :=
  ∀ factory ∈ k.factories, ∀ type attributes s,
    factory.produce type ⟨k.name, attributes⟩ = .ok s → s.Reports q

/-- What a constraint becomes makes no request, and what it reports has a property. -/
def Constraint.Reports (q : Value → Failure → Prop) (c : Constraint) : Prop :=
  ∀ p s, c.process p = .ok s → s.Reports q

namespace Constraint

variable (hq : ∀ v f message params, q v f → q v (decorate message params f))
include hq

theorem reports_decorated {c : Constraint} {s : ShapedCriterion} (h : s.Reports q) :
    (c.decorated s).Reports q := by
  unfold decorated
  cases c.message with
  | none => exact h
  | some text =>
    intro x
    have henhance := Criterion.validate_enhance s.criterion (decorate text c.params) x
    exact henhance.symm ▸ (h x).mapFailure fun f hf => hq _ f text c.params hf

/-- A constraint reports what its kind and its parts do, apart from the message and its parameters. -/
theorem reports_of_kind {c : Constraint} (hkind : c.kind.Reports q)
    (hparts : ∀ d ∈ c.parts, d.Reports q) : c.Reports q := by
  intro p s hs
  obtain ⟨ms, hms, rfl⟩ := process_eq_ok_iff.1 hs
  refine reports_decorated hq fun x => Criterion.meets_simplify fun m hm => ?_
  obtain ⟨d, hd, hmakes⟩ := exists_mem_of_forall₂ hms m hm
  rcases mem_runs.1 hd with ⟨-, rfl⟩ | ⟨part, hpart, rfl⟩
  · obtain ⟨factory, hfactory, hproduce, -⟩ := ownCriterion_eq_ok.1 hmakes
    exact hkind factory (List.mem_of_find?_eq_some hfactory) _ _ _ hproduce x
  · exact hparts part hpart p _ hmakes x

/-- Interned constraints report what the kinds do. -/
theorem reports_assemble :
    Assembles (Constraint.Reports q) (Kind.Reports q) :=
  fun _ _ _ hkind hparts => reports_of_kind hq hkind (forall_of_internedParts hparts)

end Constraint

namespace Node

/-- What is asked for and reported at a node, of a value, comes from its own constraints, from its
children through the steps that lead there, and from what its cascade is linked to. -/
structure Heeds (asked : Node → Value → String → Value → Prop)
    (answered : String → Value → Failure → Prop) (reported : DeclaredType → Value → Failure → Prop)
    (link : Linker) (n : Node) : Prop where
  own : ∀ c ∈ n.constraints, ∀ s, c.process n.position = .ok s →
    ∀ v, (s.lift.validate v).Meets (asked n v) answered (reported n.type v)
  asks : ∀ k ∈ n.children, ∀ v steps x, k.wrapper.Enters v steps x →
    ∀ name y, asked k.node x name y → asked n v name y
  child : ∀ k ∈ n.children, ∀ v steps x, k.wrapper.Enters v steps x →
    ∀ f, reported k.node.type x f → reported n.type v (f.through steps)
  linked : ∀ name, n.cascade = some name → ∀ c, link name = .ok c →
    ∀ v, (c.validate v).Meets (asked n v) answered (reported n.type v)

/-- **The trial of a tree** asks for and reports what its nodes do. -/
theorem meets_finished (asked : Node → Value → String → Value → Prop)
    (reported : DeclaredType → Value → Failure → Prop) {link : Linker}
    (hmismatch : ∀ type v expected, reported type v (.typeMismatch expected v)) {n : Node}
    (h : ∀ m ∈ n.nodes, m.Heeds asked answered reported link) {s : ShapedCriterion}
    (hs : n.finished link = .ok s) (v : Value) :
    (s.lift.validate v).Meets (asked n v) answered (reported n.type v) := by
  induction n using Node.induction generalizing s v with
  | _ n ih =>
    have hn := h n (mem_nodes_self n)
    rw [validate_finished hs]
    refine Trial.meets_first (forall_trialOf Trial.meets_pass ?own ?child ?linked)
    case own => exact fun c hc s hs => hn.own c hc s hs v
    case child =>
      intro k hk u hu
      refine Wrapper.meets_check (fun steps x hx => ?_) (hn.child k hk v) (hmismatch n.type v)
      have hbelow := ih k hk (fun m hm => h m (mem_nodes.2 (.inr ⟨k, hk, hm⟩))) hu x
      exact hbelow.mono (fun name y hy => ⟨hn.asks k hk v steps x hx name y hy, fun _ h => h⟩)
        fun _ h => h
    case linked => exact fun name hname c hc => hn.linked name hname c hc v

end Node

end Validation
