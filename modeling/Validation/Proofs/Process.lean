import Validation.Proofs.Compile.Members

/-!
# What a constraint becomes

A constraint runs its own check, which comes from the first factory of its kind for the type, and what
its parts become, and puts its message on their failures. The order of its parts says in which order
it runs them, but not what it runs.

* `Constraint.runs`: what a constraint runs.
* `mem_runs`, `forall_runs`: its own check and its parts.
* `process_eq_ok_iff`: what a constraint becomes.
* `ends_process`: how it fails, if its own check and its parts are of the shape of the type.
-/

namespace Validation

variable {bad : AnalysisError → Prop}

/-- A criterion of the shape of the others is pushed. -/
theorem ends_push {cs : ShapedCriteria} {c : ShapedCriterion} (h : c.shape = cs.shape) :
    Ends bad (fun out => out.shape = cs.shape) (cs.push c) := by
  rw [ShapedCriteria.push, dif_pos h]
  exact rfl

namespace Constraint

theorem deferAll_eq (p : Position) (parts : List Constraint) :
    deferAll p parts = parts.map fun c => (c.order, fun _ => c.process p) := by
  induction parts with
  | nil => rw [deferAll, List.map_nil]
  | cons c rest ih => rw [deferAll, ih, List.map_cons]

theorem mem_sequence {order : Order} {own : List Deferred} {parts : List (Order × Deferred)}
    {d : Deferred} :
    d ∈ sequence order own parts ↔ d ∈ own ∨ ∃ e ∈ parts, e.2 = d := by
  have hsplit := List.takeWhile_append_dropWhile (p := (·.1.le order)) (l := Order.sort (·.1) parts)
  have hmem : ∀ e, e ∈ parts ↔ e ∈ (Order.sort (·.1) parts).takeWhile (·.1.le order) ∨
      e ∈ (Order.sort (·.1) parts).dropWhile (·.1.le order) := by
    intro e
    rw [← List.mem_append, hsplit, Order.mem_sort]
  simp only [sequence, List.mem_append, List.mem_map, hmem]
  constructor
  · rintro ((⟨e, he, rfl⟩ | hown) | ⟨e, he, rfl⟩)
    · exact .inr ⟨e, .inl he, rfl⟩
    · exact .inl hown
    · exact .inr ⟨e, .inr he, rfl⟩
  · rintro (hown | ⟨e, he | he, rfl⟩)
    · exact .inl (.inr hown)
    · exact .inl (.inl ⟨e, he, rfl⟩)
    · exact .inr ⟨e, he, rfl⟩

/-- What a constraint runs: its own check, unless its kind only expands, and its parts. -/
def runs (p : Position) (c : Constraint) : List Deferred :=
  sequence c.order (if c.kind.isCombinator then [] else [fun _ => c.ownCriterion p])
    (c.parts.map fun d => (d.order, fun _ => d.process p))

/-- A criterion with the message of the constraint on its failures, if there is one. -/
def decorated (c : Constraint) (s : ShapedCriterion) : ShapedCriterion :=
  match c.message with
  | some text => s.enhance (decorate text c.params)
  | none => s

theorem mem_runs {p : Position} {c : Constraint} {d : Deferred} :
    d ∈ c.runs p ↔ (c.kind.isCombinator = false ∧ d = fun _ => c.ownCriterion p) ∨
      ∃ part ∈ c.parts, d = fun _ => part.process p := by
  rw [runs, mem_sequence]
  refine or_congr ?_ (by simp [eq_comm])
  cases c.kind.isCombinator <;> simp

theorem forall_runs {p : Position} {c : Constraint} {q : Deferred → Prop} :
    (∀ d ∈ c.runs p, q d) ↔ (c.kind.isCombinator = false → q fun _ => c.ownCriterion p) ∧
      ∀ part ∈ c.parts, q fun _ => part.process p := by
  simp only [mem_runs, or_imp, forall_and, and_imp, forall_exists_index]
  refine and_congr ⟨fun h hown => h _ hown rfl, ?_⟩ ⟨fun h part hpart => h _ part hpart rfl, ?_⟩
  · rintro h d hown rfl
    exact h hown
  · rintro h d part hpart rfl
    exact h part hpart

/-- **What a constraint becomes**: what it runs in a sequence, and the message on the failures. -/
theorem process_eq_ok_iff {c : Constraint} {p : Position} {s : ShapedCriterion} :
    c.process p = .ok s ↔ ∃ ms, List.Forall₂ (Makes p.type.shape) (c.runs p) ms ∧
      s = c.decorated ⟨p.type.shape, (Criterion.all ms).simplify⟩ := by
  obtain ⟨kind, attributes, order, message, parts⟩ := c
  rw [process, deferAll_eq]
  simp only [bind_eq_ok, combine_eq_ok_iff, pure_eq_ok]
  constructor
  · rintro ⟨_, ⟨ms, hms, rfl⟩, rfl⟩
    refine ⟨ms, hms, ?_⟩
    cases message <;> rfl
  · rintro ⟨ms, hms, rfl⟩
    refine ⟨_, ⟨ms, hms, rfl⟩, ?_⟩
    cases message <;> rfl

theorem shape_of_process {c : Constraint} {p : Position} {s : ShapedCriterion}
    (h : c.process p = .ok s) : s.shape = p.type.shape := by
  obtain ⟨ms, -, rfl⟩ := process_eq_ok_iff.1 h
  unfold decorated
  cases c.message <;> rfl

/-- The check of the constraint itself comes from the first factory of its kind. -/
theorem ownCriterion_eq_ok {c : Constraint} {p : Position} {s : ShapedCriterion} :
    c.ownCriterion p = .ok s ↔ ∃ factory, c.kind.factory? p.type = some factory ∧
      factory.produce p.type c.settings = .ok s ∧ s.shape = p.type.shape := by
  unfold ownCriterion
  constructor
  · intro h
    split at h
    · cases h
    case h_2 factory hfactory =>
      obtain ⟨own, hproduce, h⟩ := bind_eq_ok.1 h
      split_ifs at h with hshape
      rw [pure_eq_ok] at h
      subst h
      exact ⟨factory, hfactory, hproduce, hshape⟩
  · rintro ⟨factory, hfactory, hproduce, hshape⟩
    rw [hfactory]
    refine bind_eq_ok.2 ⟨s, hproduce, ?_⟩
    rw [if_pos hshape]
    rfl

theorem ends_combine {shape : Shape} {ds : List Deferred}
    (h : ∀ d ∈ ds, Ends bad (fun own => own.shape = shape) (d ())) :
    Ends bad (fun s => s.shape = shape) (combine shape ds) := by
  have hpushed : Ends bad (fun cs : ShapedCriteria => cs.shape = shape)
      (ds.foldlM (fun unit c => do unit.push (← c ())) (.empty shape)) := by
    refine ends_foldlM (fun d hd cs hcs => ?_) rfl
    refine ends_bind (h d hd) fun own hown => ?_
    exact (ends_push (hown.trans hcs.symm)).imp fun out hout => hout.trans hcs
  exact ends_bind hpushed fun cs hcs => ends_pure hcs

/-- **How a constraint fails**: as its own check and its parts do, if these are of the shape of the
type. -/
theorem ends_process {c : Constraint} {p : Position}
    (hown : c.kind.isCombinator = false →
      Ends bad (fun own => own.shape = p.type.shape) (c.ownCriterion p))
    (hparts : ∀ part ∈ c.parts, Ends bad (fun own => own.shape = p.type.shape) (part.process p)) :
    Ends bad (fun s => s.shape = p.type.shape) (c.process p) := by
  have hruns : Ends bad (fun s => s.shape = p.type.shape) (combine p.type.shape (c.runs p)) :=
    ends_combine (forall_runs.2 ⟨hown, hparts⟩)
  obtain ⟨kind, attributes, order, message, parts⟩ := c
  rw [process, deferAll_eq]
  refine ends_bind hruns fun unit hunit => ends_pure ?_
  cases message <;> exact hunit

end Validation.Constraint
