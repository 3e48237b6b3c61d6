import Validation.Proofs.Engine.Answers
import Validation.Proofs.Verdict.Constraints

/-!
# What a node decides

A node passes a value when its constraints, its parts and the class that it cascades into do. What
is collected for it comes in ascending order, but a row of trials passes in one order when it does
in any other.

* `Wrapper.Asks`: what a part of the whole is asked for.
* `Node.verdict_finished`: a node passes a value when all that it collects does.
* `Node.isTruth_finished`: a node of which nothing is truth is truth only if it is empty.
-/

namespace Validation

variable {answer : String → Value → Verdict}

/-- The criterion that is made passes the value. -/
def Passes (answer : String → Value → Verdict) (d : Constraint.Deferred) (v : Value) : Prop :=
  (trialOf d v).verdict answer = .ok ()

theorem passes_iff {d : Constraint.Deferred} {s : ShapedCriterion} (h : d () = .ok s) (v : Value) :
    Passes answer d v ↔ (s.lift.validate v).verdict answer = .ok () := by
  rw [Passes, verdict_trialOf h]

/-- The cascade into a class passes null and what the class passes. -/
theorem verdict_cascadeCheck (name : String) (v : Value) :
    (Engine.cascadeCheck name v).verdict answer = .ok () ↔
      v = .null ∨ answer name v = .ok () := by
  unfold Engine.cascadeCheck
  cases v <;> simp [Value.isNull, Trial.verdict, Trial.run, Trial.pass]

namespace Wrapper

/-- What of the whole has to satisfy a condition on the part. -/
def Asks (w : Wrapper) (shape : Shape) (p : Value → Prop) (v : Value) : Prop :=
  match w with
  | property accessor => v.AsObject fun object => p (accessor.read object)
  | arrayElement | iterableElement => v.AsItems p
  | mapKey => v.AsEntries fun entry => p entry.1
  | mapValue => v.AsEntries fun entry => p entry.2
  | optionalValue => p v.content
  | extracted extractor =>
    match extractor.extract v with
    | some held => p held
    | none => shape.isScalar = false → p .null

/-- **The check of the whole** passes a value when the criterion passes what it is about. -/
theorem verdict_check (w : Wrapper) (shape : Shape) (inner : Criterion.On Value) (v : Value) :
    (w.check shape inner v).verdict answer = .ok () ↔
      w.Asks shape (fun x => (inner.validate x).verdict answer = .ok ()) v := by
  have helements : ∀ expected, (checkElements expected inner v).verdict answer = .ok () ↔
      v.AsItems fun x => (inner.validate x).verdict answer = .ok () := by
    intro expected
    cases v with
    | list items =>
      -- the places of items only tell the path of a failure
      have hitems : items = items.zipIdx.map (·.1) := by simp
      rw [checkElements, Trial.verdict_first_ok, Value.AsItems]
      simp only [Trial.verdict_mapFailure_ok]
      conv_rhs => rw [hitems]
      rw [List.forall_mem_map]
    | null => exact Trial.verdict_pass
    | _ => exact Trial.verdict_fail _
  have hentries : ∀ side, (checkEntries side inner v).verdict answer = .ok () ↔
      v.AsEntries fun entry => (inner.validate (side entry)).verdict answer = .ok () := by
    intro side
    cases v with
    | map entries =>
      rw [checkEntries, Trial.verdict_first_ok, Value.AsEntries]
      simp only [Trial.verdict_mapFailure_ok]
    | null => exact Trial.verdict_pass
    | _ => exact Trial.verdict_fail _
  cases w with
  | property accessor =>
    cases v with
    | object className fields => exact Trial.verdict_mapFailure_ok _ _
    | null => exact Trial.verdict_pass
    | _ => exact Trial.verdict_fail _
  | arrayElement => exact helements _
  | iterableElement => exact helements _
  | mapKey => exact hentries _
  | mapValue => exact hentries _
  | optionalValue => cases v <;> exact Iff.rfl
  | extracted extractor =>
    simp only [check, checkExtracted, Asks]
    cases extractor.extract v with
    | some held => exact Iff.rfl
    | none => cases shape.isScalar <;> simp [Trial.verdict_pass]

theorem Asks.congr {w : Wrapper} {shape : Shape} {p q : Value → Prop} (h : ∀ x, p x ↔ q x)
    (v : Value) : w.Asks shape p v ↔ w.Asks shape q v := by
  have hpq : p = q := funext fun x => propext (h x)
  rw [hpq]

end Wrapper

namespace Node

variable {n : Node} {s : ShapedCriterion}

/-- What a node collects comes from its constraints, its parts and the class that it cascades into. -/
theorem forall_collected {link : Linker} {q : Constraint.Deferred → Prop} :
    (∀ d ∈ (n.contributions link).map (·.2) ++ n.linked link, q d) ↔
      (∀ c ∈ n.constraints, q fun _ => c.process n.position) ∧
      (∀ k ∈ n.children, q (part link k).2) ∧
      ∀ name, n.cascade = some name → q fun _ => ShapedCriterion.onValues <$> link name := by
  have hcontributions : (∀ e ∈ n.contributions link, q e.2) ↔
      (∀ c ∈ n.constraints, q fun _ => c.process n.position) ∧
        ∀ k ∈ n.children, q (part link k).2 := by
    simp only [mem_contributions, or_imp, forall_and, own, parts_eq, List.mem_reverse,
      List.forall_mem_map]
  have hlinked : (∀ d ∈ n.linked link, q d) ↔ ∀ name, n.cascade = some name →
      q fun _ => ShapedCriterion.onValues <$> link name := by
    simp only [linked, List.forall_mem_map, Option.mem_toList]
  rw [List.forall_mem_append, List.forall_mem_map, hcontributions, hlinked, and_assoc]

/-- **A node passes a value** when its constraints, its parts and the class that it cascades into do. -/
theorem verdict_finished {link : Linker} (h : n.finished link = .ok s) (v : Value) :
    (s.lift.validate v).verdict answer = .ok () ↔
      (∀ c ∈ n.constraints, Passes answer (fun _ => c.process n.position) v) ∧
      (∀ k ∈ n.children, Passes answer (part link k).2 v) ∧
      ∀ name, n.cascade = some name →
        Passes answer (fun _ => ShapedCriterion.onValues <$> link name) v := by
  rw [validate_finished h, Trial.verdict_first_ok]
  exact forall_collected (q := (Passes answer · v))

/-- What a node has is made when the node has a criterion. -/
theorem made_of_finished {link : Linker} (h : n.finished link = .ok s) :
    (∀ c ∈ n.constraints, ∃ t, c.process n.position = .ok t) ∧
      ∀ k ∈ n.children, ∃ u c, k.node.finished link = .ok u ∧ k.wrapper.wrap u = .ok c := by
  obtain ⟨hconstraints, hchildren, -⟩ := exists_finished_iff.1 ⟨s, h⟩
  refine ⟨fun c hc => ?_, fun k hk => ?_⟩
  · obtain ⟨m, hm⟩ := hconstraints c hc
    exact ⟨_, hm⟩
  · obtain ⟨-, hsupports, u, hu⟩ := hchildren k hk
    rw [← shape_of_finished hu] at hsupports
    exact ⟨u, _, hu, Wrapper.wrap_eq_ok.2 ⟨hsupports, rfl⟩⟩

/-- **A part passes a value** when its node passes what the whole is asked for. -/
theorem passes_part {link : Linker} {k : Child Node} {u : ShapedCriterion} {c : Criterion.On Value}
    (hu : k.node.finished link = .ok u) (hc : k.wrapper.wrap u = .ok c) (htruth : u.isTruth = false)
    (v : Value) :
    Passes answer (part link k).2 v ↔ k.wrapper.Asks k.node.type.shape
      (fun x => (u.lift.validate x).verdict answer = .ok ()) v := by
  rw [passes_iff (part_eq_ok.2 ⟨u, hu, c, hc, rfl⟩)]
  obtain ⟨-, rfl⟩ := Wrapper.wrap_eq_ok.1 hc
  rw [htruth, if_neg Bool.false_ne_true, ← shape_of_finished hu]
  exact k.wrapper.verdict_check u.shape u.lift v

/-- **A node of which nothing is truth** is truth only if it is empty. -/
theorem isTruth_finished (h : n.finished Engine.linked = .ok s)
    (hconstraints : ∀ c ∈ n.constraints, ∀ t, c.process n.position = .ok t → t.isTruth = false)
    (hchildren : ∀ k ∈ n.children, ∀ u, k.node.finished Engine.linked = .ok u → u.isTruth = false) :
    s.isTruth = n.isEmpty := by
  obtain ⟨ms, hms, rfl⟩ := finished_eq_ok_iff.1 h
  have hempty : ((n.contributions Engine.linked).map (·.2) ++ n.linked Engine.linked).isEmpty =
      n.isEmpty := by
    rw [Bool.eq_iff_iff, List.isEmpty_iff, List.eq_nil_iff_forall_not_mem, forall_collected, isEmpty]
    simp only [imp_false, Bool.and_eq_true, List.isEmpty_iff, List.eq_nil_iff_forall_not_mem,
      Option.isNone_iff_eq_none, Option.eq_none_iff_forall_ne_some, and_assoc, and_congr_right_iff]
    exact fun _ => and_comm
  rw [ShapedCriterion.isTruth, isTruth_of_makes hms, hempty]
  refine forall_collected.2 ⟨fun c hc t ht => ?_, fun k hk t ht => ?_, fun name _ t ht => ?_⟩
  · exact (isTidy_process ht).members_ne_nil (hconstraints c hc t ht)
  · obtain ⟨u, hu, c, hc, rfl⟩ := part_eq_ok.1 ht
    obtain ⟨-, rfl⟩ := Wrapper.wrap_eq_ok.1 hc
    rw [hchildren k hk u hu, if_neg Bool.false_ne_true]
    exact List.cons_ne_nil _ _
  · cases ht
    exact List.cons_ne_nil _ _

end Node

end Validation
