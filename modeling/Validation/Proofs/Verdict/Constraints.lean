import Validation.Proofs.Builtin
import Validation.Proofs.Verdict.Satisfies

/-!
# What a constraint decides

A constraint of a standard kind becomes a criterion that passes exactly the values that the kind
accepts. The order of its parts and the message on its failures do not matter for that.

* `Constraint.verdict_process`: a constraint passes a value when its own check and its parts do.
* `Constraint.Sound`: the constraint decides what its kind accepts.
* `sound_assemble`: all interned constraints of standard kinds are sound.
-/

namespace Validation

variable {answer : String → Value → Verdict}

namespace Trial

theorem IsPlain.verdict_eq_ok {t : Trial Verdict} (h : t.IsPlain) :
    t.verdict answer = .ok () ↔ t = pass := by
  rcases h with rfl | ⟨f, rfl, -⟩
  · exact iff_of_true rfl rfl
  · exact (verdict_fail f).trans ⟨False.elim, nofun⟩

end Trial

namespace ShapedCriterion

/-- The trial of a plain criterion is plain: a value of another kind is a failure. -/
theorem IsPlain.lift {s : ShapedCriterion} (h : s.IsPlain) (v : Value) :
    (s.lift.validate v).IsPlain := by
  obtain ⟨check, hleaf, hcheck⟩ := h
  cases hx : s.shape.ofValue? v with
  | some x =>
    rw [lift_validate_of_some hx, hleaf]
    exact hcheck x
  | none =>
    rw [lift_validate_of_none hx, isTruth, hleaf]
    exact Trial.isPlain_fail (code_typeMismatch _ _)

theorem IsPlain.members_ne_nil {s : ShapedCriterion} (h : s.IsPlain) : s.criterion.members ≠ [] := by
  obtain ⟨check, hleaf, -⟩ := h
  rw [hleaf]
  exact List.cons_ne_nil _ _

theorem isTruth_enhance (s : ShapedCriterion) (f : Enhancer) : (s.enhance f).isTruth = s.isTruth := by
  unfold enhance ShapedCriterion.isTruth Criterion.enhance
  cases s.criterion <;> rfl

/-- A decoration of failures does not change what passes. -/
theorem verdict_lift_enhance (s : ShapedCriterion) (f : Enhancer) (v : Value) :
    ((s.enhance f).lift.validate v).verdict answer = .ok () ↔
      (s.lift.validate v).verdict answer = .ok () := by
  cases hx : s.shape.ofValue? v with
  | some x =>
    have hx' : (s.enhance f).shape.ofValue? v = some x := hx
    rw [lift_validate_of_some hx', lift_validate_of_some hx]
    change Trial.verdict answer ((s.criterion.enhance f).validate x) = .ok () ↔ _
    rw [Criterion.validate_enhance, Trial.verdict_mapFailure_ok]
  | none =>
    have hx' : (s.enhance f).shape.ofValue? v = none := hx
    rw [lift_validate_of_none hx', lift_validate_of_none hx, isTruth_enhance]
    rfl

end ShapedCriterion

/-- What is tidy and not truth has members. -/
theorem Criterion.IsTidy.members_ne_nil {κ ε : Type} {c : Criterion κ ε} (h : c.IsTidy)
    (htruth : c.isTruth = false) : c.members ≠ [] := by
  intro hnil
  rw [h hnil] at htruth
  cases htruth

/-- An aggregate of what has members is truth only if it is empty. -/
theorem Criterion.isTruth_simplify_all {κ ε : Type} {cs : List (Criterion κ ε)}
    (h : ∀ c ∈ cs, c.members ≠ []) : (Criterion.all cs).simplify.isTruth = cs.isEmpty := by
  rw [isTruth_simplify, members]
  cases cs with
  | nil => rfl
  | cons c cs =>
    rw [membersOf, List.isEmpty_cons, List.isEmpty_eq_false_iff]
    exact List.append_ne_nil_of_left_ne_nil (h c List.mem_cons_self) _

/-- What is made of criteria with members is truth only if nothing is made. -/
theorem isTruth_of_makes {shape : Shape} {ds : List Constraint.Deferred}
    {ms : List (Criterion.On shape.Carrier)} (h : List.Forall₂ (Makes shape) ds ms)
    (hds : ∀ d ∈ ds, ∀ t, d () = .ok t → t.criterion.members ≠ []) :
    (Criterion.all ms).simplify.isTruth = ds.isEmpty := by
  rw [Criterion.isTruth_simplify_all fun m hm => ?_]
  · cases h <;> rfl
  · obtain ⟨d, hd, hmakes⟩ := exists_mem_of_forall₂ h m hm
    exact hds d hd _ hmakes

namespace Constraint

variable {c : Constraint} {p : Position} {s : ShapedCriterion}

theorem isTruth_decorated : (c.decorated s).isTruth = s.isTruth := by
  unfold decorated
  cases c.message with
  | none => rfl
  | some text => exact ShapedCriterion.isTruth_enhance s _

theorem verdict_decorated (v : Value) :
    ((c.decorated s).lift.validate v).verdict answer = .ok () ↔
      (s.lift.validate v).verdict answer = .ok () := by
  unfold decorated
  cases c.message with
  | none => exact Iff.rfl
  | some text => exact ShapedCriterion.verdict_lift_enhance s _ v

/-- Everything that a constraint runs is made. -/
theorem made_of_process (h : c.process p = .ok s) :
    ∀ d ∈ c.runs p, ∃ m, Makes p.type.shape d m := by
  obtain ⟨ms, hms, -⟩ := process_eq_ok_iff.1 h
  exact exists_forall₂_makes.1 ⟨ms, hms⟩

/-- What a constraint of a plain kind runs is tidy. -/
theorem isTidy_of_runs (hplain : c.kind.IsPlain) {d : Deferred} (hd : d ∈ c.runs p)
    {t : ShapedCriterion} (ht : d () = .ok t) : t.criterion.IsTidy := by
  rcases mem_runs.1 hd with ⟨-, rfl⟩ | ⟨part, -, rfl⟩
  · obtain ⟨factory, hfactory, hproduce, -⟩ := ownCriterion_eq_ok.1 ht
    have hown := hplain factory (List.mem_of_find?_eq_some hfactory) _ _ _ hproduce
    exact fun hnil => absurd hnil hown.members_ne_nil
  · exact isTidy_process ht

/-- **A constraint passes a value** when all that it runs does, in whatever order. -/
theorem verdict_process (hplain : c.kind.IsPlain) (h : c.process p = .ok s) (v : Value) :
    (s.lift.validate v).verdict answer = .ok () ↔
      ∀ d ∈ c.runs p, (trialOf d v).verdict answer = .ok () := by
  obtain ⟨ms, hms, rfl⟩ := process_eq_ok_iff.1 h
  have htidy : ∀ m ∈ ms, m.IsTidy := by
    intro m hm
    obtain ⟨d, hd, hmakes⟩ := exists_mem_of_forall₂ hms m hm
    exact isTidy_of_runs hplain hd hmakes
  rw [verdict_decorated, ShapedCriterion.lift_validate_all (fun _ => htidy) v, first_of_makes hms,
    Trial.verdict_first_ok]

/-- What a constraint becomes is not truth if it runs something, and nothing of that is truth. -/
theorem isTruth_process (h : c.process p = .ok s) (hruns : c.runs p ≠ [])
    (hmembers : ∀ d ∈ c.runs p, ∀ t, d () = .ok t → t.criterion.members ≠ []) :
    s.isTruth = false := by
  obtain ⟨ms, hms, rfl⟩ := process_eq_ok_iff.1 h
  rw [isTruth_decorated, ShapedCriterion.isTruth, isTruth_of_makes hms hmembers,
    List.isEmpty_eq_false_iff]
  exact hruns

/-- **The constraint decides what its kind accepts**: what it becomes at a position is not truth, and it
passes a value when the kind accepts it there. -/
structure Sound (c : Constraint) : Prop where
  standard : Catalog.IsStandard c.kind
  quiet : c.IsQuiet
  nontrivial : ∀ p s, c.process p = .ok s → s.isTruth = false
  decides : ∀ answer p s, c.process p = .ok s → ∀ v,
    (s.lift.validate v).verdict answer = .ok () ↔ c.kind.Accepts p.type v c.attributes

/-- The own check of a constraint of a plain kind passes a value on the spot or not at all. -/
theorem verdict_own (hplain : c.kind.IsPlain) (h : c.ownCriterion p = .ok s) (v : Value) :
    (s.lift.validate v).verdict answer = .ok () ↔
      ∃ factory own, c.kind.factories.find? (·.applies p.type) = some factory ∧
        factory.produce p.type c.settings = .ok own ∧ own.lift.validate v = .pass := by
  obtain ⟨factory, hfactory, hproduce, -⟩ := ownCriterion_eq_ok.1 h
  have hs : s.IsPlain := hplain factory (List.mem_of_find?_eq_some hfactory) _ _ _ hproduce
  rw [(hs.lift v).verdict_eq_ok]
  constructor
  · exact fun hpass => ⟨factory, s, hfactory, hproduce, hpass⟩
  · rintro ⟨factory', own, hfactory', hproduce', hpass⟩
    obtain rfl : factory = factory' := Option.some.inj (hfactory.symm.trans hfactory')
    obtain rfl : s = own := Except.ok.inj (hproduce.symm.trans hproduce')
    exact hpass

end Constraint

open Constraint (Sound)

theorem verdict_trialOf {d : Constraint.Deferred} {s : ShapedCriterion} (h : d () = .ok s) (v : Value) :
    (trialOf d v).verdict answer = (s.lift.validate v).verdict answer := by
  rw [trialOf, h]

theorem Kind.accepts_iff {k : Kind} {type : DeclaredType} {v : Value} {attributes : Attributes} :
    k.Accepts type v attributes ↔
      (k.isCombinator = false → ∃ factory own, k.factories.find? (·.applies type) = some factory ∧
        factory.produce type ⟨k.name, attributes⟩ = .ok own ∧ own.lift.validate v = .pass) ∧
      PartsAccept type v k.name attributes k.parts := by
  obtain ⟨name, order, message, specs, factories, parts⟩ := k
  rw [Accepts, isCombinator, or_iff_not_imp_left, ← List.isEmpty_iff, Bool.not_eq_true]

/-- **What is interned for a standard kind** passes what the kind accepts with the attributes that are
declared. -/
theorem Interned.verdict_process {kind : Kind} {declared : Attributes} {c : Constraint}
    (h : Interned Sound kind declared c) (hkind : Catalog.IsStandard kind) {p : Position}
    {s : ShapedCriterion} (hs : c.process p = .ok s) (v : Value) :
    (s.lift.validate v).verdict answer = .ok () ↔
      ∃ attributes, kind.resolve declared = .ok attributes ∧ kind.Accepts p.type v attributes := by
  obtain ⟨hsound, attributes, hresolve, hkey⟩ := h
  obtain ⟨hname, rfl⟩ := ConstraintKey.mk.inj hkey
  obtain rfl := Catalog.standard_unique hsound.standard hkind hname
  rw [hsound.decides answer p s hs]
  constructor
  · exact fun haccepts => ⟨_, hresolve, haccepts⟩
  · rintro ⟨attributes, hresolve', haccepts⟩
    rw [hresolve] at hresolve'
    cases hresolve'
    exact haccepts

/-- The parts of a constraint pass what the parts of its kind accept. -/
theorem verdict_parts {outerKind : String} {outer : Attributes} {parts : List (Part Kind)}
    {cs : List Constraint} (h : List.Forall₂ (InternedPart Sound outerKind outer) parts cs)
    (hparts : Kind.EveryPart Catalog.IsStandard parts) {p : Position}
    (hmade : ∀ d ∈ cs, ∃ s, d.process p = .ok s) (v : Value) :
    (∀ d ∈ cs, (trialOf (fun _ => d.process p) v).verdict answer = .ok ()) ↔
      Kind.PartsAccept p.type v outerKind outer parts := by
  induction h with
  | nil => simp [Kind.PartsAccept]
  | @cons part d parts cs hpart _ ih =>
    obtain ⟨target, sources⟩ := part
    obtain ⟨htarget, hrest⟩ := hparts
    obtain ⟨declared, hdeclared, hinterned⟩ := hpart
    obtain ⟨⟨s, hs⟩, hmade⟩ := List.forall_mem_cons.1 hmade
    rw [List.forall_mem_cons, ih hrest hmade, Kind.PartsAccept,
      verdict_trialOf (d := fun _ => d.process p) hs, hinterned.verdict_process htarget.self hs]
    refine and_congr_left' ?_
    constructor
    · rintro ⟨attributes, hresolve, haccepts⟩
      exact ⟨declared, attributes, hdeclared, hresolve, haccepts⟩
    · rintro ⟨declared', attributes, hdeclared', hresolve, haccepts⟩
      -- the sources tell in one way what is declared of a part
      obtain rfl : declared = declared' := Except.ok.inj (hdeclared.symm.trans hdeclared')
      exact ⟨attributes, hresolve, haccepts⟩

/-- **All interned constraints of standard kinds are sound.** -/
theorem sound_assemble : Assembles Sound Catalog.IsStandard := by
  intro kind attributes cs hkind hparts
  have hplain : kind.IsPlain := Catalog.plain_builtin kind hkind
  have hsound : ∀ d ∈ cs, d.Sound := forall_of_internedParts hparts
  refine ⟨hkind, Constraint.isQuiet_of_kind hplain.isQuiet fun d hd => (hsound d hd).quiet,
    fun p s hs => ?_, fun answer p s hs v => ?_⟩
  · refine Constraint.isTruth_process hs (fun hnil => ?_) (Constraint.forall_runs.2 ⟨?_, ?_⟩)
    · -- a kind that only expands has a part
      have hnone : ∀ d ∈ (Constraint.assemble kind attributes cs).runs p, False := by simp [hnil]
      obtain ⟨hown, hnoparts⟩ := Constraint.forall_runs.1 hnone
      have hcs : cs = [] := List.eq_nil_iff_forall_not_mem.2 hnoparts
      rw [hcs, List.forall₂_nil_right_iff] at hparts
      exact Catalog.parts_ne_nil kind hkind
        (List.isEmpty_iff.1 (Bool.not_eq_false _ ▸ hown : kind.isCombinator = true)) hparts
    · intro _ t ht
      obtain ⟨factory, hfactory, hproduce, -⟩ := Constraint.ownCriterion_eq_ok.1 ht
      exact (hplain factory (List.mem_of_find?_eq_some hfactory) _ _ _ hproduce).members_ne_nil
    · intro d hd t ht
      exact (isTidy_process ht).members_ne_nil ((hsound d hd).nontrivial p t ht)
  · have hmade := Constraint.forall_runs.1 (Constraint.made_of_process hs)
    rw [Constraint.verdict_process hplain hs, Constraint.forall_runs, Kind.accepts_iff]
    refine and_congr (imp_congr_right fun hown => ?_) ?_
    · obtain ⟨m, hm⟩ := hmade.1 hown
      rw [verdict_trialOf hm]
      exact Constraint.verdict_own hplain hm v
    · refine verdict_parts hparts (Catalog.standard_builtin kind hkind).parts (fun d hd => ?_) v
      obtain ⟨m, hm⟩ := hmade.2 d hd
      exact ⟨_, hm⟩

end Validation
