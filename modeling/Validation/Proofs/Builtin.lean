import Mathlib.Data.List.Nodup
import Validation.Catalog.Builtin
import Validation.Proofs.Contained
import Validation.Proofs.Reports

/-!
# The standard kinds probe the value

What the standard kinds make of a constraint is a single check. It looks at the value and at nothing
else: it passes or fails on the spot, and its failure is one of the value itself, with the name of the
kind for its code, or reports a value of another kind.

* `Failure.At`: a failure of the value itself.
* `probes_builtin`: the standard kinds probe the value.
* `plain_builtin`, `quiet_builtin`: so they are plain, and what they make asks for no class.
-/

namespace Validation

/-- The failure is one of the value itself: no step leads to the value. -/
def Failure.At (v : Value) (f : Failure) : Prop := f.path = [] ∧ f.value = v

namespace Failure

variable {v : Value} {f : Failure}

theorem at_new (code template : String) (v : Value) : (new code template v).At v := ⟨rfl, rfl⟩

theorem At.setParam (h : f.At v) (name value : String) : (f.setParam name value).At v := h

theorem At.setParams (h : f.At v) (params : List (String × String)) : (f.setParams params).At v := by
  rw [setParams_eq]
  exact h

theorem At.decorate (h : f.At v) (message : String) (params : List (String × String)) :
    (Constraint.decorate message params f).At v := by
  have htemplate : (f.withTemplate message).At v := h
  exact htemplate.setParams params

theorem at_typeMismatch (expected : String) (v : Value) : (typeMismatch expected v).At v :=
  (at_new _ _ v).setParams _

end Failure

/-- The trial passes, or fails on the spot with a failure of the value itself that is no analysis
error. -/
def Trial.Probes (v : Value) (t : Trial Verdict) : Prop :=
  t = pass ∨ ∃ f : Failure, t = fail f ∧ f.code ≠ analysisCode ∧ f.At v

namespace Trial

variable {v : Value} {t : Trial Verdict}

theorem probes_pass : pass.Probes v := .inl rfl

theorem probes_fail {f : Failure} (hcode : f.code ≠ analysisCode) (hat : f.At v) :
    (fail f).Probes v := .inr ⟨f, rfl, hcode, hat⟩

theorem probes_typeMismatch (expected : String) (v : Value) :
    (fail (.typeMismatch expected v)).Probes v :=
  probes_fail (code_typeMismatch expected v) (Failure.at_typeMismatch expected v)

theorem Probes.isPlain (h : t.Probes v) : t.IsPlain := by
  rcases h with rfl | ⟨f, rfl, hcode, -⟩
  · exact isPlain_pass
  · exact isPlain_fail hcode

theorem Probes.reports (h : t.Probes v) : t.Reports (Failure.At v) := by
  rcases h with rfl | ⟨f, rfl, -, hat⟩
  · exact meets_pass
  · exact meets_fail hat

end Trial

/-- The criterion is a single check, which probes the value that it is given. -/
def ShapedCriterion.Probes (s : ShapedCriterion) : Prop :=
  ∃ check, s.criterion = .leaf check ∧ ∀ x, (check x).Probes (s.shape.toValue x)

/-- What a kind makes of its constraints probes the value. -/
def Kind.Probes (k : Kind) : Prop :=
  ∀ factory ∈ k.factories, ∀ type attributes s,
    factory.produce type ⟨k.name, attributes⟩ = .ok s → s.Probes

namespace Kind

variable {k : Kind}

theorem Probes.isPlain (h : k.Probes) : k.IsPlain := by
  intro factory hfactory type attributes s hs
  obtain ⟨check, hleaf, hcheck⟩ := h factory hfactory type attributes s hs
  exact ⟨check, hleaf, fun x => (hcheck x).isPlain⟩

theorem Probes.reports (h : k.Probes) : k.Reports Failure.At := by
  intro factory hfactory type attributes s hs x
  obtain ⟨check, hleaf, hcheck⟩ := h factory hfactory type attributes s hs
  rw [hleaf]
  exact (hcheck x).reports

/-- A kind that only expands makes nothing itself. -/
theorem probes_of_isCombinator (h : k.factories = []) : k.Probes := by
  intro factory hfactory
  rw [h] at hfactory
  cases hfactory

end Kind

namespace Builtin

variable {report : Report}

theorem Report.at_failure (report : Report) (v : Value) : (report.failure v).At v :=
  (Failure.at_new _ _ v).setParams _

theorem probes_checkNumber {kind : ScalarKind} {test : Number → Bool}
    (hcode : report.code ≠ analysisCode) (v : Value) :
    (checkNumber kind test report v).Probes v := by
  have hfailure : (report.failure v).code ≠ analysisCode := by
    rwa [Report.failure, Failure.code_setParams]
  unfold checkNumber
  split_ifs
  · exact Trial.probes_pass
  · split
    · split_ifs
      · exact Trial.probes_pass
      · exact Trial.probes_fail hfailure (report.at_failure v)
    · exact Trial.probes_typeMismatch _ _

theorem probes_numericCriterion {type : DeclaredType} {test : Number → Bool}
    (hcode : report.code ≠ analysisCode) {s : ShapedCriterion}
    (hs : numericCriterion type test report = .ok s) : s.Probes := by
  unfold numericCriterion at hs
  split at hs
  case h_1 kind =>
    split_ifs at hs
    cases hs
    exact ⟨_, rfl, fun x => probes_checkNumber hcode _⟩
  case h_2 kind =>
    split_ifs at hs
    cases hs
    exact ⟨_, rfl, fun v => probes_checkNumber hcode v⟩
  case h_3 => cases hs

theorem probes_checkSize {type : DeclaredType} {low high : Int}
    (hcode : report.code ≠ analysisCode) (v : Value) :
    (checkSize type low high report v).Probes v := by
  have hfailure : ∀ size, ((report.failure v).setParam "size" size).code ≠ analysisCode := by
    intro size
    rwa [Failure.code_setParam, Report.failure, Failure.code_setParams]
  unfold checkSize
  split_ifs
  · exact Trial.probes_pass
  · split
    · split_ifs
      · exact Trial.probes_pass
      · exact Trial.probes_fail (hfailure _) ((report.at_failure v).setParam _ _)
    · exact Trial.probes_typeMismatch _ _

theorem probes_checkIdCard {code : String} (hcode : code ≠ analysisCode) {region : Region}
    {legacy : Bool} (v : Value) : (checkIdCard code region legacy v).Probes v := by
  unfold checkIdCard
  split
  · exact Trial.probes_pass
  · split_ifs
    · exact Trial.probes_pass
    · exact Trial.probes_fail hcode ((Failure.at_new _ _ _).setParam _ _)
  · exact Trial.probes_typeMismatch _ _

theorem probes_bound {name message : String} {accepts : Ordering → Bool}
    (hname : name ≠ analysisCode) (type : DeclaredType) (attributes : Attributes)
    (s : ShapedCriterion) (hs : (bound message accepts).produce type ⟨name, attributes⟩ = .ok s) :
    s.Probes := by
  obtain ⟨limit, -, hs⟩ := bind_eq_ok.1 hs
  exact probes_numericCriterion hname hs

theorem probes_positive : positive.Probes := by
  intro factory hfactory type attributes s hs
  rw [List.mem_singleton.1 hfactory] at hs
  exact probes_numericCriterion (show "positive" ≠ analysisCode by decide) hs

theorem probes_min : Builtin.min.Probes := by
  intro factory hfactory type attributes s hs
  rw [List.mem_singleton.1 hfactory] at hs
  exact probes_bound (by decide) type attributes s hs

theorem probes_max : Builtin.max.Probes := by
  intro factory hfactory type attributes s hs
  rw [List.mem_singleton.1 hfactory] at hs
  exact probes_bound (by decide) type attributes s hs

theorem probes_size : Builtin.size.Probes := by
  intro factory hfactory type attributes s hs
  rw [List.mem_singleton.1 hfactory] at hs
  simp only [sizeCriterion, bind_eq_ok] at hs
  obtain ⟨low, -, high, -, hs⟩ := hs
  split_ifs at hs <;> cases hs
  exact ⟨_, rfl, fun v => probes_checkSize (show "size" ≠ analysisCode by decide) v⟩

theorem probes_notNull : notNull.Probes := by
  intro factory hfactory type attributes s hs
  rw [List.mem_singleton.1 hfactory] at hs
  cases hs
  refine ⟨_, rfl, fun v => ?_⟩
  cases v with
  | null =>
    exact Trial.probes_fail (show "not_null" ≠ analysisCode by decide) (Failure.at_new _ _ _)
  | _ => exact Trial.probes_pass

theorem probes_domain : Builtin.domain.Probes := by
  intro factory hfactory type attributes s hs
  rw [List.mem_singleton.1 hfactory] at hs
  obtain ⟨expression, -, hs⟩ := bind_eq_ok.1 hs
  split at hs
  · cases hs
  · exact probes_numericCriterion (show "domain" ≠ analysisCode by decide) hs

theorem probes_idCard : idCard.Probes := by
  intro factory hfactory type attributes s hs
  rw [List.mem_singleton.1 hfactory] at hs
  obtain ⟨name, -, hs⟩ := bind_eq_ok.1 hs
  split at hs
  · cases hs
  · obtain ⟨legacy, -, hs⟩ := bind_eq_ok.1 hs
    cases hs
    exact ⟨_, rfl, fun v => probes_checkIdCard (show "id_card" ≠ analysisCode by decide) v⟩

end Builtin

namespace Catalog

/-- The kind is one of the standard ones. -/
def IsStandard (k : Kind) : Prop := k ∈ builtin.kinds

open Builtin in
/-- The standard kinds expand into standard kinds. -/
theorem standard_builtin : ∀ kind ∈ builtin.kinds, kind.Every IsStandard := by
  have hstandard : ∀ kind ∈ builtin.kinds, IsStandard kind := fun _ h => h
  simp only [builtin, List.forall_mem_cons] at hstandard
  obtain ⟨hpositive, hmin, hmax, hrange, hsize, hnotNull, hnotEmpty, hdomain, hidCard, -⟩ := hstandard
  have hmin : Builtin.min.Every IsStandard := ⟨hmin, trivial⟩
  have hmax : Builtin.max.Every IsStandard := ⟨hmax, trivial⟩
  have hsize : Builtin.size.Every IsStandard := ⟨hsize, trivial⟩
  have hnotNull : notNull.Every IsStandard := ⟨hnotNull, trivial⟩
  simp only [builtin, List.forall_mem_cons]
  exact ⟨⟨hpositive, trivial⟩, hmin, hmax, ⟨hrange, hmin, hmax, trivial⟩, hsize, hnotNull,
    ⟨hnotEmpty, hnotNull, hsize, trivial⟩, ⟨hdomain, trivial⟩, ⟨hidCard, trivial⟩, by simp⟩

open Builtin in
/-- **All standard kinds probe the value.** -/
theorem probes_builtin : ∀ kind ∈ builtin.kinds, kind.Probes := by
  simp only [builtin, List.forall_mem_cons]
  exact ⟨probes_positive, probes_min, probes_max, Kind.probes_of_isCombinator rfl, probes_size,
    probes_notNull, Kind.probes_of_isCombinator rfl, probes_domain, probes_idCard, by simp⟩

/-- All standard kinds are plain. -/
theorem plain_builtin : ∀ kind ∈ builtin.kinds, kind.IsPlain :=
  fun kind hkind => (probes_builtin kind hkind).isPlain

/-- A kind that makes nothing itself expands into something. -/
theorem parts_ne_nil : ∀ kind ∈ builtin.kinds, kind.factories = [] → kind.parts ≠ [] := by
  simp [builtin, Builtin.positive, Builtin.min, Builtin.max, Builtin.range, Builtin.size,
    Builtin.notNull, Builtin.notEmpty, Builtin.domain, Builtin.idCard]

/-- A kind that expands into something makes nothing itself. -/
theorem isCombinator_of_mem_parts : ∀ kind ∈ builtin.kinds, ∀ part ∈ kind.parts,
    kind.factories = [] := by
  simp [builtin, Builtin.positive, Builtin.min, Builtin.max, Builtin.range, Builtin.size,
    Builtin.notNull, Builtin.notEmpty, Builtin.domain, Builtin.idCard]

/-- **A standard kind is told by its name.** -/
theorem standard_unique {k k' : Kind} (hk : IsStandard k) (hk' : IsStandard k')
    (hname : k.name = k'.name) : k = k' := by
  have hnodup : (builtin.kinds.map (·.name)).Nodup := by decide
  exact List.inj_on_of_nodup_map hnodup hk hk' hname

end Catalog

/-- **All standard kinds are quiet.** -/
theorem quiet_builtin : ∀ kind ∈ Catalog.builtin.kinds, kind.Every Kind.IsQuiet := by
  intro kind hkind
  refine (Catalog.standard_builtin kind hkind).mono fun k hk => ?_
  exact (Catalog.plain_builtin k hk).isQuiet

end Validation
