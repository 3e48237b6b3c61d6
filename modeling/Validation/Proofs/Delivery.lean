import Validation.Proofs.Builtin
import Validation.Proofs.Kind
import Validation.Proofs.Process

/-!
# Standard kinds deliver where they apply

Where a constraint may stand is decided by its kind, and what it becomes there by the first factory
for the type. The two agree for the standard kinds: wherever a constraint of one applies it becomes a
criterion of the shape of the type, unless the value of one of its attributes is bad.

* `AnalysisError.IsBadValue`: the errors of attributes with bad values.
* `Kind.Delivers`, `delivers_builtin`: what the factories of the standard kinds make.
* `Constraint.Delivers`, `delivers_assemble`: what the interned constraints become.
-/

namespace Validation

/-- The error is that an attribute has a bad value: it is not one of the attribute, or an expression
in it cannot be read. -/
def AnalysisError.IsBadValue : AnalysisError → Prop
  | invalidAttribute .. | malformedExpression .. => True
  | _ => False

open AnalysisError (IsBadValue)

/-- The computation makes a criterion of the shape of the type, unless an attribute has a bad value. -/
abbrev DeliversAt (type : DeclaredType) (x : Except AnalysisError ShapedCriterion) : Prop :=
  Ends IsBadValue (fun own => own.shape = type.shape) x

/-- **The kind delivers**: its factories make criteria for all types that they apply to. -/
def Kind.Delivers (k : Kind) : Prop :=
  ∀ factory ∈ k.factories, ∀ type, factory.applies type = true → ∀ attributes,
    DeliversAt type (factory.produce type ⟨k.name, attributes⟩)

theorem Kind.delivers_of_factory {k : Kind} {factory : Factory} (hk : k.factories = [factory])
    (h : ∀ type, factory.applies type = true → ∀ attributes,
      DeliversAt type (factory.produce type ⟨k.name, attributes⟩)) : k.Delivers := by
  intro factory' hfactory'
  rw [hk] at hfactory'
  rw [List.mem_singleton.1 hfactory']
  exact h

theorem Kind.delivers_of_isCombinator {k : Kind} (hk : k.factories = []) : k.Delivers := by
  intro factory hfactory
  rw [hk] at hfactory
  cases hfactory

/-- An attribute is read. -/
theorem ends_read {α : Type} (s : Settings) (read : Attribute → Option α) (name reason : String) :
    Ends IsBadValue (fun _ => True) (s.read read name reason) := by
  unfold Settings.read
  split <;> trivial

namespace Builtin

variable {type : DeclaredType}

theorem shape_of_isReference (h : type.isReference = true) : type.shape = .reference := by
  cases type <;> first | rfl | cases h

theorem isReference_of_isSized (h : type.isSized = true) : type.isReference = true := by
  cases type <;> first | rfl | cases h

theorem delivers_numericCriterion (h : type.isNumeric = true) (test : Number → Bool)
    (report : Report) : DeliversAt type (numericCriterion type test report) := by
  cases type with
  | scalar kind =>
    have hkind : kind.isNumeric = true := h
    rw [numericCriterion, if_pos hkind]
    exact rfl
  | boxed kind =>
    have hkind : kind.isNumeric = true := h
    rw [numericCriterion, if_pos hkind]
    exact rfl
  | _ => cases h

theorem delivers_sizeCriterion (h : type.isSized = true) (settings : Settings) :
    DeliversAt type (sizeCriterion type settings) := by
  unfold sizeCriterion
  refine ends_bind (ends_read settings _ _ _) fun low _ => ?_
  refine ends_bind (ends_read settings _ _ _) fun high _ => ?_
  dsimp only
  split_ifs
  · trivial
  · trivial
  · trivial
  · exact (shape_of_isReference (isReference_of_isSized h)).symm

theorem delivers_bound (h : type.isNumeric = true) (message : String) (accepts : Ordering → Bool)
    (settings : Settings) : DeliversAt type ((bound message accepts).produce type settings) :=
  ends_bind (ends_read settings _ _ _) fun _ _ => delivers_numericCriterion h _ _

theorem delivers_domain : Builtin.domain.Delivers := by
  refine Kind.delivers_of_factory rfl fun type h attributes => ?_
  refine ends_bind (ends_read _ _ _ _) fun expression _ => ?_
  split
  · trivial
  · exact delivers_numericCriterion h _ _

theorem delivers_idCard : idCard.Delivers := by
  refine Kind.delivers_of_factory rfl fun type h attributes => ?_
  obtain rfl : type = .text := by simpa using h
  refine ends_bind (ends_read _ _ _ _) fun name _ => ?_
  split
  · trivial
  · exact ends_bind (ends_read _ _ _ _) fun legacy _ => ends_pure rfl

end Builtin

open Builtin in
/-- **All standard kinds deliver.** -/
theorem delivers_builtin : ∀ kind ∈ Catalog.builtin.kinds, kind.Delivers := by
  have hpositive : positive.Delivers :=
    Kind.delivers_of_factory rfl fun _ h _ => delivers_numericCriterion h _ _
  have hmin : Builtin.min.Delivers :=
    Kind.delivers_of_factory rfl fun _ h _ => delivers_bound h _ _ _
  have hmax : Builtin.max.Delivers :=
    Kind.delivers_of_factory rfl fun _ h _ => delivers_bound h _ _ _
  have hsize : Builtin.size.Delivers :=
    Kind.delivers_of_factory rfl fun _ h _ => delivers_sizeCriterion h _
  have hnotNull : notNull.Delivers :=
    Kind.delivers_of_factory rfl fun _ h _ => (shape_of_isReference h).symm
  simp only [Catalog.builtin, List.forall_mem_cons]
  exact ⟨hpositive, hmin, hmax, Kind.delivers_of_isCombinator rfl, hsize, hnotNull,
    Kind.delivers_of_isCombinator rfl, delivers_domain, delivers_idCard, by simp⟩

namespace Constraint

/-- **The constraint delivers**: it is one of a standard kind, and becomes a criterion wherever its
kind applies. -/
structure Delivers (c : Constraint) : Prop where
  standard : Catalog.IsStandard c.kind
  process : ∀ p : Position, c.kind.applies p.type = true → DeliversAt p.type (c.process p)

/-- The check of the constraint itself. -/
theorem delivers_ownCriterion {c : Constraint} {p : Position} (hc : c.kind.Delivers)
    (hkind : c.kind.isCombinator = false) (happlies : c.kind.applies p.type = true) :
    DeliversAt p.type (c.ownCriterion p) := by
  obtain ⟨factory, hmem, hfactory, hfound⟩ := Kind.exists_factory_of_applies hkind happlies
  rw [ownCriterion, hfound]
  refine ends_bind (hc factory hmem p.type hfactory c.attributes) fun own hown => ?_
  rw [if_pos hown]
  exact ends_pure hown

end Constraint

/-- **All interned constraints of standard kinds deliver.** -/
theorem delivers_assemble : Assembles Constraint.Delivers Catalog.IsStandard := by
  intro kind attributes cs hkind hparts
  refine ⟨hkind, fun p happlies => Constraint.ends_process (fun hfactories => ?_) fun c hc => ?_⟩
  · exact Constraint.delivers_ownCriterion (c := .assemble kind attributes cs)
      (delivers_builtin kind hkind) hfactories happlies
  · -- a kind with parts applies where they do, and a part is of the kind that the part names
    obtain ⟨part, hpart, declared, -, hdelivers, attributes', -, hkey⟩ :=
      exists_mem_of_forall₂ hparts c hc
    have hfactories := Catalog.isCombinator_of_mem_parts kind hkind part hpart
    have htargets : ∀ part ∈ kind.parts, part.target.applies p.type = true := by
      have hall : kind.applies p.type = true := happlies
      rwa [Kind.applies_of_parts hfactories, List.all_eq_true] at hall
    have htarget : part.target.Every Catalog.IsStandard :=
      (Catalog.standard_builtin kind hkind).parts.target part hpart
    have hname : c.kind.name = part.target.name := congrArg ConstraintKey.kind hkey
    have heq : c.kind = part.target :=
      Catalog.standard_unique hdelivers.standard htarget.self hname
    exact hdelivers.process p (heq ▸ htargets part hpart)

end Validation
