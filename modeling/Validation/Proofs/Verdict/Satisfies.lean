import Mathlib.Order.FixedPoints
import Validation.Engine.Basic
import Validation.Proofs.Parts

/-!
# What a schema asks of a value

The declarations of a schema say of a value whether it satisfies them. It is said here as it is
written in the schema, place by place: there are no trees, no criteria and no order of checks in it.

* `Kind.Accepts`: a constraint of the kind accepts the value at a type.
* `Catalog.Accepts`: a declaration accepts the value of its place, or what the value holds.
* `AnnotatedType.Satisfied`: what is declared at a place and below it.
* `ClassSchema.Satisfied`: what is declared of a class.
* `Engine.Satisfies`: what is declared of a root. Classes may refer to each other and to themselves,
  so what they ask for is a least fixed point.
-/

namespace Validation

namespace Kind

variable (type : DeclaredType) (v : Value)

mutual

/-- **A constraint of the kind accepts the value** at a type: its own check passes, unless the kind
only expands, and every constraint that it expands into accepts the value. -/
def Accepts : Kind → Attributes → Prop
  | ⟨name, _, _, _, factories, parts⟩, attributes =>
    (factories = [] ∨ ∃ factory own, factories.find? (·.applies type) = some factory ∧
      factory.produce type ⟨name, attributes⟩ = .ok own ∧ own.lift.validate v = .pass) ∧
    PartsAccept name attributes parts

/-- All parts accept the value, for a constraint of the given kind and attributes. -/
def PartsAccept (outerKind : String) (outer : Attributes) : List (Part Kind) → Prop
  | [] => True
  | ⟨target, sources⟩ :: rest =>
    (∃ declared attributes, Part.instantiate (κ := Kind) ⟨target, sources⟩ outerKind outer =
        .ok declared ∧ target.resolve declared = .ok attributes ∧ Accepts target attributes) ∧
      PartsAccept outerKind outer rest

end

end Kind

/-- The type of what the values of an optional type hold. -/
def DeclaredType.held? : DeclaredType → Option DeclaredType
  | .optionalScalar kind => some (.scalar kind)
  | .optional content => some content.type
  | _ => none

/-- The default extractors lead to what an optional type holds. -/
theorem held_of_mem_defaults {extractor : Extractor} (h : extractor ∈ Extractor.defaults)
    {type held : DeclaredType} (hheld : extractor.resolve type = some held) :
    type.held? = some held ∧ extractor.extract = Extractor.present? := by
  simp only [Extractor.defaults, List.mem_cons, List.not_mem_nil, or_false] at h
  rcases h with rfl | rfl
  · cases type <;> first | exact ⟨hheld, rfl⟩ | cases hheld
  · cases type <;> first | exact ⟨hheld, rfl⟩ | cases hheld

namespace Value

/-- The value is null, or an object of which something holds. -/
def AsObject (p : Value → Prop) : Value → Prop
  | .null => True
  | .object className fields => p (.object className fields)
  | _ => False

/-- The value is null, or a list of whose items something holds. -/
def AsItems (p : Value → Prop) : Value → Prop
  | .null => True
  | .list items => ∀ item ∈ items, p item
  | _ => False

/-- The value is null, or a map of whose entries something holds. -/
def AsEntries (p : Value × Value → Prop) : Value → Prop
  | .null => True
  | .map entries => ∀ entry ∈ entries, p entry
  | _ => False

/-- What the value holds satisfies a condition. Of a value that holds nothing null has to satisfy it,
unless what is held are scalars, of which there is none then. -/
def AsHeld (held : DeclaredType) (p : Value → Prop) (v : Value) : Prop :=
  match Extractor.present? v with
  | some content => p content
  | none => held.isReference = true → p .null

/-- What an optional hands on: its content, null if it is empty; any other value is its own. -/
def content : Value → Value
  | .optional content => content.getD .null
  | v => v

end Value

namespace Catalog

/-- The constraint of the declaration accepts the value at a type. -/
def AcceptsAt (c : Catalog) (d : Declaration) (type : DeclaredType) (v : Value) : Prop :=
  ∃ kind attributes, c.resolve d.kind = .ok kind ∧ kind.resolve d.attributes = .ok attributes ∧
    kind.Accepts type v attributes

/-- **The declaration accepts the value** of a place. If its kind does not apply to the type of the
place, it is about what the value holds. -/
def Accepts (c : Catalog) (d : Declaration) (type : DeclaredType) (v : Value) : Prop :=
  ∃ kind, c.resolve d.kind = .ok kind ∧
    if kind.applies type then c.AcceptsAt d type v
    else ∃ held, type.held? = some held ∧ v.AsHeld held (c.AcceptsAt d held)

end Catalog

mutual

/-- Whether something is declared at the place or below it. -/
def AnnotatedType.declares : AnnotatedType → Bool
  | ⟨type, annotations⟩ =>
    !(AnnotatedType.mk type annotations).declarations.isEmpty ||
      (AnnotatedType.mk type annotations).isCascaded || type.declaresWithin

/-- Whether something is declared at a place nested in the type. -/
def DeclaredType.declaresWithin : DeclaredType → Bool
  | .array element | .collection _ element => element.declares
  | .map key value => key.declares || value.declares
  | .optional content => content.declares
  | _ => false

end

theorem AnnotatedType.declares_eq (t : AnnotatedType) :
    t.declares = (!t.declarations.isEmpty || t.isCascaded || t.type.declaresWithin) := by
  obtain ⟨type, annotations⟩ := t
  rw [declares]

theorem declaresWithin_eq (type : DeclaredType) :
    type.declaresWithin = type.nested.any fun p => p.2.declares := by
  cases type <;> simp [DeclaredType.declaresWithin, DeclaredType.nested]

variable (c : Catalog) (accepts : String → Value → Prop)

mutual

/-- **The value satisfies what is declared at its place and below it**: every declaration at the place
accepts it, it is null or one that the class of the place accepts if the class is cascaded into, and
what is nested in it satisfies what is declared there. -/
def AnnotatedType.Satisfied : AnnotatedType → Value → Prop
  | ⟨type, annotations⟩, v =>
    (∀ d ∈ (AnnotatedType.mk type annotations).declarations, c.Accepts d type v) ∧
    ((AnnotatedType.mk type annotations).isCascaded = true →
      v = .null ∨ ∃ name, type.className? = some name ∧ accepts name v) ∧
    type.NestedSatisfied v

/-- What is nested in the value satisfies what is declared there. Where nothing is declared, nothing
is asked of the value, not even that it is a container. -/
def DeclaredType.NestedSatisfied : DeclaredType → Value → Prop
  | .array element, v | .collection _ element, v =>
    element.declares = true → v.AsItems element.Satisfied
  | .map key value, v =>
    (key.declares = true → v.AsEntries fun entry => key.Satisfied entry.1) ∧
      (value.declares = true → v.AsEntries fun entry => value.Satisfied entry.2)
  | .optional content, v => content.declares = true → content.Satisfied v.content
  | _, _ => True

end

theorem AnnotatedType.satisfied_iff {t : AnnotatedType} {v : Value} : t.Satisfied c accepts v ↔
    (∀ d ∈ t.declarations, c.Accepts d t.type v) ∧
      (t.isCascaded = true → v = .null ∨ ∃ name, t.type.className? = some name ∧ accepts name v) ∧
      t.type.NestedSatisfied c accepts v := by
  obtain ⟨type, annotations⟩ := t
  rw [Satisfied]

/-- **The value satisfies what is declared of the class**: the declarations on the class accept it, and
the values of its effective properties satisfy what is declared of them. -/
def ClassSchema.Satisfied (preferred : PropertySource) (schema : ClassSchema) (v : Value) : Prop :=
  (∀ d ∈ schema.declarations, c.AcceptsAt d (.classOf schema.name) v) ∧
    ∀ p ∈ schema.effectiveProperties preferred, p.type.declares = true →
      v.AsObject fun object => p.type.Satisfied c accepts (p.accessor.read object)

section Mono

variable {c accepts} {accepts' : String → Value → Prop}

theorem Value.AsObject.mono {p q : Value → Prop} {v : Value} (h : v.AsObject p)
    (himp : ∀ v, p v → q v) : v.AsObject q := by
  cases v with
  | null => trivial
  | object className fields => exact himp _ h
  | _ => exact h

theorem Value.AsItems.mono {p q : Value → Prop} {v : Value} (h : v.AsItems p)
    (himp : ∀ v, p v → q v) : v.AsItems q := by
  cases v with
  | null => trivial
  | list items => exact fun item hitem => himp item (h item hitem)
  | _ => exact h

theorem Value.AsEntries.mono {p q : Value × Value → Prop} {v : Value} (h : v.AsEntries p)
    (himp : ∀ e, p e → q e) : v.AsEntries q := by
  cases v with
  | null => trivial
  | map entries => exact fun entry hentry => himp entry (h entry hentry)
  | _ => exact h

theorem Value.AsHeld.congr {held : DeclaredType} {p q : Value → Prop} (h : ∀ v, p v ↔ q v)
    (v : Value) : v.AsHeld held p ↔ v.AsHeld held q := by
  have hpq : p = q := funext fun v => propext (h v)
  rw [hpq]

mutual

/-- If the classes accept more values, more values satisfy what is declared. -/
theorem AnnotatedType.Satisfied.mono (himp : ∀ name v, accepts name v → accepts' name v) :
    ∀ {t : AnnotatedType} {v : Value}, t.Satisfied c accepts v → t.Satisfied c accepts' v
  | ⟨type, annotations⟩, v, h => by
    rw [AnnotatedType.Satisfied] at h ⊢
    obtain ⟨hown, hcascade, hnested⟩ := h
    refine ⟨hown, fun hcascaded => ?_, DeclaredType.NestedSatisfied.mono himp hnested⟩
    exact (hcascade hcascaded).imp_right fun ⟨name, hname, hv⟩ => ⟨name, hname, himp name v hv⟩

theorem DeclaredType.NestedSatisfied.mono (himp : ∀ name v, accepts name v → accepts' name v) :
    ∀ {t : DeclaredType} {v : Value}, t.NestedSatisfied c accepts v → t.NestedSatisfied c accepts' v
  | .array element, v, h | .collection _ element, v, h => by
    rw [DeclaredType.NestedSatisfied] at h ⊢
    exact fun hdeclares => (h hdeclares).mono fun _ => AnnotatedType.Satisfied.mono himp
  | .map key value, v, h => by
    rw [DeclaredType.NestedSatisfied] at h ⊢
    exact ⟨fun hdeclares => (h.1 hdeclares).mono fun _ => AnnotatedType.Satisfied.mono himp,
      fun hdeclares => (h.2 hdeclares).mono fun _ => AnnotatedType.Satisfied.mono himp⟩
  | .optional content, v, h => by
    rw [DeclaredType.NestedSatisfied] at h ⊢
    exact fun hdeclares => AnnotatedType.Satisfied.mono himp (h hdeclares)
  | .scalar _, v, h | .boxed _, v, h | .text, v, h | .optionalScalar _, v, h | .classOf _, v, h
  | .any, v, h => by
    rw [DeclaredType.NestedSatisfied]
    · trivial
    all_goals simp

end

end Mono

namespace Engine

/-- What the registered classes ask for, by what the classes ask for that they cascade into. -/
def requires (e : Engine) : (String → Value → Prop) →o (String → Value → Prop) where
  toFun accepts name v := ∃ schema, e.schema? name = some schema ∧
    schema.Satisfied e.catalog accepts e.config.propertySource v
  monotone' := by
    rintro accepts accepts' himp name v ⟨schema, hschema, hown, hproperties⟩
    refine ⟨schema, hschema, hown, fun p hp hdeclares => ?_⟩
    exact (hproperties p hp hdeclares).mono fun _ => AnnotatedType.Satisfied.mono himp

/-- The class accepts the value. -/
def Accepts (e : Engine) : String → Value → Prop := OrderHom.lfp e.requires

/-- What a class asks for is what is declared of it. -/
theorem accepts_eq (e : Engine) : e.requires e.Accepts = e.Accepts := OrderHom.map_lfp e.requires

/-- The value satisfies the declarations of the root, as far as classes are cascaded into as they
accept values. -/
def SatisfiedBy (e : Engine) (accepts : String → Value → Prop) : Root → Value → Prop
  | .ofClass name, v => e.requires accepts name v
  | .ofType type, v => type.Satisfied e.catalog accepts v

/-- **The value satisfies the declarations of the root.** -/
def Satisfies (e : Engine) : Root → Value → Prop := e.SatisfiedBy e.Accepts

end Engine

end Validation
