import Validation.Proofs.Builtin
import Validation.Proofs.Kind
import Validation.Proofs.Parts

/-!
# Canonical annotations

What is written at a place comes down to the constraints declared there, in order, and whether the
class of the place is cascaded into. In canonical form there is one annotation for each of the former,
one for the latter, and no other. Types that differ in their annotations only, but declare the same,
have the same canonical form.

* `AnnotatedType.canonical`, `ClassSchema.canonical`, `Node.canonical`: the canonical forms.
* `AnnotatedType.tidy`, `ClassSchema.tidy`: annotations nested in types are left as they are.
* `Kind.Blind`, `Extractor.Blind`: what looks at a type but not at the annotations in it.
* `blind_builtin`, `blind_defaults`: the standard kinds and extractors are blind.
-/

namespace Validation

/-- The annotations for declarations and a cascade, one for each. -/
def canonicalAnnotations (declarations : List Declaration) (cascaded : Bool) : List Annotation :=
  declarations.map .constraint ++ if cascaded then [.cascade] else []

mutual

/-- The annotated type with all annotations in it in canonical form. -/
def AnnotatedType.canonical : AnnotatedType → AnnotatedType
  | ⟨type, annotations⟩ => ⟨type.canonical, canonicalAnnotations
      (AnnotatedType.mk type annotations).declarations (AnnotatedType.mk type annotations).isCascaded⟩

/-- The type with all annotations in it in canonical form. -/
def DeclaredType.canonical : DeclaredType → DeclaredType
  | .array element => .array element.canonical
  | .collection kind element => .collection kind element.canonical
  | .map key value => .map key.canonical value.canonical
  | .optional content => .optional content.canonical
  | .scalar kind => .scalar kind
  | .boxed kind => .boxed kind
  | .text => .text
  | .optionalScalar kind => .optionalScalar kind
  | .classOf name => .classOf name
  | .any => .any

end

/-- The annotated type with the annotations written at the place itself in canonical form. -/
def AnnotatedType.tidy (t : AnnotatedType) : AnnotatedType :=
  ⟨t.type, canonicalAnnotations t.declarations t.isCascaded⟩

/-- The schema with the types of its properties rewritten, and with the annotations of the class
itself in canonical form. A cascade written there is left out: it says nothing. -/
def ClassSchema.rewrite (f : AnnotatedType → AnnotatedType) (schema : ClassSchema) : ClassSchema :=
  ⟨schema.name, canonicalAnnotations schema.declarations false,
    schema.properties.map fun p => { p with type := f p.type }⟩

/-- The schema with all annotations in canonical form. -/
def ClassSchema.canonical (schema : ClassSchema) : ClassSchema := schema.rewrite (·.canonical)

/-- The schema with the annotations of the class and of its properties in canonical form, but not
those nested in types. -/
def ClassSchema.tidy (schema : ClassSchema) : ClassSchema := schema.rewrite (·.tidy)

mutual

/-- The tree with the annotations in the types of its nodes in canonical form. -/
def Node.canonical : Node → Node
  | ⟨location, type, constraints, cascade, children⟩ =>
    ⟨location, type.canonical, constraints, cascade, Node.canonicalAll children⟩

/-- Children with the annotations in the types of their trees in canonical form. -/
def Node.canonicalAll : List (Child Node) → List (Child Node)
  | [] => []
  | ⟨wrapper, node⟩ :: rest => ⟨wrapper, node.canonical⟩ :: Node.canonicalAll rest

end

theorem flatMap_canonicalAnnotations (declarations : List Declaration) (cascaded : Bool) :
    (canonicalAnnotations declarations cascaded).flatMap Annotation.declarations = declarations := by
  have hcascade : (if cascaded then [.cascade] else []).flatMap
      Annotation.declarations = [] := by
    cases cascaded <;> rfl
  rw [canonicalAnnotations, List.flatMap_append, hcascade, List.append_nil, List.flatMap_map]
  exact List.flatMap_singleton' declarations

theorem contains_canonicalAnnotations (declarations : List Declaration) (cascaded : Bool) :
    (canonicalAnnotations declarations cascaded).contains .cascade = cascaded := by
  rw [Bool.eq_iff_iff, List.contains_iff_mem, canonicalAnnotations]
  cases cascaded <;> simp

namespace AnnotatedType

@[simp]
theorem declarations_tidy (t : AnnotatedType) : t.tidy.declarations = t.declarations :=
  flatMap_canonicalAnnotations _ _

@[simp]
theorem isCascaded_tidy (t : AnnotatedType) : t.tidy.isCascaded = t.isCascaded :=
  contains_canonicalAnnotations _ _

theorem canonical_eq (t : AnnotatedType) :
    t.canonical = ⟨t.type.canonical, canonicalAnnotations t.declarations t.isCascaded⟩ := by
  obtain ⟨type, annotations⟩ := t
  rw [canonical]

@[simp]
theorem declarations_canonical (t : AnnotatedType) : t.canonical.declarations = t.declarations := by
  rw [canonical_eq]
  exact flatMap_canonicalAnnotations _ _

@[simp]
theorem isCascaded_canonical (t : AnnotatedType) : t.canonical.isCascaded = t.isCascaded := by
  rw [canonical_eq]
  exact contains_canonicalAnnotations _ _

@[simp]
theorem type_canonical (t : AnnotatedType) : t.canonical.type = t.type.canonical := by
  rw [canonical_eq]

end AnnotatedType

mutual

/-- A canonical form is in canonical form. -/
theorem canonical_canonical : ∀ t : AnnotatedType, t.canonical.canonical = t.canonical
  | ⟨type, annotations⟩ => by
    rw [AnnotatedType.canonical_eq (AnnotatedType.canonical _), AnnotatedType.declarations_canonical,
      AnnotatedType.isCascaded_canonical, AnnotatedType.type_canonical, canonical_canonical_type type,
      AnnotatedType.canonical]

theorem canonical_canonical_type : ∀ t : DeclaredType, t.canonical.canonical = t.canonical
  | .array element => by
    rw [DeclaredType.canonical, DeclaredType.canonical, canonical_canonical element]
  | .collection kind element => by
    rw [DeclaredType.canonical, DeclaredType.canonical, canonical_canonical element]
  | .map key value => by
    rw [DeclaredType.canonical, DeclaredType.canonical, canonical_canonical key,
      canonical_canonical value]
  | .optional content => by
    rw [DeclaredType.canonical, DeclaredType.canonical, canonical_canonical content]
  | .scalar _ | .boxed _ | .text | .optionalScalar _ | .classOf _ | .any => rfl

end

/-- The text of a type is that of its canonical form. -/
theorem render_canonical : ∀ t : DeclaredType, t.canonical.render = t.render
  | .array ⟨element, _⟩ => by
    rw [DeclaredType.canonical, AnnotatedType.canonical, DeclaredType.render, DeclaredType.render,
      render_canonical element]
  | .collection _ ⟨element, _⟩ => by
    rw [DeclaredType.canonical, AnnotatedType.canonical, DeclaredType.render, DeclaredType.render,
      render_canonical element]
  | .map ⟨key, _⟩ ⟨value, _⟩ => by
    rw [DeclaredType.canonical, AnnotatedType.canonical, AnnotatedType.canonical,
      DeclaredType.render, DeclaredType.render, render_canonical key, render_canonical value]
  | .optional ⟨content, _⟩ => by
    rw [DeclaredType.canonical, AnnotatedType.canonical, DeclaredType.render, DeclaredType.render,
      render_canonical content]
  | .scalar _ | .boxed _ | .text | .optionalScalar _ | .classOf _ | .any => rfl

/-- The types nested in the canonical form of a type are in canonical form. -/
theorem nested_canonical (t : DeclaredType) :
    t.canonical.nested = t.nested.map (Prod.map id (·.canonical)) := by
  cases t <;> simp [DeclaredType.canonical, DeclaredType.nested]

theorem className?_canonical (t : DeclaredType) : t.canonical.className? = t.className? := by
  cases t <;> rfl

theorem isNumeric_canonical (t : DeclaredType) : t.canonical.isNumeric = t.isNumeric := by
  cases t <;> rfl

theorem isSized_canonical (t : DeclaredType) : t.canonical.isSized = t.isSized := by
  cases t <;> rfl

theorem isReference_canonical (t : DeclaredType) : t.canonical.isReference = t.isReference := by
  cases t <;> rfl

namespace ClassSchema

variable (f : AnnotatedType → AnnotatedType)

theorem declarations_rewrite (schema : ClassSchema) :
    (schema.rewrite f).declarations = schema.declarations := flatMap_canonicalAnnotations _ _

theorem consider_rewrite (preferred : PropertySource) (chosen : List Property) (p : Property) :
    consider preferred (chosen.map fun p => { p with type := f p.type }) { p with type := f p.type } =
      (consider preferred chosen p).map fun p => { p with type := f p.type } := by
  induction chosen with
  | nil => rfl
  | cons q rest ih =>
    have hsource : ∀ q : Property, ({ q with type := f q.type } : Property).source = q.source :=
      fun _ => rfl
    rw [List.map_cons, consider, consider, ih, hsource, hsource]
    dsimp only
    split_ifs <;> rfl

/-- Which properties are effective is not a matter of their types. -/
theorem effectiveProperties_rewrite (schema : ClassSchema) (preferred : PropertySource) :
    (schema.rewrite f).effectiveProperties preferred =
      (schema.effectiveProperties preferred).map fun p => { p with type := f p.type } := by
  have key : ∀ ps chosen : List Property,
      (ps.map fun p => { p with type := f p.type }).foldl (consider preferred)
          (chosen.map fun p => { p with type := f p.type }) =
        (ps.foldl (consider preferred) chosen).map fun p => { p with type := f p.type } := by
    intro ps
    induction ps with
    | nil => exact fun _ => rfl
    | cons p ps ih =>
      intro chosen
      rw [List.map_cons, List.foldl_cons, List.foldl_cons, consider_rewrite, ih]
  exact key schema.properties []

theorem parts_rewrite (schema : ClassSchema) (preferred : PropertySource) :
    (schema.rewrite f).parts preferred = (schema.parts preferred).map (Prod.map id f) := by
  rw [parts, parts, effectiveProperties_rewrite, List.map_map, List.map_map]
  rfl

end ClassSchema

theorem Node.canonicalAll_eq_map (children : List (Child Node)) :
    Node.canonicalAll children = children.map fun k => ⟨k.wrapper, k.node.canonical⟩ := by
  induction children with
  | nil => rw [Node.canonicalAll, List.map_nil]
  | cons k rest ih => rw [Node.canonicalAll, ih, List.map_cons]

theorem Node.canonicalAll_append (children children' : List (Child Node)) :
    Node.canonicalAll (children ++ children') =
      Node.canonicalAll children ++ Node.canonicalAll children' := by
  rw [canonicalAll_eq_map, canonicalAll_eq_map, canonicalAll_eq_map, List.map_append]

/-- Whether a node is empty is not a matter of the type that it has. -/
theorem Node.isEmpty_canonical (n : Node) : n.canonical.isEmpty = n.isEmpty := by
  obtain ⟨location, type, constraints, cascade, children⟩ := n
  rw [canonical, isEmpty, isEmpty, canonicalAll_eq_map, List.isEmpty_map]

/-! ### What does not look at annotations -/

/-- **The kind does not look at annotations** where it is to apply. -/
def Kind.Blind (k : Kind) : Prop := ∀ type, k.applies type.canonical = k.applies type

/-- **The extractor does not look at annotations**: it leads from types of the same canonical form to
types of the same canonical form. -/
def Extractor.Blind (x : Extractor) : Prop :=
  ∀ type, (x.resolve type.canonical).map (·.canonical) = (x.resolve type).map (·.canonical)

namespace Kind

/-- A kind with a single factory is blind if the factory is. -/
theorem blind_of_factory {k : Kind} {factory : Factory} (hk : k.factories = [factory])
    (h : ∀ type, factory.applies type.canonical = factory.applies type) : k.Blind := by
  intro type
  have hne : k.factories.isEmpty = false := by rw [hk]; rfl
  rw [applies_of_factories hne, applies_of_factories hne, hk, List.any_cons, List.any_cons, h,
    List.any_nil, List.any_nil]

/-- A kind that only expands is blind if its parts are. -/
theorem blind_of_parts {k : Kind} (hk : k.factories = [])
    (h : ∀ part ∈ k.parts, part.target.Blind) : k.Blind := by
  intro type
  rw [applies_of_parts hk, applies_of_parts hk, Bool.eq_iff_iff, List.all_eq_true, List.all_eq_true]
  exact forall₂_congr fun part hpart => by rw [h part hpart type]

end Kind

open Builtin in
/-- **The standard kinds are blind.** -/
theorem blind_builtin : ∀ kind ∈ Catalog.builtin.kinds, kind.Blind := by
  have hpositive : positive.Blind := Kind.blind_of_factory rfl isNumeric_canonical
  have hmin : Builtin.min.Blind := Kind.blind_of_factory rfl isNumeric_canonical
  have hmax : Builtin.max.Blind := Kind.blind_of_factory rfl isNumeric_canonical
  have hrange : range.Blind :=
    Kind.blind_of_parts rfl (List.forall_mem_cons.2 ⟨hmin, List.forall_mem_singleton.2 hmax⟩)
  have hsize : Builtin.size.Blind := Kind.blind_of_factory rfl isSized_canonical
  have hnotNull : notNull.Blind := Kind.blind_of_factory rfl isReference_canonical
  have hnotEmpty : notEmpty.Blind :=
    Kind.blind_of_parts rfl (List.forall_mem_cons.2 ⟨hnotNull, List.forall_mem_singleton.2 hsize⟩)
  have hdomain : Builtin.domain.Blind := Kind.blind_of_factory rfl isNumeric_canonical
  have hidCard : idCard.Blind := Kind.blind_of_factory rfl fun type => by cases type <;> rfl
  simp only [Catalog.builtin, List.forall_mem_cons]
  exact ⟨hpositive, hmin, hmax, hrange, hsize, hnotNull, hnotEmpty, hdomain, hidCard, by simp⟩

/-- **The default extractors are blind.** -/
theorem blind_defaults : ∀ x ∈ Extractor.defaults, x.Blind := by
  intro x hx type
  simp only [Extractor.defaults, List.mem_cons, List.not_mem_nil, or_false] at hx
  rcases hx with rfl | rfl
  · cases type <;> rfl
  · cases type with
    | optional content =>
      change some content.canonical.type.canonical = some content.type.canonical
      rw [AnnotatedType.type_canonical, canonical_canonical_type]
    | _ => rfl

end Validation
