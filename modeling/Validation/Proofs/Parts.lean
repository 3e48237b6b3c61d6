import Mathlib.Data.List.Basic
import Validation.Node.Build
import Validation.Proofs.Operation

/-!
# From a whole to its parts

The tree of a type has a child for each type nested right in it, and that of a class has one for each
effective property. Both come from a list of parts, each with the way it lies in the whole and its
type, so what is said of the children of such a list is said of types and of classes.

* `AnnotatedType.induction`: induction over the nesting of types.
* `build_eq`: the node of a type, from the children for the types nested in it.
* `Analyser.buildParts`: the children for a list of parts.
* `buildNested_eq`, `buildClass_eq`: the children for types and classes.
* `Analyser.ChildrenFor`: children that are kept of nodes for the parts.
* `keeps_buildParts`, `buildParts_gives`: a node is built for each part, and there is a child if there
  is something to check in it.
-/

namespace Validation

/-- The step from the location of a whole to that of its part. -/
def Wrapper.step : Wrapper → Segment
  | property accessor => .property accessor.name
  | arrayElement | iterableElement => .element
  | mapKey => .mapKey
  | mapValue => .mapValue
  | optionalValue => .held "value"
  | extracted extractor => .held extractor.name

/-- The types nested right in a type, each with the way its values lie in those of the type. -/
def DeclaredType.nested : DeclaredType → List (Wrapper × AnnotatedType)
  | array element => [(.arrayElement, element)]
  | collection _ element => [(.iterableElement, element)]
  | map key value => [(.mapKey, key), (.mapValue, value)]
  | optional content => [(.optionalValue, content)]
  | _ => []

/-- The types of the effective properties of a class, each with the way to the property. -/
def ClassSchema.parts (preferred : PropertySource) (schema : ClassSchema) :
    List (Wrapper × AnnotatedType) :=
  (schema.effectiveProperties preferred).map fun p => (.property p.accessor, p.type)

mutual

/-- **Induction over the nesting of types.** -/
theorem AnnotatedType.induction {P : AnnotatedType → Prop}
    (h : ∀ t : AnnotatedType, (∀ p ∈ t.type.nested, P p.2) → P t) : ∀ t, P t
  | ⟨type, _⟩ => h _ (DeclaredType.forall_nested h type)

theorem DeclaredType.forall_nested {P : AnnotatedType → Prop}
    (h : ∀ t : AnnotatedType, (∀ p ∈ t.type.nested, P p.2) → P t) :
    ∀ type : DeclaredType, ∀ p ∈ type.nested, P p.2
  | .array element | .collection _ element | .optional element => by
    simpa only [DeclaredType.nested, List.forall_mem_singleton] using AnnotatedType.induction h element
  | .map key value => by
    simp only [DeclaredType.nested, List.forall_mem_cons]
    exact ⟨AnnotatedType.induction h key, AnnotatedType.induction h value, nofun⟩
  | .scalar _ | .boxed _ | .text | .optionalScalar _ | .classOf _ | .any => nofun

end

namespace Analyser

variable {a : Analyser} {location : Location} {p : Wrapper × AnnotatedType}
  {parts : List (Wrapper × AnnotatedType)} {children : List (Child Node)}
  {R R' : Wrapper × AnnotatedType → Node → Prop}

/-- The class that there is a cascade into at a position, if the type is annotated so. -/
def cascadeAt (a : Analyser) (location : Location) (t : AnnotatedType) : Interning (Option String) :=
  if t.isCascaded then some <$> (a.cascadeTarget ⟨location, t.type⟩ : Interning String) else pure none

theorem cascadeAt_gives {t : AnnotatedType} {cascade : Option String} {s s' : ConstraintCache} :
    Gives (a.cascadeAt location t) s cascade s' ↔ (if t.isCascaded then
      ∃ name, a.cascadeTarget ⟨location, t.type⟩ = .ok name ∧ cascade = some name
    else cascade = none) ∧ s' = s := by
  unfold cascadeAt
  split
  · simp only [gives_map, gives_lift]
    constructor
    · rintro ⟨name, ⟨htarget, rfl⟩, rfl⟩
      exact ⟨⟨name, htarget, rfl⟩, rfl⟩
    · rintro ⟨⟨name, htarget, rfl⟩, rfl⟩
      exact ⟨name, ⟨htarget, rfl⟩, rfl⟩
  · exact gives_pure

theorem keeps_cascadeAt {inv : ConstraintCache → Prop} (location : Location) (t : AnnotatedType) :
    Keeps inv (a.cascadeAt location t) fun cascade => if t.isCascaded then
      ∃ name, a.cascadeTarget ⟨location, t.type⟩ = .ok name ∧ cascade = some name
    else cascade = none := by
  unfold cascadeAt
  split_ifs
  · exact keeps_map keeps_liftM fun name hname => ⟨name, hname, rfl⟩
  · exact keeps_pure rfl

/-- **The node of an annotated type**, step by step. -/
theorem build_eq (a : Analyser) (location : Location) (t : AnnotatedType) :
    a.build location t = do
      if a.config.maxTypeDepth < location.depth then
        throw (.depthExceeded location.render a.config.maxTypeDepth)
      let placed ← t.declarations.foldlM (a.place ⟨location, t.type⟩) .empty
      let cascade ← a.cascadeAt location t
      let nested ← a.buildNested location t.type
      return ⟨location, t.type, placed.own, cascade,
        placed.groups.map (extractedChild location) ++ nested⟩ := by
  obtain ⟨type, annotations⟩ := t
  rw [build]
  unfold cascadeAt
  cases (AnnotatedType.mk type annotations).isCascaded <;> rfl

/-- The node of a part of what is at a location. -/
def buildPart (a : Analyser) (location : Location) (p : Wrapper × AnnotatedType) : Interning Node :=
  a.build (location.child p.1.step) p.2

/-- The children for parts of what is at a location. -/
def buildParts (a : Analyser) (location : Location) (parts : List (Wrapper × AnnotatedType)) :
    Interning (List (Child Node)) :=
  List.flatten <$> parts.mapM fun p => keep p.1 <$> a.buildPart location p

theorem buildNested_eq (a : Analyser) (location : Location) (type : DeclaredType) :
    a.buildNested location type = a.buildParts location type.nested := by
  cases type <;> simp [buildNested, buildParts, DeclaredType.nested, buildPart, Wrapper.step]

theorem buildClass_eq (a : Analyser) (schema : ClassSchema) : a.buildClass schema = do
    let constraints ← schema.declarations.mapM a.constraint
    let children ← a.buildParts (.ofRoot schema.name) (schema.parts a.config.propertySource)
    return ⟨.ofRoot schema.name, .classOf schema.name, constraints, none, children⟩ := by
  rw [buildClass]
  simp only [buildParts, ClassSchema.parts, List.mapM_map, bind_map_left]
  rfl

theorem buildParts_nil : a.buildParts location [] = pure [] := rfl

theorem buildParts_cons : a.buildParts location (p :: parts) = do
    let n ← a.buildPart location p
    let children ← a.buildParts location parts
    return keep p.1 n ++ children := by
  simp [buildParts, List.mapM_cons]

/-- Analysers that build the nodes of all parts alike build the same children. -/
theorem buildParts_congr {b : Analyser}
    (h : ∀ p ∈ parts, a.buildPart location p = b.buildPart location p) :
    a.buildParts location parts = b.buildParts location parts := by
  induction parts with
  | nil => rfl
  | cons p parts ih =>
    obtain ⟨hp, hrest⟩ := List.forall_mem_cons.1 h
    rw [buildParts_cons, buildParts_cons, hp, ih hrest]

/-! ### What is kept -/

/-- What is kept of a node is the node itself. -/
theorem forall_mem_keep {w : Wrapper} {n : Node} {Q : Child Node → Prop} (h : Q ⟨w, n⟩) :
    ∀ k ∈ keep w n, Q k := by
  intro k hk
  unfold keep at hk
  split_ifs at hk
  · cases hk
  · rw [List.mem_singleton.1 hk]
    exact h

theorem isEmpty_append {α : Type} (l l' : List α) :
    (l ++ l').isEmpty = (l.isEmpty && l'.isEmpty) := by
  cases l <;> rfl

theorem isEmpty_keep {w : Wrapper} {n : Node} : (keep w n).isEmpty = n.isEmpty := by
  unfold keep
  cases n.isEmpty <;> rfl

/-- **The children for parts** are kept of nodes for these, in turn. -/
inductive ChildrenFor (R : Wrapper × AnnotatedType → Node → Prop) :
    List (Wrapper × AnnotatedType) → List (Child Node) → Prop
  | nil : ChildrenFor R [] []
  | cons {p : Wrapper × AnnotatedType} {n : Node} {parts : List (Wrapper × AnnotatedType)}
      {children : List (Child Node)} (hn : R p n) (h : ChildrenFor R parts children) :
      ChildrenFor R (p :: parts) (keep p.1 n ++ children)

namespace ChildrenFor

@[simp]
theorem nil_iff : ChildrenFor R [] children ↔ children = [] := by
  constructor
  · rintro ⟨⟩
    rfl
  · rintro rfl
    exact .nil

@[simp]
theorem cons_iff : ChildrenFor R (p :: parts) children ↔
    ∃ n, R p n ∧ ∃ rest, ChildrenFor R parts rest ∧ children = keep p.1 n ++ rest := by
  constructor
  · rintro (_ | ⟨hn, h⟩)
    exact ⟨_, hn, _, h, rfl⟩
  · rintro ⟨n, hn, rest, h, rfl⟩
    exact .cons hn h

theorem imp (h : ChildrenFor R parts children) (hR : ∀ p ∈ parts, ∀ n, R p n → R' p n) :
    ChildrenFor R' parts children := by
  induction h with
  | nil => exact .nil
  | cons hn _ ih =>
    obtain ⟨hp, hrest⟩ := List.forall_mem_cons.1 hR
    exact .cons (hp _ hn) (ih hrest)

/-- The children, part by part. -/
theorem iff_flatten : ChildrenFor R parts children ↔
    ∃ kept, List.Forall₂ (fun p ks => ∃ n, R p n ∧ ks = keep p.1 n) parts kept ∧
      children = kept.flatten := by
  constructor
  · intro h
    induction h with
    | nil => exact ⟨[], .nil, rfl⟩
    | cons hn _ ih =>
      obtain ⟨kept, hkept, rfl⟩ := ih
      exact ⟨_, .cons ⟨_, hn, rfl⟩ hkept, List.flatten_cons.symm⟩
  · rintro ⟨kept, hkept, rfl⟩
    induction hkept with
    | nil => exact .nil
    | cons hn _ ih =>
      obtain ⟨n, hn, rfl⟩ := hn
      exact .cons hn ih

/-- There is a node for each part. -/
theorem exists_node (h : ChildrenFor R parts children) (hp : p ∈ parts) : ∃ n, R p n := by
  induction h with
  | nil => cases hp
  | cons hn _ ih =>
    rcases List.mem_cons.1 hp with rfl | hp
    · exact ⟨_, hn⟩
    · exact ih hp

/-- **What holds of the node for a part**, whichever part it is, holds of every child. -/
theorem forall_mem {Q : Child Node → Prop} (h : ChildrenFor R parts children)
    (hQ : ∀ p ∈ parts, ∀ n, R p n → Q ⟨p.1, n⟩) : ∀ k ∈ children, Q k := by
  induction h with
  | nil => exact nofun
  | cons hn _ ih =>
    obtain ⟨hp, hrest⟩ := List.forall_mem_cons.1 hQ
    exact List.forall_mem_append.2 ⟨forall_mem_keep (hp _ hn), ih hrest⟩

/-- The children lie in the whole as the parts do, in their order. -/
theorem wrapper_sublist (h : ChildrenFor R parts children) :
    (children.map (·.wrapper)).Sublist (parts.map (·.1)) := by
  induction h with
  | nil => exact .slnil
  | @cons p n _ _ _ _ ih =>
    have hfirst : ((keep p.1 n).map (·.wrapper)).Sublist [p.1] := by
      unfold keep
      split_ifs <;> simp
    rw [List.map_append, List.map_cons]
    exact hfirst.append ih

/-- There is no child if there is nothing to check in any part. -/
theorem isEmpty_eq {checks : Wrapper × AnnotatedType → Bool} (h : ChildrenFor R parts children)
    (hchecks : ∀ p ∈ parts, ∀ n, R p n → n.isEmpty = !checks p) :
    children.isEmpty = !parts.any checks := by
  induction h with
  | nil => rfl
  | cons hn _ ih =>
    obtain ⟨hp, hrest⟩ := List.forall_mem_cons.1 hchecks
    rw [isEmpty_append, isEmpty_keep, hp _ hn, ih hrest, List.any_cons, Bool.not_or]

end ChildrenFor

/-- **The children that are built for parts**: what holds of the node that is built for a part holds of
the node of which a child is kept. -/
theorem keeps_buildParts {inv : ConstraintCache → Prop}
    (h : ∀ p ∈ parts, Keeps inv (a.buildPart location p) (R p)) :
    Keeps inv (a.buildParts location parts) (ChildrenFor R parts) := by
  induction parts with
  | nil =>
    rw [buildParts_nil]
    exact keeps_pure .nil
  | cons p parts ih =>
    obtain ⟨hp, hrest⟩ := List.forall_mem_cons.1 h
    rw [buildParts_cons]
    exact keeps_bind hp fun n hn => keeps_bind (ih hrest) fun children hchildren =>
      keeps_pure (.cons hn hchildren)

/-- Each part is built, and what there is to check in it is kept. -/
theorem buildParts_gives {s s' : ConstraintCache} (h : Gives (a.buildParts location parts) s children s') :
    ChildrenFor (fun p n => ∃ s₁ s₂, Gives (a.buildPart location p) s₁ n s₂) parts children := by
  have hpart : ∀ p, Keeps (fun _ => True) (a.buildPart location p) fun n =>
      ∃ s₁ s₂, Gives (a.buildPart location p) s₁ n s₂ :=
    fun p s _ => ⟨trivial, fun n hn => ⟨s, _, Prod.ext hn rfl⟩⟩
  exact ((keeps_buildParts fun p _ => hpart p).of_gives trivial h).2

end Analyser

end Validation
