import Validation.Proofs.Engine.Search

/-!
# The graph of cascades

Which classes a root cascades into is said by its declarations alone: by every place in an annotated
type, or in the types of the properties of a class, that is of a class type and annotated so. The
tree of the root cascades into the same classes, since a nested node is left out only if it has
nothing to check.

* `AnnotatedType.targets`, `Engine.targets`: the classes that declarations cascade into.
* `Engine.CascadesTo`: the classes that a root reaches.
* `Orderly.mem_cascades`: a tree cascades as its declarations do.
-/

namespace Validation

mutual

/-- The classes that the places in an annotated type cascade into. -/
def AnnotatedType.targets : AnnotatedType → List String
  | ⟨type, annotations⟩ =>
    (if (AnnotatedType.mk type annotations).isCascaded then type.className?.toList else []) ++
      type.targetsWithin

/-- The classes that the places nested in a type cascade into. -/
def DeclaredType.targetsWithin : DeclaredType → List String
  | .array element => element.targets
  | .collection _ element => element.targets
  | .map key value => key.targets ++ value.targets
  | .optional content => content.targets
  | _ => []

end

theorem targets_eq (t : AnnotatedType) : t.targets =
    (if t.isCascaded then t.type.className?.toList else []) ++ t.type.targetsWithin := by
  obtain ⟨type, annotations⟩ := t
  rw [AnnotatedType.targets]

theorem targetsWithin_eq (type : DeclaredType) :
    type.targetsWithin = type.nested.flatMap fun p => p.2.targets := by
  cases type <;> simp [DeclaredType.targetsWithin, DeclaredType.nested]

namespace Analyser

variable {P : Constraint → Prop} {a : Analyser}

theorem cascades_of_isEmpty {n : Node} (h : n.isEmpty = true) (name : String) :
    name ∉ n.cascades := by
  obtain ⟨location, type, constraints, cascade, children⟩ := n
  simp only [Node.isEmpty, Bool.and_eq_true, List.isEmpty_iff, Option.isNone_iff_eq_none] at h
  obtain ⟨⟨-, rfl⟩, rfl⟩ := h
  intro hname
  obtain ⟨m, hm, hcascade⟩ := Node.mem_cascades.1 hname
  rcases Node.mem_nodes.1 hm with rfl | ⟨k, hk, -⟩
  · cases hcascade
  · cases hk

/-- The classes that the trees of children cascade into. -/
def CascadeOf (children : List (Child Node)) (name : String) : Prop :=
  ∃ k ∈ children, name ∈ k.node.cascades

theorem cascadeOf_append {children children' : List (Child Node)} {name : String} :
    CascadeOf (children ++ children') name ↔ CascadeOf children name ∨ CascadeOf children' name := by
  simp only [CascadeOf, List.mem_append, or_and_right, exists_or]

/-- A child that is left out cascades into nothing. -/
theorem cascadeOf_keep {w : Wrapper} {n : Node} {name : String} :
    CascadeOf (keep w n) name ↔ name ∈ n.cascades := by
  unfold keep
  split_ifs with hempty
  · exact iff_of_false (by simp [CascadeOf]) (cascades_of_isEmpty hempty name)
  · simp [CascadeOf]

/-- The children for parts cascade where the nodes of the parts do. -/
theorem ChildrenFor.cascadeOf_iff {R : Wrapper × AnnotatedType → Node → Prop}
    {parts : List (Wrapper × AnnotatedType)} {children : List (Child Node)} {name : String}
    (h : ChildrenFor R parts children)
    (hR : ∀ p ∈ parts, ∀ n, R p n → (name ∈ n.cascades ↔ name ∈ p.2.targets)) :
    CascadeOf children name ↔ name ∈ parts.flatMap fun p => p.2.targets := by
  induction h with
  | nil => simp [CascadeOf]
  | cons hn _ ih =>
    obtain ⟨hp, hrest⟩ := List.forall_mem_cons.1 hR
    rw [cascadeOf_append, cascadeOf_keep, hp _ hn, ih hrest, List.flatMap_cons, List.mem_append]

theorem mem_cascades_mk {location : Location} {type : DeclaredType} {constraints : List Constraint}
    {cascade : Option String} {children : List (Child Node)} {name : String} :
    name ∈ (Node.mk location type constraints cascade children).cascades ↔
      cascade = some name ∨ CascadeOf children name := by
  rw [Node.mem_cascades]
  constructor
  · rintro ⟨m, hm, hname⟩
    rcases Node.mem_nodes.1 hm with rfl | ⟨k, hk, hm⟩
    · exact .inl hname
    · exact .inr ⟨k, hk, Node.mem_cascades.2 ⟨m, hm, hname⟩⟩
  · rintro (hname | ⟨k, hk, hname⟩)
    · exact ⟨_, Node.mem_nodes_self _, hname⟩
    · obtain ⟨m, hm, hname⟩ := Node.mem_cascades.1 hname
      exact ⟨m, Node.mem_nodes.2 (.inr ⟨k, hk, hm⟩), hname⟩

/-- What extractors lead to cascades into nothing. -/
theorem cascadeOf_extracted {location : Location} {groups : List ExtractorGroup} {name : String} :
    ¬ CascadeOf (groups.map (extractedChild location)) name := by
  rintro ⟨k, hk, hname⟩
  obtain ⟨g, -, rfl⟩ := List.mem_map.1 hk
  rcases mem_cascades_mk.1 hname with hname | ⟨k, hk, -⟩
  · cases hname
  · cases hk

/-- **The tree of a type cascades** where the type says so. -/
theorem mem_cascades_of_built {t : AnnotatedType} {name : String} :
    ∀ {location : Location} {n : Node}, a.Built P t location n →
      (name ∈ n.cascades ↔ name ∈ t.targets) := by
  induction t using AnnotatedType.induction with
  | h t ih =>
    intro location n h
    obtain ⟨placed, cascade, nested, -, hcascade, hnested, rfl⟩ := built_iff.1 h
    have hnested : CascadeOf nested name ↔ name ∈ t.type.nested.flatMap fun p => p.2.targets :=
      hnested.cascadeOf_iff fun p hp n hn => ih p hp hn
    rw [mem_cascades_mk, cascadeOf_append, targets_eq, List.mem_append, targetsWithin_eq, ← hnested]
    have hnot : ¬ CascadeOf (placed.groups.map (extractedChild location)) name :=
      cascadeOf_extracted
    -- a node that is built has a cascade of its own if its type is annotated so, and then it is that
    -- of a class
    have hown : cascade = some name ↔
        name ∈ (if t.isCascaded then t.type.className?.toList else []) := by
      split_ifs at hcascade ⊢
      · obtain ⟨target, htarget, rfl⟩ := hcascade
        obtain ⟨htype, -⟩ := cascadeTarget_eq_ok.1 htarget
        dsimp only at htype
        rw [htype]
        simp [DeclaredType.className?, eq_comm]
      · simp [hcascade]
    tauto

/-- The tree of a class cascades where the types of its properties say so. -/
theorem mem_cascades_of_builtClass {schema : ClassSchema} {n : Node} {name : String}
    (h : a.BuiltClass P schema n) : name ∈ n.cascades ↔
      name ∈ (schema.effectiveProperties a.config.propertySource).flatMap (·.type.targets) := by
  obtain ⟨constraints, children, -, hchildren, rfl⟩ := builtClass_iff.1 h
  have hparts : CascadeOf children name ↔
      name ∈ (schema.parts a.config.propertySource).flatMap fun p => p.2.targets :=
    hchildren.cascadeOf_iff fun p _ n hn => mem_cascades_of_built hn
  rw [mem_cascades_mk, hparts, ClassSchema.parts, List.flatMap_map]
  simp

end Analyser

namespace Engine

variable {P : Constraint → Prop} {S : Kind → Prop} {e e' : Engine} {root : Root} {t : Node}

/-- The classes that the declarations of a root cascade into. -/
def targets (e : Engine) : Root → List String
  | .ofClass name =>
    (e.schema? name).toList.flatMap fun schema =>
      (schema.effectiveProperties e.config.propertySource).flatMap (·.type.targets)
  | .ofType type => type.targets

/-- **The root cascades into the class**, directly or through other classes. -/
inductive CascadesTo (e : Engine) (root : Root) : String → Prop
  | one {name : String} (h : name ∈ e.targets root) : CascadesTo e root name
  | next {name name' : String} (h : CascadesTo e root name) (h' : name' ∈ e.targets (.ofClass name)) :
      CascadesTo e root name'

theorem CascadesTo.cons {name name' : String} (h : name ∈ e.targets root)
    (h' : e.CascadesTo (.ofClass name) name') : e.CascadesTo root name' := by
  induction h' with
  | one hname => exact (CascadesTo.one h).next hname
  | next _ hname ih => exact ih.next hname

theorem targets_of_ran (h : Ran P S e e') (root : Root) : e'.targets root = e.targets root := by
  cases root with
  | ofClass name => simp only [targets, schema?, h.classes, h.grows.config]
  | ofType type => rfl

/-- **A tree cascades as the declarations of its root do.** -/
theorem Orderly.mem_cascades (hP : Assembles P S) (he : Orderly P S e)
    (ht : e.trees.lookup root = some t) (name : String) :
    name ∈ t.cascades ↔ name ∈ e.targets root := by
  obtain ⟨names, -, hbuilt⟩ := he.isBuilt hP ht
  cases root with
  | ofClass className =>
    obtain ⟨schema, hschema, hbuilt⟩ := hbuilt
    rw [Analyser.mem_cascades_of_builtClass hbuilt, targets, hschema]
    simp [analyserOf]
  | ofType type => exact Analyser.mem_cascades_of_built hbuilt

end Engine

end Validation
