import Validation.Proofs.Declared.Effective
import Validation.Proofs.Parts

/-!
# What is built

The tree of a type or a class, told by its declarations and the nodes of the nested types.

* `build_gives`: the node of an annotated type.
* `buildNested_map_gives`: the children of a map type.
* `buildClass_gives`: the node of a class has a child for each effective property with something to
  check.
* `effective_properties_are_picked`: which properties are effective, and that nothing else matters
  for the tree of a class.
-/

namespace Validation

namespace Analyser

variable {a : Analyser} {location : Location} {s s' : ConstraintCache}

/-- **The node of an annotated type.** -/
theorem build_gives {t : AnnotatedType} {n : Node} (h : Gives (a.build location t) s n s') :
    location.depth ≤ a.config.maxTypeDepth ∧ ∃ placed s₁ cascade nested,
      Gives (t.declarations.foldlM (a.place ⟨location, t.type⟩) .empty) s placed s₁ ∧
        Gives (a.buildNested location t.type) s₁ nested s' ∧
        (if t.isCascaded then
            ∃ name, a.cascadeTarget ⟨location, t.type⟩ = .ok name ∧ cascade = some name
          else cascade = none) ∧
        n = ⟨location, t.type, placed.own, cascade,
          placed.groups.map (extractedChild location) ++ nested⟩ := by
  rw [build_eq] at h
  split at h
  case isTrue => simp at h
  case isFalse hdepth =>
    obtain ⟨placed, s₁, hplaced, h⟩ := gives_bind.1 h
    obtain ⟨cascade, s₂, hcascade, h⟩ := gives_bind.1 h
    obtain ⟨nested, s₃, hnested, h⟩ := gives_bind.1 h
    obtain ⟨rfl, rfl⟩ := gives_pure.1 h
    obtain ⟨htarget, rfl⟩ := cascadeAt_gives.1 hcascade
    exact ⟨Nat.le_of_not_lt hdepth, placed, s₂, cascade, nested, hplaced, hnested, htarget, rfl⟩

/-- The children of a map type: the keys come first. -/
theorem buildNested_map_gives {key value : AnnotatedType} {nested : List (Child Node)}
    (h : Gives (a.buildNested location (.map key value)) s nested s') :
    ∃ k v s₁, Gives (a.build (location.child .mapKey) key) s k s₁ ∧
      Gives (a.build (location.child .mapValue) value) s₁ v s' ∧
      nested = keep .mapKey k ++ keep .mapValue v := by
  rw [buildNested] at h
  obtain ⟨k, s₁, hk, h⟩ := gives_bind.1 h
  obtain ⟨v, s₂, hv, h⟩ := gives_bind.1 h
  obtain ⟨rfl, rfl⟩ := gives_pure.1 h
  exact ⟨k, v, s₁, hk, hv, rfl⟩

/-- The node of the type of a property of a class. -/
def buildDeclared (a : Analyser) (schema : ClassSchema) (p : Property) : Interning Node :=
  a.build ((Location.ofRoot schema.name).child (.property p.name)) p.type

/-- **The node of a class**, from the nodes of the types of its effective properties. -/
theorem buildClass_gives {schema : ClassSchema} {n : Node} :
    Gives (a.buildClass schema) s n s' ↔ ∃ constraints s₁ nodes,
      Gives (schema.declarations.mapM a.constraint) s constraints s₁ ∧
        Gives ((schema.effectiveProperties a.config.propertySource).mapM (a.buildDeclared schema)) s₁
          nodes s' ∧
        n = ⟨.ofRoot schema.name, .classOf schema.name, constraints, none,
          ((schema.effectiveProperties a.config.propertySource).zip nodes).flatMap
            fun p => keep (.property p.1.accessor) p.2⟩ := by
  have hproperty : a.buildProperty (.ofRoot schema.name) = fun p =>
      keep (.property p.accessor) <$> a.buildDeclared schema p := rfl
  rw [buildClass]
  simp only [gives_bind, gives_pure, hproperty, gives_mapM_map, List.flatMap_def]
  constructor
  · rintro ⟨constraints, s₁, hconstraints, _, _, ⟨nodes, hnodes, rfl⟩, rfl, rfl⟩
    exact ⟨constraints, s₁, nodes, hconstraints, hnodes, rfl⟩
  · rintro ⟨constraints, s₁, nodes, hconstraints, hnodes, rfl⟩
    exact ⟨constraints, s₁, hconstraints, _, s', ⟨nodes, hnodes, rfl⟩, rfl, rfl⟩

/-- The tree of a class, with the nodes of its effective properties, those with nothing to check
among them. -/
def BuildsClass (a : Analyser) (schema : ClassSchema) (n : Node) (members : List (Property × Node)) :
    Prop :=
  (∃ cache cache', Gives (a.buildClass schema) cache n cache') ∧
    members.map (·.1) = schema.effectiveProperties a.config.propertySource ∧
    n.children = members.flatMap fun p => keep (.property p.1.accessor) p.2

theorem exists_members_of_buildClass {schema : ClassSchema} {n : Node}
    (h : Gives (a.buildClass schema) s n s') : ∃ members, a.BuildsClass schema n members := by
  obtain ⟨constraints, s₁, nodes, -, hnodes, rfl⟩ := buildClass_gives.1 h
  refine ⟨_, ⟨s, s', h⟩, ?_, rfl⟩
  exact List.map_fst_zip (Nat.le_of_eq (gives_mapM hnodes).length_eq)

end Analyser

open Analyser in
/-- **The effective properties of a class** are, for each declared name in the order of first
declarations, the declaration that counts. The tree of the class checks each name through the type
and the accessor of that declaration only: its children come from the nodes of these types, in turn,
and it is the tree of the class without the other declarations, or the same error. -/
theorem effective_properties_are_picked (schema : ClassSchema) :
    (∀ preferred, List.Forall₂
      (fun name p => ClassSchema.pick? preferred schema.properties name = some p)
      (schema.properties.map (·.name)).eraseDups (schema.effectiveProperties preferred)) ∧
    ∀ a : Analyser,
      (∀ s n s', Gives (a.buildClass schema) s n s' ↔ ∃ constraints s₁ nodes,
        Gives (schema.declarations.mapM a.constraint) s constraints s₁ ∧
          Gives ((schema.effectiveProperties a.config.propertySource).mapM (a.buildDeclared schema))
            s₁ nodes s' ∧
          n = ⟨.ofRoot schema.name, .classOf schema.name, constraints, none,
            ((schema.effectiveProperties a.config.propertySource).zip nodes).flatMap
              fun p => keep (.property p.1.accessor) p.2⟩) ∧
        a.buildClass schema = a.buildClass (schema.effective a.config.propertySource) := by
  refine ⟨fun preferred => ClassSchema.forall₂_foldl_consider preferred schema.properties,
    fun a => ⟨fun s n s' => buildClass_gives, ?_⟩⟩
  rw [buildClass, buildClass, ClassSchema.effectiveProperties_effective]
  rfl

end Validation
