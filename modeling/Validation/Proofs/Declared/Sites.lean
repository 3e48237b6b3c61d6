import Validation.Node.Schema
import Validation.Proofs.Node
import Validation.Proofs.Verdict.Satisfies

/-!
# Sites and the nodes for them

A site is a place in a schema where annotations may stand: the type itself and every type nested in
it. The nodes of a tree are of two sorts: those for sites, and below each of them those that
extractors lead to.

* `AnnotatedType.sites`, `ClassSchema.sites`: the sites of a type, and those of a class.
* `declares_eq_any_sites`: something is declared in a type if it is declared at one of its sites.
* `Node.places`, `Node.extractions`: the two sorts of nodes.
* `Node.nodes_perm_places`: there are no others.
-/

namespace Validation

/-- A place in a schema, and the annotated type that is written there. -/
structure Site where
  location : Location
  type : AnnotatedType

mutual

/-- The sites in an annotated type, each before those nested in it. -/
def AnnotatedType.sites (location : Location) : AnnotatedType → List Site
  | ⟨type, annotations⟩ => ⟨location, ⟨type, annotations⟩⟩ :: type.sitesWithin location

/-- The sites nested in a type. -/
def DeclaredType.sitesWithin (location : Location) : DeclaredType → List Site
  | .array element => element.sites (location.child .element)
  | .collection _ element => element.sites (location.child .element)
  | .map key value => key.sites (location.child .mapKey) ++ value.sites (location.child .mapValue)
  | .optional content => content.sites (location.child (.held "value"))
  | _ => []

end

/-- The sites in the types of the effective properties of a class. -/
def ClassSchema.sites (preferred : PropertySource) (schema : ClassSchema) : List Site :=
  (schema.effectiveProperties preferred).flatMap fun p =>
    p.type.sites ((Location.ofRoot schema.name).child (.property p.name))

theorem AnnotatedType.sites_eq (location : Location) (t : AnnotatedType) :
    t.sites location = ⟨location, t⟩ :: t.type.sitesWithin location := by
  obtain ⟨type, annotations⟩ := t
  rw [sites]

/-- The sites in parts of what is at a location. -/
def partSites (location : Location) (parts : List (Wrapper × AnnotatedType)) : List Site :=
  parts.flatMap fun p => p.2.sites (location.child p.1.step)

theorem sitesWithin_eq (location : Location) (type : DeclaredType) :
    type.sitesWithin location = partSites location type.nested := by
  cases type <;> simp [DeclaredType.sitesWithin, partSites, DeclaredType.nested, Wrapper.step]

theorem ClassSchema.sites_eq (preferred : PropertySource) (schema : ClassSchema) :
    schema.sites preferred = partSites (.ofRoot schema.name) (schema.parts preferred) := by
  rw [sites, partSites, parts, List.flatMap_map]
  rfl

/-- What is declared in a type is declared at one of its sites. -/
theorem declares_eq_any_sites (t : AnnotatedType) : ∀ location : Location,
    t.declares = (t.sites location).any fun s => !s.type.declarations.isEmpty || s.type.isCascaded := by
  induction t using AnnotatedType.induction with
  | h t ih =>
    intro location
    have hnested : (t.type.nested.any fun p => p.2.declares) = t.type.nested.any fun p =>
        (p.2.sites (location.child p.1.step)).any fun s =>
          !s.type.declarations.isEmpty || s.type.isCascaded := by
      rw [Bool.eq_iff_iff, List.any_eq_true, List.any_eq_true]
      exact exists_congr fun p => and_congr_right fun hp => by rw [ih p hp]
    rw [AnnotatedType.declares_eq, AnnotatedType.sites_eq, List.any_cons, declaresWithin_eq, hnested,
      sitesWithin_eq, partSites, List.any_flatMap]

/-- Where nothing is declared nothing is declared at any site either. -/
theorem filter_declares (t : AnnotatedType) : ∀ location : Location, t.declares = false →
    (t.sites location).filter (·.type.declares) = [] := by
  induction t using AnnotatedType.induction with
  | h t ih =>
    intro location h
    have hwithin : ∀ p ∈ t.type.nested, p.2.declares = false := by
      rw [AnnotatedType.declares_eq, Bool.or_eq_false_iff, declaresWithin_eq, List.any_eq_false] at h
      exact fun p hp => Bool.eq_false_iff.2 (h.2 p hp)
    rw [AnnotatedType.sites_eq, List.filter_cons, h, if_neg Bool.false_ne_true, sitesWithin_eq, partSites,
      List.filter_flatMap, List.flatMap_eq_nil_iff]
    exact fun p hp => ih p hp _ (hwithin p hp)

/-- Whether the part is what an extractor leads to. -/
def Wrapper.isExtracted : Wrapper → Bool
  | extracted _ => true
  | _ => false

/-- No extractor leads to the types nested in a type. -/
theorem isExtracted_of_nested {type : DeclaredType} {p : Wrapper × AnnotatedType}
    (hp : p ∈ type.nested) : p.1.isExtracted = false := by
  cases type with
  | array | collection | optional => rw [List.mem_singleton.1 hp]; rfl
  | map => rcases List.mem_pair.1 hp with rfl | rfl <;> rfl
  | _ => cases hp

theorem isExtracted_of_parts {preferred : PropertySource} {schema : ClassSchema}
    {p : Wrapper × AnnotatedType} (hp : p ∈ schema.parts preferred) : p.1.isExtracted = false := by
  obtain ⟨q, -, rfl⟩ := List.mem_map.1 hp
  rfl

namespace Node

mutual

/-- The nodes of a tree that are not reached through an extractor. -/
def places : Node → List Node
  | ⟨location, type, constraints, cascade, children⟩ =>
    ⟨location, type, constraints, cascade, children⟩ :: placesOf children

/-- The nodes in the trees of children that are not reached through an extractor. -/
def placesOf : List (Child Node) → List Node
  | [] => []
  | ⟨wrapper, node⟩ :: rest => (if wrapper.isExtracted then [] else places node) ++ placesOf rest

end

/-- The nodes that extractors lead to from the node. -/
def extractions (n : Node) : List Node :=
  (n.children.filter (·.wrapper.isExtracted)).map (·.node)

theorem places_eq (n : Node) : n.places = n :: placesOf n.children := by
  obtain ⟨location, type, constraints, cascade, children⟩ := n
  rw [places]

theorem placesOf_append (children children' : List (Child Node)) :
    placesOf (children ++ children') = placesOf children ++ placesOf children' := by
  induction children with
  | nil => rw [placesOf, List.nil_append, List.nil_append]
  | cons k rest ih => rw [List.cons_append, placesOf, placesOf, ih, List.append_assoc]

theorem placesOf_of_isExtracted {children : List (Child Node)}
    (h : ∀ k ∈ children, k.wrapper.isExtracted = true) : placesOf children = [] := by
  induction children with
  | nil => rw [placesOf]
  | cons k rest ih =>
    obtain ⟨hk, hrest⟩ := List.forall_mem_cons.1 h
    rw [placesOf, hk, ih hrest]
    rfl

theorem nodesOf_append (children children' : List (Child Node)) :
    nodesOf (children ++ children') = nodesOf children ++ nodesOf children' := by
  induction children with
  | nil => rw [nodesOf, List.nil_append, List.nil_append]
  | cons k rest ih => rw [List.cons_append, nodesOf, nodesOf, ih, List.append_assoc]

/-- The nodes for a place: its own and those that extractors lead to. -/
def atPlace (n : Node) : List Node := n :: n.extractions

mutual

/-- **A tree consists of the nodes of its places**, if there is nothing below what extractors lead
to. -/
theorem nodes_perm_places : ∀ {n : Node}, (∀ m ∈ n.places, ∀ x ∈ m.extractions, x.children = []) →
    n.nodes.Perm (n.places.flatMap atPlace)
  | ⟨location, type, constraints, cascade, children⟩, h => by
    have hbelow : ∀ m ∈ placesOf children, ∀ x ∈ m.extractions, x.children = [] :=
      fun m hm => h m (by rw [places]; exact List.mem_cons_of_mem _ hm)
    have hown : ∀ k ∈ children, k.wrapper.isExtracted = true → k.node.children = [] :=
      fun k hk hextracted => h _ (by rw [places]; exact List.mem_cons_self) k.node
        (List.mem_map.2 ⟨k, List.mem_filter.2 ⟨hk, hextracted⟩, rfl⟩)
    rw [nodes, places, List.flatMap_cons, atPlace, List.cons_append]
    exact (nodesOf_perm_places hbelow hown).cons _

theorem nodesOf_perm_places : ∀ {children : List (Child Node)},
    (∀ m ∈ placesOf children, ∀ x ∈ m.extractions, x.children = []) →
    (∀ k ∈ children, k.wrapper.isExtracted = true → k.node.children = []) →
    (nodesOf children).Perm ((children.filter (·.wrapper.isExtracted)).map (·.node) ++
      (placesOf children).flatMap atPlace)
  | [], _, _ => by
    rw [nodesOf, placesOf]
    exact .nil
  | ⟨wrapper, node⟩ :: rest, hbelow, hown => by
    obtain ⟨hk, hrest⟩ := List.forall_mem_cons.1 hown
    have hperm : (nodesOf rest).Perm _ := nodesOf_perm_places
      (fun m hm => hbelow m (by rw [placesOf]; exact List.mem_append_right _ hm)) hrest
    rw [nodesOf, placesOf, List.filter_cons]
    cases hextracted : wrapper.isExtracted with
    | true =>
      -- the child is extracted, and there is nothing below it
      have hleaf : node.nodes = [node] := by rw [nodes_eq, hk hextracted, nodesOf]
      rw [hleaf, if_pos rfl, if_pos rfl, List.nil_append, List.map_cons]
      exact hperm.cons node
    | false =>
      have hnode := nodes_perm_places (n := node) fun m hm =>
        hbelow m (by rw [placesOf, hextracted]; exact List.mem_append_left _ hm)
      rw [if_neg Bool.false_ne_true, if_neg Bool.false_ne_true, List.flatMap_append]
      -- the nodes of the first tree move past the extracted ones of the others
      refine (hnode.append hperm).trans ?_
      exact List.perm_append_comm_assoc _ _ _

end

end Node

end Validation
