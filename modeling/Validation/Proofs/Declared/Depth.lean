import Validation.Proofs.Declared.Errors

/-!
# How deep trees go

Types may nest as deep as the limit says. A tree that is built has a step in the location of a node
for each of its ancestors, so it ends at the limit too, but for what extractors lead to from there.

* `Node.Lineage`: the ancestors of a node.
* `Node.Layered`: locations that grow by a step from each node to its children, down to a limit.
* `Analyser.Guards`: what a limit on the nesting of types is for.
* `depth_is_guarded`: the trees of types and of classes are guarded.
-/

namespace Validation

namespace Node

/-- The ancestors of a node in the tree of a root, from the root down to the parent. -/
inductive Lineage (root : Node) : List Node → Node → Prop
  | root : Lineage root [] root
  | child {above : List Node} {m : Node} {k : Child Node} (h : Lineage root above m)
      (hk : k ∈ m.children) : Lineage root (above ++ [m]) k.node

/-- **The layers of a tree**: a node is as many steps from the root as it has ancestors, a child is one
step further than its parent, and no more steps are taken than the limit says, but for one to what an
extractor leads to. -/
structure Layered (limit : Nat) (n : Node) : Prop where
  depth : ∀ m ∈ n.nodes, (∃ above, n.Lineage above m) ∧
    ∀ above, n.Lineage above m → m.location.depth = above.length
  step : ∀ m ∈ n.nodes, ∀ k ∈ m.children, k.node.location = m.location.child k.wrapper.step
  within : ∀ m ∈ n.nodes, ∀ k ∈ m.children, k.node.location.depth ≤ limit ∨
    k.wrapper.isExtracted = true ∧ k.node.location.depth = limit + 1

variable {limit : Nat} {n m root : Node} {above : List Node}

theorem Lineage.mem_nodes (h : n.Lineage above m) : m ∈ n.nodes := by
  induction h with
  | root => exact mem_nodes_self n
  | child _ hk ih => exact mem_nodes_of_child ih hk

/-- The ancestors in the tree of a child are preceded by the parent. -/
theorem Lineage.cons {k : Child Node} (hk : k ∈ n.children) (h : k.node.Lineage above m) :
    n.Lineage (n :: above) m := by
  induction h with
  | root => exact .child .root hk
  | child _ hk ih => exact .child ih hk

theorem exists_lineage : ∀ n : Node, ∀ m ∈ n.nodes, ∃ above, n.Lineage above m := by
  intro n
  induction n using Node.induction with
  | h n ih =>
    intro m hm
    rcases mem_nodes.1 hm with rfl | ⟨k, hk, hm⟩
    · exact ⟨[], .root⟩
    · obtain ⟨above, h⟩ := ih k hk m hm
      exact ⟨n :: above, h.cons hk⟩

/-- A child is one step further than the node, within the limit or with an extractor. -/
def StaysWithin (limit : Nat) (m : Node) : Prop :=
  ∀ k ∈ m.children, k.node.location = m.location.child k.wrapper.step ∧
    (k.node.location.depth ≤ limit ∨
      k.wrapper.isExtracted = true ∧ k.node.location.depth = limit + 1)

theorem Lineage.depth_eq (hwithin : ∀ m ∈ n.nodes, m.StaysWithin limit) (h : n.Lineage above m) :
    m.location.depth = n.location.depth + above.length := by
  induction h with
  | root => rfl
  | child h hk ih =>
    rw [(hwithin _ h.mem_nodes _ hk).1, Location.depth_child, ih, List.length_append]
    rfl

theorem layered_of_staysWithin (hroot : n.location.depth = 0)
    (hwithin : ∀ m ∈ n.nodes, m.StaysWithin limit) : n.Layered limit where
  depth m hm :=
    ⟨exists_lineage n m hm, fun above h => by rw [h.depth_eq hwithin, hroot, Nat.zero_add]⟩
  step m hm k hk := (hwithin m hm k hk).1
  within m hm k hk := (hwithin m hm k hk).2

end Node

namespace Analyser

variable {a : Analyser} {location : Location} {parts : List (Wrapper × AnnotatedType)}
  {s s' : ConstraintCache}

/-- What the limit on the nesting of types comes to, for an operation that builds the tree of
something with the given sites. When there is a tree no site lies deeper than the limit, and the nodes
are in layers down to the limit. The error that types nest deeper is about a site that does, if it is
none that a function for an attribute comes to. -/
structure Guards (a : Analyser) (op : Interning Node) (sites : List Site) : Prop where
  within : ∀ s n s', Gives op s n s' → ∀ site ∈ sites, site.location.depth ≤ a.config.maxTypeDepth
  layered : ∀ s n s', Gives op s n s' → n.Layered a.config.maxTypeDepth
  exceeded : ∀ s location limit s', outcome op s = (.error (.depthExceeded location limit), s') →
    a.catalog.Computes (.depthExceeded location limit) ∨
      limit = a.config.maxTypeDepth ∧ ∃ site ∈ sites, site.location.render = location ∧
        a.config.maxTypeDepth < site.location.depth

theorem depth_le_of_buildParts {children : List (Child Node)}
    (h : ∀ p ∈ parts, ∀ s n s', Gives (a.buildPart location p) s n s' →
      ∀ site ∈ p.2.sites (location.child p.1.step), site.location.depth ≤ a.config.maxTypeDepth)
    (hchildren : Gives (a.buildParts location parts) s children s') :
    ∀ site ∈ partSites location parts, site.location.depth ≤ a.config.maxTypeDepth := by
  intro site hsite
  obtain ⟨p, hp, hsite⟩ := List.mem_flatMap.1 hsite
  obtain ⟨n, s₁, s₂, hn⟩ := (buildParts_gives hchildren).exists_node hp
  exact h p hp s₁ n s₂ hn site hsite

/-- **Building comes to all sites**, so none of them is too deep. -/
theorem depth_le_of_build : ∀ (t : AnnotatedType) (location : Location) (s : ConstraintCache)
    (n : Node) (s' : ConstraintCache), Gives (a.build location t) s n s' →
      ∀ site ∈ t.sites location, site.location.depth ≤ a.config.maxTypeDepth := by
  intro t
  induction t using AnnotatedType.induction with
  | h t ih =>
    intro location s n s' h
    obtain ⟨hdepth, placed, s₁, cascade, nested, -, hnested, -⟩ := build_gives h
    rw [buildNested_eq] at hnested
    rw [AnnotatedType.sites_eq, sitesWithin_eq]
    exact List.forall_mem_cons.2 ⟨hdepth, depth_le_of_buildParts (fun p hp => ih p hp _) hnested⟩

/-- **A node that is formed of a type stays within the limit.** -/
theorem Formed.staysWithin {n : Node} (h : a.Formed n) : n.StaysWithin a.config.maxTypeDepth := by
  obtain ⟨cs, placed, nested, -, hchildren, -, hnested⟩ := h.children
  intro k hk
  rw [hchildren] at hk
  rcases List.mem_append.1 hk with hk | hk
  · obtain ⟨g, -, rfl⟩ := List.mem_map.1 hk
    refine ⟨rfl, ?_⟩
    rw [extractedChild, Location.depth_child]
    exact (Nat.lt_or_eq_of_le h.depth).imp id fun h => ⟨rfl, congrArg (· + 1) h⟩
  · obtain ⟨⟨p, -, hwrapper, hlocation, -⟩, hdepth⟩ := hnested k hk
    exact ⟨hwrapper ▸ hlocation, .inl hdepth⟩

theorem staysWithin_build {t : AnnotatedType} {n : Node} (h : Gives (a.build location t) s n s') :
    ∀ m ∈ n.nodes, m.StaysWithin a.config.maxTypeDepth := by
  intro m hm
  rcases (formed_of_build t location s n s' h).2 m hm with hformed | hnil
  · exact hformed.staysWithin
  · exact fun k hk => absurd (hnil ▸ hk) List.not_mem_nil

theorem Explains.exceeded {sites : List Site} {path : String} {limit : Nat}
    (h : a.Explains sites (.depthExceeded path limit)) :
    a.catalog.Computes (.depthExceeded path limit) ∨
      limit = a.config.maxTypeDepth ∧ ∃ site ∈ sites, site.location.render = path ∧
        a.config.maxTypeDepth < site.location.depth := h.imp_right fun h => h.deep _ _ rfl

theorem guards_buildType (a : Analyser) (t : AnnotatedType) :
    a.Guards (a.buildType t) (t.sites (.ofRoot t.type.render)) where
  within s n s' h := depth_le_of_build t _ s n s' h
  layered s n s' h := by
    have hroot := (formed_of_build t _ s n s' h).1.1
    exact Node.layered_of_staysWithin (hroot ▸ rfl) (staysWithin_build h)
  exceeded s path limit s' h := (raises_build t _ s _ s' h).exceeded

theorem guards_buildClass (a : Analyser) (schema : ClassSchema) :
    a.Guards (a.buildClass schema) (schema.sites a.config.propertySource) := by
  -- the children of a class are the parts that its properties are built into
  have hparts : ∀ s n s', Gives (a.buildClass schema) s n s' → n.location = .ofRoot schema.name ∧
      ∃ s₁ s₂, Gives (a.buildParts n.location (schema.parts a.config.propertySource)) s₁ n.children
        s₂ := by
    intro s n s' h
    rw [buildClass_eq] at h
    obtain ⟨constraints, s₁, -, h⟩ := gives_bind.1 h
    obtain ⟨children, s₂, hchildren, h⟩ := gives_bind.1 h
    obtain ⟨rfl, -⟩ := gives_pure.1 h
    exact ⟨rfl, s₁, s₂, hchildren⟩
  refine ⟨fun s n s' h => ?_, fun s n s' h => ?_, fun s path limit s' h => ?_⟩
  · obtain ⟨hroot, s₁, s₂, hchildren⟩ := hparts s n s' h
    rw [ClassSchema.sites_eq]
    exact depth_le_of_buildParts (fun p _ => depth_le_of_build p.2 _) (hroot ▸ hchildren)
  · obtain ⟨hroot, s₁, s₂, hchildren⟩ := hparts s n s' h
    have hall : ∀ k ∈ n.children, (k.node.location = n.location.child k.wrapper.step ∧
        k.node.location.depth ≤ a.config.maxTypeDepth) ∧
        ∀ m ∈ k.node.nodes, m.StaysWithin a.config.maxTypeDepth := by
      refine (buildParts_gives hchildren).forall_mem fun p _ m ⟨s₁, s₂, hm⟩ => ?_
      obtain ⟨⟨hlocation, -, hformed⟩, -⟩ := formed_of_build p.2 _ s₁ m s₂ hm
      exact ⟨⟨hlocation, hformed.depth⟩, staysWithin_build hm⟩
    refine Node.layered_of_staysWithin (hroot ▸ rfl) fun m hm => ?_
    rcases Node.mem_nodes.1 hm with rfl | ⟨k, hk, hm⟩
    · exact fun k hk => ⟨(hall k hk).1.1, .inl (hall k hk).1.2⟩
    · exact (hall k hk).2 m hm
  · exact Explains.exceeded (raises_buildClass schema s _ s' h)

/-- **The depth of types is guarded**, whatever the limit, the kinds and the extractors are. When the
tree of an annotated type or of a class is built, no site lies more steps below the root than the limit
says, whether something is declared there or not. A node has as many steps in its location as ancestors
in the tree, its location is that of its parent with one step more, and only what an extractor leads to
may be one step beyond the limit. Conversely, where the error is that types nest too deep, it is about a
site that lies deeper than the limit; unless it is the error of a function that computes an attribute, of
which the standard kinds have none. -/
theorem depth_is_guarded (a : Analyser) :
    (∀ t, a.Guards (a.buildType t) (t.sites (.ofRoot t.type.render))) ∧
      (∀ schema, a.Guards (a.buildClass schema) (schema.sites a.config.propertySource)) ∧
      ∀ e, ¬ Catalog.builtin.Computes e :=
  ⟨guards_buildType a, guards_buildClass a, Catalog.not_computes_builtin⟩

namespace Readings

/-- The standard kinds and extractors, with types that may nest one step deep. -/
def analyser : Analyser := ⟨{ maxTypeDepth := 1 }, .builtin, Extractor.defaults, []⟩

/-- Numbers that may be missing. -/
def readings : AnnotatedType :=
  .plain (.collection .list ⟨.optionalScalar .int, [.constraint ⟨"positive", .empty⟩]⟩)

/-- A table of numbers. -/
def table : AnnotatedType :=
  .plain (.collection .list (.plain (.collection .list (.plain (.boxed .long)))))

end Readings

open Readings in
/-- At the limit an extractor leads one step further, but a type may not nest there. -/
theorem readings_reach_the_limit : ∃ n s' site,
    Gives (analyser.buildType readings) .empty n s' ∧ n.Layered 1 ∧
      n.nodes.map (·.location.render) = ["List<OptionalInt>", "List<OptionalInt>[i]",
        "List<OptionalInt>[i].@value"] ∧
      (outcome (analyser.buildType table) .empty).1 =
        .error (.depthExceeded "List<List<Long>>[i][i]" 1) ∧
      site ∈ table.sites (.ofRoot table.type.render) ∧
      site.location.render = "List<List<Long>>[i][i]" ∧ 1 < site.location.depth := by
  obtain ⟨htype, -, hnone⟩ := depth_is_guarded analyser
  have hlocations : (outcome (analyser.buildType readings) .empty).1.toOption.map (fun n =>
      n.nodes.map (·.location.render)) = some ["List<OptionalInt>", "List<OptionalInt>[i]",
        "List<OptionalInt>[i].@value"] := by
    decide +kernel
  rcases hreadings : outcome (analyser.buildType readings) .empty with ⟨error | n, s'⟩
  · rw [hreadings] at hlocations
    cases hlocations
  rw [hreadings] at hlocations
  have herror : (outcome (analyser.buildType table) .empty).1 =
      .error (.depthExceeded "List<List<Long>>[i][i]" 1) := rfl
  obtain hcomputes | ⟨-, site, hsite, hlocation, hdeep⟩ :=
    (htype table).exceeded .empty _ _ _ (Prod.ext herror rfl)
  · exact absurd hcomputes (hnone _)
  exact ⟨n, s', site, hreadings, (htype readings).layered .empty n s' hreadings,
    Option.some.inj hlocations, herror, hsite, hlocation, hdeep⟩

end Analyser

end Validation
