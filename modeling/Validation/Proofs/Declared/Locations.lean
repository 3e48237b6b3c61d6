import Validation.Proofs.Declared.Errors

/-!
# What a location tells

The text of a location is that of its steps. No step of a type has the text of another one, nor one
that another starts with, so the steps can be read off the text; and the types nested right in a type
are a different step away each. Two nodes are nevertheless at one location where constraints of an
optional are for what it holds: they are with a node of their own, beside the node for the type of the
content.

* `Segment.eq_of_render`: steps are told by their text.
* `nodup_sites`: each site has a text of its own.
* `Node.Doubles`: the two nodes for what an optional holds.
* `locations_tell_positions`: two nodes are at one location in this case only, and what is found
  there is the first of them.
* `content_is_not_found`: an optional for which this is so.
-/

namespace Validation

/-! ### The text of locations -/

/-- The steps from a type to one nested in it. -/
def Segment.inner : List Segment := [.element, .mapKey, .mapValue, .held "value"]

/-- No text of a step is empty or starts with that of another one. -/
theorem Segment.isPrefixFree_inner : ∀ x ∈ inner, x.render.toList ≠ [] ∧
    ∀ y ∈ inner, x.render.toList <+: y.render.toList → x = y := by decide

theorem Segment.eq_of_render {l l' : List Segment} (hl : ∀ x ∈ l, x ∈ inner)
    (hl' : ∀ x ∈ l', x ∈ inner)
    (h : l.flatMap (·.render.toList) = l'.flatMap (·.render.toList)) : l = l' := by
  induction l generalizing l' with
  | nil =>
    cases l' with
    | nil => rfl
    | cons y l' =>
      rw [List.flatMap_nil, List.flatMap_cons] at h
      exact absurd (List.append_eq_nil_iff.1 h.symm).1 (isPrefixFree_inner y (hl' y List.mem_cons_self)).1
  | cons x l ih =>
    obtain ⟨hx, hl⟩ := List.forall_mem_cons.1 hl
    cases l' with
    | nil =>
      rw [List.flatMap_nil, List.flatMap_cons] at h
      exact absurd (List.append_eq_nil_iff.1 h).1 (isPrefixFree_inner x hx).1
    | cons y l' =>
      obtain ⟨hy, hys⟩ := List.forall_mem_cons.1 hl'
      rw [List.flatMap_cons, List.flatMap_cons] at h
      -- both texts start the common one, so one of them starts the other
      have hxy : x = y := by
        rcases List.prefix_or_prefix_of_prefix (h ▸ List.prefix_append x.render.toList _)
          (List.prefix_append y.render.toList _) with hprefix | hprefix
        · exact (isPrefixFree_inner x hx).2 y hy hprefix
        · exact ((isPrefixFree_inner y hy).2 x hx hprefix).symm
      subst hxy
      have hrest := List.append_cancel_left h
      rw [ih hl hys hrest]

namespace Location

/-- The second location is that of a type nested in what is at the first. -/
def Leads (l l' : Location) : Prop :=
  ∃ steps, (∀ x ∈ steps, x ∈ Segment.inner) ∧ l' = ⟨l.root, l.steps ++ steps⟩

variable {l x y : Location} {step step' : Segment}

theorem Leads.refl (l : Location) : l.Leads l := ⟨[], nofun, by rw [List.append_nil]⟩

theorem Leads.of_child (hstep : step ∈ Segment.inner) (h : (l.child step).Leads x) : l.Leads x := by
  obtain ⟨steps, hsteps, rfl⟩ := h
  exact ⟨step :: steps, List.forall_mem_cons.2 ⟨hstep, hsteps⟩, by simp [child]⟩

theorem Leads.ne (h : (l.child step).Leads x) : x ≠ l := by
  obtain ⟨steps, -, rfl⟩ := h
  intro heq
  have hlength := congrArg (·.steps.length) heq
  simp only [child, List.length_append, List.length_singleton] at hlength
  omega

theorem Leads.step_unique (h : (l.child step).Leads x) (h' : (l.child step').Leads x) :
    step = step' := by
  obtain ⟨steps, -, rfl⟩ := h
  obtain ⟨steps', -, heq⟩ := h'
  simpa [child] using congrArg (fun x => x.steps[l.steps.length]?) heq

/-- **A location is told by its text** among those of types nested in one type. -/
theorem Leads.eq_of_render (hx : l.Leads x) (hy : l.Leads y) (h : x.render = y.render) : x = y := by
  obtain ⟨steps, hsteps, rfl⟩ := hx
  obtain ⟨steps', hsteps', rfl⟩ := hy
  have htext := congrArg String.toList h
  simp only [render, String.toList_append, String.toList_join, List.flatMap_map,
    List.flatMap_append, List.append_cancel_left_eq] at htext
  rw [Segment.eq_of_render hsteps hsteps' htext]

end Location

/-- The types nested right in a type are an inner step away each, and the step that an optional is
from its content is not that of another type. -/
theorem DeclaredType.nested_step (type : DeclaredType) :
    (type.nested.map (·.1.step)).Nodup ∧ ∀ p ∈ type.nested, p.1.step ∈ Segment.inner ∧
      p.1.isExtracted = false ∧ (p.1 = .optionalValue ∨ p.1.step = .held "value" →
        p.1 = .optionalValue ∧ type = .optional p.2) := by
  cases type <;> simp [nested, Wrapper.step, Segment.inner, Wrapper.isExtracted]

theorem leads_of_mem_sites : ∀ (t : AnnotatedType) (location : Location),
    ∀ site ∈ t.sites location, location.Leads site.location := by
  intro t
  induction t using AnnotatedType.induction with
  | h t ih =>
    intro location site hsite
    rw [AnnotatedType.sites_eq, sitesWithin_eq] at hsite
    rcases List.mem_cons.1 hsite with rfl | hsite
    · exact .refl location
    · obtain ⟨p, hp, hsite⟩ := List.mem_flatMap.1 hsite
      exact .of_child (t.type.nested_step.2 p hp).1 (ih p hp _ site hsite)

theorem pairwise_sites : ∀ (t : AnnotatedType) (location : Location),
    (t.sites location).Pairwise fun x y => x.location ≠ y.location := by
  intro t
  induction t using AnnotatedType.induction with
  | h t ih =>
    intro location
    rw [AnnotatedType.sites_eq, sitesWithin_eq, partSites, List.pairwise_cons, List.pairwise_flatMap]
    refine ⟨fun site hsite => ?_, fun p hp => ih p hp _, ?_⟩
    · obtain ⟨p, hp, hsite⟩ := List.mem_flatMap.1 hsite
      exact (leads_of_mem_sites p.2 _ site hsite).ne.symm
    · have hnodup := List.pairwise_map.1 t.type.nested_step.1
      refine hnodup.imp fun hne x hx y hy heq => hne ?_
      exact (leads_of_mem_sites _ _ x hx).step_unique (heq ▸ leads_of_mem_sites _ _ y hy)

/-- **Each site of a type has a text of its own.** -/
theorem nodup_sites (t : AnnotatedType) (location : Location) :
    ((t.sites location).map (·.location.render)).Nodup := by
  refine List.pairwise_map.2 ((pairwise_sites t location).imp_of_mem fun hx hy hne heq => hne ?_)
  exact (leads_of_mem_sites t location _ hx).eq_of_render (leads_of_mem_sites t location _ hy) heq

/-! ### The nodes of a tree -/

namespace Node

mutual

/-- The nodes below the root of a tree, each with the way it lies in its parent and before the nodes
below it. -/
def descendants : Node → List (Child Node)
  | ⟨_, _, _, _, children⟩ => descendantsOf children

/-- Children with the nodes below them. -/
def descendantsOf : List (Child Node) → List (Child Node)
  | [] => []
  | ⟨wrapper, node⟩ :: rest => ⟨wrapper, node⟩ :: (descendants node ++ descendantsOf rest)

end

theorem descendants_eq (n : Node) :
    n.descendants = n.children.flatMap fun k => k :: k.node.descendants := by
  obtain ⟨location, type, constraints, cascade, children⟩ := n
  rw [descendants]
  induction children with
  | nil => rw [descendantsOf, List.flatMap_nil]
  | cons k rest ih => rw [descendantsOf, List.flatMap_cons, ih, List.cons_append]

theorem nodesOf_eq (children : List (Child Node)) :
    nodesOf children = children.flatMap (·.node.nodes) := by
  induction children with
  | nil => rw [nodesOf, List.flatMap_nil]
  | cons k rest ih => rw [nodesOf, List.flatMap_cons, ih]

theorem nodes_eq_descendants (n : Node) : n.nodes = n :: n.descendants.map (·.node) := by
  induction n using Node.induction with
  | h n ih =>
    rw [nodes_eq, nodesOf_eq, descendants_eq, List.map_flatMap]
    refine congrArg (n :: ·) (List.flatMap_congr fun k hk => ?_)
    rw [ih k hk, List.map_cons]

theorem mem_descendants {n : Node} {k : Child Node} :
    k ∈ n.descendants ↔ ∃ m ∈ n.nodes, k ∈ m.children := by
  induction n using Node.induction with
  | h n ih =>
    rw [descendants_eq, List.mem_flatMap]
    constructor
    · rintro ⟨j, hj, hk⟩
      rcases List.mem_cons.1 hk with rfl | hk
      · exact ⟨n, mem_nodes_self n, hj⟩
      · obtain ⟨m, hm, hk⟩ := (ih j hj).1 hk
        exact ⟨m, mem_nodes.2 (.inr ⟨j, hj, hm⟩), hk⟩
    · rintro ⟨m, hm, hk⟩
      rcases mem_nodes.1 hm with rfl | ⟨j, hj, hm⟩
      · exact ⟨k, hk, List.mem_cons_self⟩
      · exact ⟨j, hj, List.mem_cons_of_mem _ ((ih j hj).2 ⟨m, hm, hk⟩)⟩

/-- **The two nodes for what an optional holds**: one has the constraints of the optional that are for
what it holds, and the other is for the type of the content itself. -/
def Doubles (n : Node) (k k' : Child Node) : Prop :=
  ∃ m ∈ n.nodes, (∃ content, m.type = .optional content) ∧ k ∈ m.children ∧ k' ∈ m.children ∧
    k.wrapper.isExtracted = true ∧ k'.wrapper = .optionalValue

/-- **What the locations in a tree tell.** -/
structure Locates (n : Node) : Prop where
  /-- The root alone is at its location. -/
  root : ∀ k ∈ n.descendants, k.node.location.render ≠ n.location.render
  /-- Two nodes below are at one location just if both are for what an optional holds. -/
  apart : n.descendants.Pairwise fun k k' =>
    k.node.location.render = k'.node.location.render ↔ n.Doubles k k'
  /-- A location names one position, whatever nodes there are. -/
  position : ∀ x ∈ n.nodes, ∀ y ∈ n.nodes, x.location.render = y.location.render →
    x.position = y.position
  /-- The root is found at its location. -/
  find_root : n.find? n.location.render = some n
  /-- A node is found at its location, unless it is the second one for what an optional holds. -/
  find_self : ∀ k ∈ n.descendants, (∀ k', ¬ n.Doubles k' k) →
    n.find? k.node.location.render = some k.node
  /-- In that case the first one is found. -/
  find_first : ∀ k k', n.Doubles k k' → n.find? k'.node.location.render = some k.node

/-- A child, one step from a node of the type, where the nodes of a tree are told apart. -/
structure Settled (type : DeclaredType) (location : Location) (k : Child Node) : Prop where
  location : k.node.location = location.child k.wrapper.step
  inner : k.wrapper.step ∈ Segment.inner
  leaf : k.wrapper.isExtracted = true → k.node.children = []
  held : k.wrapper.isExtracted = true ∨ k.wrapper = .optionalValue → k.wrapper.step = .held "value" ∧
    ∀ content, type = .optional content → k.node.type = content.type

/-- Children that are a different step away each, but for the two for what an optional holds. -/
structure Spread (m : Node) : Prop where
  settled : ∀ k ∈ m.children, Settled m.type m.location k
  apart : m.children.Pairwise fun k k' => k.wrapper.step = k'.wrapper.step →
    (∃ content, m.type = .optional content) ∧ k.wrapper.isExtracted = true ∧
      k'.wrapper = .optionalValue

variable {n : Node} {k k' : Child Node}

theorem Doubles.of_child (hk : k ∈ n.children) {x y : Child Node} (h : k.node.Doubles x y) :
    n.Doubles x y := by
  obtain ⟨m, hm, h⟩ := h
  exact ⟨m, mem_nodes.2 (.inr ⟨k, hk, hm⟩), h⟩

theorem Doubles.mem (h : n.Doubles k k') : k ∈ n.descendants ∧ k' ∈ n.descendants := by
  obtain ⟨m, hm, -, hk, hk', -⟩ := h
  exact ⟨mem_descendants.2 ⟨m, hm, hk⟩, mem_descendants.2 ⟨m, hm, hk'⟩⟩

/-- The two nodes for what an optional holds are at one position. -/
theorem Doubles.position_eq (hspread : ∀ m ∈ n.nodes, Spread m) (h : n.Doubles k k') :
    k.node.position = k'.node.position := by
  obtain ⟨m, hm, ⟨content, hcontent⟩, hk, hk', hextracted, hvalue⟩ := h
  have hsettled := (hspread m hm).settled k hk
  have hsettled' := (hspread m hm).settled k' hk'
  obtain ⟨hstep, htype⟩ := hsettled.held (.inl hextracted)
  obtain ⟨hstep', htype'⟩ := hsettled'.held (.inr hvalue)
  rw [position, position, hsettled.location, hsettled'.location, hstep, hstep', htype _ hcontent,
    htype' _ hcontent]

theorem leads_of_mem_nodes (hspread : ∀ m ∈ n.nodes, Spread m) :
    ∀ m ∈ n.nodes, n.location.Leads m.location := by
  induction n using Node.induction with
  | h n ih =>
    intro m hm
    rcases mem_nodes.1 hm with rfl | ⟨k, hk, hm⟩
    · exact .refl _
    · have hsettled := (hspread n (mem_nodes_self n)).settled k hk
      refine .of_child hsettled.inner ?_
      rw [← hsettled.location]
      exact ih k hk (fun m hm => hspread m (mem_nodes.2 (.inr ⟨k, hk, hm⟩))) m hm

/-- What is below a child is at a location behind that of the child. -/
theorem leads_of_mem_descendants (hspread : ∀ m ∈ n.nodes, Spread m) (hk : k ∈ n.children) :
    ∀ x ∈ k :: k.node.descendants, (n.location.child k.wrapper.step).Leads x.node.location := by
  intro x hx
  have hbelow : ∀ m ∈ k.node.nodes, Spread m :=
    fun m hm => hspread m (mem_nodes.2 (.inr ⟨k, hk, hm⟩))
  have hx : x.node ∈ k.node.nodes := by
    rw [nodes_eq_descendants, ← List.map_cons (f := Child.node)]
    exact List.mem_map_of_mem hx
  rw [← ((hspread n (mem_nodes_self n)).settled k hk).location]
  exact leads_of_mem_nodes hbelow x.node hx

/-- A node below is not where the root is. -/
theorem location_ne_of_mem_descendants (hspread : ∀ m ∈ n.nodes, Spread m) :
    ∀ x ∈ n.descendants, x.node.location ≠ n.location := by
  intro x hx
  rw [descendants_eq] at hx
  obtain ⟨k, hk, hx⟩ := List.mem_flatMap.1 hx
  exact (leads_of_mem_descendants hspread hk x hx).ne

/-- **Two nodes below the root are at one location only if both are for what an optional holds.** -/
theorem pairwise_descendants (hspread : ∀ m ∈ n.nodes, Spread m) :
    n.descendants.Pairwise fun k k' => k.node.location = k'.node.location → n.Doubles k k' := by
  induction n using Node.induction with
  | h n ih =>
    have hroot := hspread n (mem_nodes_self n)
    have hbelow : ∀ k ∈ n.children, ∀ m ∈ k.node.nodes, Spread m :=
      fun k hk m hm => hspread m (mem_nodes.2 (.inr ⟨k, hk, hm⟩))
    rw [descendants_eq, List.pairwise_flatMap]
    refine ⟨fun k hk => List.pairwise_cons.2 ⟨fun x hx heq => ?_, ?_⟩, ?_⟩
    · exact absurd heq.symm (location_ne_of_mem_descendants (hbelow k hk) x hx)
    · exact (ih k hk (hbelow k hk)).imp fun h heq => (h heq).of_child hk
    · refine hroot.apart.imp_of_mem ?_
      intro k k' hk hk' hapart x hx y hy heq
      have hleads := leads_of_mem_descendants hspread hk x hx
      have hleads' := leads_of_mem_descendants hspread hk' y hy
      have hstep := hleads.step_unique (heq ▸ hleads')
      obtain ⟨hoptional, hextracted, hvalue⟩ := hapart hstep
      -- there is nothing below the first of the two, and what is below the second is further away
      have hleaf : k.node.descendants = [] := by
        rw [descendants_eq, (hroot.settled k hk).leaf hextracted, List.flatMap_nil]
      rw [hleaf, List.mem_singleton] at hx
      rw [hx] at heq ⊢
      rcases List.mem_cons.1 hy with rfl | hy
      · exact ⟨n, mem_nodes_self n, hoptional, hk, hk', hextracted, hvalue⟩
      · refine absurd ?_ (location_ne_of_mem_descendants (hbelow k' hk') y hy)
        rw [← heq, (hroot.settled k hk).location, (hroot.settled k' hk').location, hstep]

theorem render_eq_iff (hspread : ∀ m ∈ n.nodes, Spread m) {x y : Node} (hx : x ∈ n.nodes)
    (hy : y ∈ n.nodes) : x.location.render = y.location.render ↔ x.location = y.location :=
  ⟨(leads_of_mem_nodes hspread x hx).eq_of_render (leads_of_mem_nodes hspread y hy),
    congrArg Location.render⟩

theorem mem_of_find? {x : Node} {location : String} (h : n.find? location = some x) :
    x ∈ n.nodes ∧ x.location.render = location := by
  unfold find? at h
  have hrender := List.find?_some h
  exact ⟨List.mem_of_find?_eq_some h, eq_of_beq hrender⟩

theorem mem_nodes_of_mem_descendants (h : k ∈ n.descendants) : k.node ∈ n.nodes := by
  rw [nodes_eq_descendants]
  exact List.mem_cons_of_mem _ (List.mem_map_of_mem h)

section Spread

variable (hspread : ∀ m ∈ n.nodes, Spread m)
include hspread

theorem render_ne_of_mem_descendants (hk : k ∈ n.descendants) :
    k.node.location.render ≠ n.location.render := fun heq =>
  location_ne_of_mem_descendants hspread k hk
    ((render_eq_iff hspread (mem_nodes_of_mem_descendants hk) (mem_nodes_self n)).1 heq)

theorem pairwise_render : n.descendants.Pairwise fun k k' =>
    k.node.location.render = k'.node.location.render ↔ n.Doubles k k' := by
  refine (pairwise_descendants hspread).imp_of_mem fun {k k'} hk hk' h => ?_
  rw [render_eq_iff hspread (mem_nodes_of_mem_descendants hk) (mem_nodes_of_mem_descendants hk')]
  exact ⟨h, fun h => congrArg Position.location (h.position_eq hspread)⟩

/-- At the location of a node below the root, the node is found, or the first of two that are there. -/
theorem exists_find? (hk : k ∈ n.descendants) : ∃ z, n.find? k.node.location.render = some z.node ∧
    (z = k ∨ n.Doubles z k) := by
  obtain ⟨z, hz, hrender, hfirst⟩ := find?_of_pairwise
    (p := fun x : Child Node => x.node.location.render == k.node.location.render)
    (pairwise_render hspread) hk (beq_self_eq_true _)
  refine ⟨z, ?_, hfirst.imp_right fun h => h.1 (eq_of_beq hrender)⟩
  rw [find?, nodes_eq_descendants, List.find?_cons,
    beq_eq_false_iff_ne.2 (render_ne_of_mem_descendants hspread hk).symm, List.find?_map]
  exact congrArg (Option.map Child.node) hz

/-- Whichever nodes are at a location, the one that is found is at the position of each. -/
theorem exists_find?_position (hk : k ∈ n.descendants) :
    ∃ x, n.find? k.node.location.render = some x ∧ x.position = k.node.position := by
  obtain ⟨z, hz, rfl | hdoubles⟩ := exists_find? hspread hk
  · exact ⟨z.node, hz, rfl⟩
  · exact ⟨z.node, hz, hdoubles.position_eq hspread⟩

theorem position_eq_of_render {x y : Node} (hx : x ∈ n.nodes) (hy : y ∈ n.nodes)
    (heq : x.location.render = y.location.render) : x.position = y.position := by
  rw [nodes_eq_descendants] at hx hy
  rcases List.mem_cons.1 hx with rfl | hx <;> rcases List.mem_cons.1 hy with rfl | hy
  · rfl
  · obtain ⟨k, hk, rfl⟩ := List.mem_map.1 hy
    exact absurd heq.symm (render_ne_of_mem_descendants hspread hk)
  · obtain ⟨k, hk, rfl⟩ := List.mem_map.1 hx
    exact absurd heq (render_ne_of_mem_descendants hspread hk)
  · obtain ⟨k, hk, rfl⟩ := List.mem_map.1 hx
    obtain ⟨k', hk', rfl⟩ := List.mem_map.1 hy
    obtain ⟨z, hz, hzk⟩ := exists_find?_position hspread hk
    obtain ⟨z', hz', hzk'⟩ := exists_find?_position hspread hk'
    rw [heq, hz'] at hz
    cases hz
    exact hzk.symm.trans hzk'

/-- **Locations tell nodes apart**, as far as they do among siblings. -/
theorem locates_of_spread : n.Locates := by
  refine ⟨fun k hk => render_ne_of_mem_descendants hspread hk, pairwise_render hspread,
    fun x hx y hy => position_eq_of_render hspread hx hy, ?_, fun k hk hfirst => ?_, fun k k' h => ?_⟩
  · rw [find?, nodes_eq_descendants, List.find?_cons, beq_self_eq_true]
  · obtain ⟨z, hz, rfl | hdoubles⟩ := exists_find? hspread hk
    · exact hz
    · exact absurd hdoubles (hfirst z)
  · have hlocation : k.node.location = k'.node.location :=
      congrArg Position.location (h.position_eq hspread)
    rw [← hlocation]
    obtain ⟨z, hz, rfl | hdoubles⟩ := exists_find? hspread h.mem.1
    · exact hz
    · -- the first of the two is reached through an extractor, so it is not the second of any two
      obtain ⟨-, -, -, -, -, hextracted, -⟩ := h
      obtain ⟨-, -, -, -, -, -, hvalue⟩ := hdoubles
      rw [hvalue] at hextracted
      cases hextracted

end Spread

end Node

namespace Analyser

variable {a : Analyser} {location : Location} {type : DeclaredType} {cs : List Constraint}
  {placed : Placement} {s s' : ConstraintCache}

/-- The default extractors lead from optionals only, and each optional has one of them. -/
theorem resolve_defaults {x : Extractor} {held : DeclaredType} (hx : x ∈ Extractor.defaults)
    (hheld : x.resolve type = some held) : x.name = "value" ∧
      ∀ content, type = .optional content → held = content.type := by
  simp only [Extractor.defaults, List.mem_cons, List.not_mem_nil, or_false] at hx
  rcases hx with rfl | rfl <;> cases type <;> simp_all [Extractor.optionalScalar, Extractor.optional]

/-- No type is one that both default extractors lead from. -/
theorem index_unique_defaults {i j : Nat} {x y : Extractor} {held held' : DeclaredType}
    (hx : Extractor.defaults[i]? = some x) (hheld : x.resolve type = some held)
    (hy : Extractor.defaults[j]? = some y) (hheld' : y.resolve type = some held') : i = j := by
  have hcases : ∀ {i : Nat} {x : Extractor}, Extractor.defaults[i]? = some x →
      i = 0 ∧ x = .optionalScalar ∨ i = 1 ∧ x = .optional := by
    rintro (_ | _ | i) x hx <;> simp_all [Extractor.defaults]
  obtain ⟨rfl, rfl⟩ | ⟨rfl, rfl⟩ := hcases hx <;> obtain ⟨rfl, rfl⟩ | ⟨rfl, rfl⟩ := hcases hy
  · rfl
  · cases type <;> simp [Extractor.optionalScalar, Extractor.optional] at hheld hheld'
  · cases type <;> simp [Extractor.optionalScalar, Extractor.optional] at hheld hheld'
  · rfl

/-- So at most one of them has a child at a position. -/
theorem pairwise_groups (hextractors : a.extractors = Extractor.defaults)
    (h : a.Divides type cs placed) (R : ExtractorGroup → ExtractorGroup → Prop) :
    placed.groups.Pairwise R := by
  have hindex : List.Forall₂ (fun i g => i = g.index) (cs.filterMap (a.sentTo? type)).eraseDups
      placed.groups := h.groups.imp fun _ _ hg => hg.index.symm
  rw [← List.forall₂_map_right_iff, List.forall₂_eq_eq_eq] at hindex
  have hnodup : (placed.groups.map (·.index)).Nodup := hindex ▸ nodup_eraseDups _
  refine (List.pairwise_map.1 hnodup).imp_of_mem ?_
  intro g g' hg hg' hne
  obtain ⟨i, -, hgathers⟩ := exists_mem_of_forall₂ h.groups g hg
  obtain ⟨j, -, hgathers'⟩ := exists_mem_of_forall₂ h.groups g' hg'
  refine absurd ?_ hne
  rw [hgathers.index, hgathers'.index]
  exact index_unique_defaults (hextractors ▸ hgathers.extractor) hgathers.held
    (hextractors ▸ hgathers'.extractor) hgathers'.held

/-- An extractor's child is where its siblings can be told from it. -/
theorem settled_group (hextractors : a.extractors = Extractor.defaults)
    (h : a.Divides type cs placed) {g : ExtractorGroup} (hg : g ∈ placed.groups) :
    Node.Settled type location (extractedChild location g) := by
  obtain ⟨i, -, hgathers⟩ := exists_mem_of_forall₂ h.groups g hg
  have hmem : g.extractor ∈ Extractor.defaults :=
    hextractors ▸ List.mem_of_getElem? hgathers.extractor
  obtain ⟨hname, hheld⟩ := resolve_defaults hmem hgathers.held
  have hstep : (Wrapper.extracted g.extractor).step = .held "value" := congrArg Segment.held hname
  refine ⟨rfl, ?_, fun _ => rfl, fun _ => ⟨hstep, hheld⟩⟩
  rw [extractedChild, hstep]
  decide

theorem ForNested.settled {n : Node} {k : Child Node} (h : ForNested n k) :
    Node.Settled n.type n.location k := by
  obtain ⟨p, hp, hwrapper, hlocation, htype⟩ := h
  obtain ⟨hinner, hextracted, hvalue⟩ := n.type.nested_step.2 p hp
  rw [← hwrapper] at hinner hextracted hvalue hlocation
  refine ⟨hlocation, hinner, fun h => ?_, fun h => ?_⟩
  · rw [hextracted] at h
    cases h
  · rw [hextracted] at h
    obtain ⟨hwrapper, hoptional⟩ := hvalue (.inl (h.resolve_left Bool.false_ne_true))
    refine ⟨by rw [hwrapper]; rfl, fun content hcontent => ?_⟩
    rw [htype, DeclaredType.optional.inj (hoptional.symm.trans hcontent)]

/-- **The children of a node that is formed of a type are spread**, with the default extractors. -/
theorem Formed.spread {n : Node} (hextractors : a.extractors = Extractor.defaults)
    (h : a.Formed n) : n.Spread := by
  obtain ⟨cs, placed, nested, hdivides, hchildren, hsub, hnested⟩ := h.children
  refine ⟨fun k hk => ?_, ?_⟩
  · rw [hchildren] at hk
    rcases List.mem_append.1 hk with hk | hk
    · obtain ⟨g, hg, rfl⟩ := List.mem_map.1 hk
      exact settled_group hextractors hdivides hg
    · exact (hnested k hk).1.settled
  · rw [hchildren]
    refine List.pairwise_append.2 ⟨?_, ?_, fun e he k hk hstep => ?_⟩
    · exact List.pairwise_map.2 (pairwise_groups hextractors hdivides _)
    · have hsteps := hsub.map Wrapper.step
      rw [List.map_map, List.map_map] at hsteps
      exact (List.pairwise_map.1 (n.type.nested_step.1.sublist hsteps)).imp fun hne heq =>
        absurd heq hne
    · -- the step of what an extractor leads to is that of an optional to its content alone
      obtain ⟨g, hg, rfl⟩ := List.mem_map.1 he
      obtain ⟨⟨p, hp, hwrapper, -⟩, -⟩ := hnested k hk
      have hsettled : Node.Settled n.type n.location (extractedChild n.location g) :=
        settled_group hextractors hdivides hg
      have hheld : k.wrapper.step = .held "value" := hstep.symm.trans (hsettled.held (.inl rfl)).1
      rw [hwrapper] at hheld ⊢
      obtain ⟨hvalue, hoptional⟩ := (n.type.nested_step.2 p hp).2.2 (.inr hheld)
      exact ⟨⟨p.2, hoptional⟩, rfl, hvalue⟩

/-- **What locations tell.** In the tree of an annotated type, with the default extractors, two nodes
are at one location only where an optional is checked twice: by constraints that an extractor takes to
what it holds, and at the type of its content. The two are then at the same position. So the location
of a node is that of one position, and looking it up finds the node, or the first of the two. The sites
in the type, where something may be declared, are at a location of their own each. So if there is an
error of building that names a location, it is that of a single site; unless the error comes from a
function that computes an attribute. -/
theorem locations_tell_positions {a : Analyser} (hextractors : a.extractors = Extractor.defaults)
    (t : AnnotatedType) (s : ConstraintCache) :
    (∀ n s', Gives (a.buildType t) s n s' → n.Locates) ∧
      ((t.sites (.ofRoot t.type.render)).map (·.location.render)).Nodup ∧
      ∀ e s', outcome (a.buildType t) s = (.error e, s') → ∀ location, e.location? = some location →
        a.catalog.Computes e ∨
          ∃! site, site ∈ t.sites (.ofRoot t.type.render) ∧ site.location.render = location := by
  refine ⟨fun n s' h => Node.locates_of_spread fun m hm => ?_, nodup_sites t _,
    fun e s' h location hlocation => ?_⟩
  · rcases (formed_of_build t _ s n s' h).2 m hm with hformed | hnil
    · exact hformed.spread hextractors
    · exact ⟨by simp [hnil], by simp [hnil]⟩
  refine (raises_build t _ s e s' h).imp_right fun hconcerns => ?_
  obtain ⟨site, hsite, hrender⟩ := hconcerns.site location hlocation
  refine ⟨site, ⟨hsite, hrender⟩, fun site' ⟨hsite', hrender'⟩ => ?_⟩
  exact List.inj_on_of_nodup_map (nodup_sites t _) hsite' hsite (hrender'.trans hrender.symm)

namespace Lengths

/-- The standard kinds and extractors. -/
def analyser : Analyser := ⟨{}, .builtin, Extractor.defaults, []⟩

/-- Positive lengths, which may be missing: the size is that of the list that the optional holds. -/
def lengths : AnnotatedType :=
  ⟨.optional (.plain (.collection .list ⟨.boxed .long, [.constraint ⟨"positive", .empty⟩]⟩)),
    [.constraint ⟨"size", .empty⟩]⟩

/-- Numbers under names, and what has no size is given one. -/
def sized : AnnotatedType :=
  .plain (.map (.plain .text) ⟨.scalar .int, [.constraint ⟨"size", .empty⟩]⟩)

end Lengths

open Lengths in
/-- The size of the list is with one node and its items are below another one, at the same location: the
second cannot be found. -/
theorem content_is_not_found : ∃ n s' x m, Gives (analyser.buildType lengths) .empty n s' ∧
    x ∈ n.nodes ∧ m ∈ n.nodes ∧ x.count = 1 ∧ m.count = 2 ∧
    x.location.render = m.location.render ∧ n.find? m.location.render = some x := by
  have hnodes : (outcome (analyser.buildType lengths) .empty).1.toOption.map (fun n =>
      (n.nodes.map fun m => (m.location.render, m.count),
        (n.find? "Optional<List<Long>>.@value").map (·.count))) =
      some ([("Optional<List<Long>>", 4), ("Optional<List<Long>>.@value", 1),
        ("Optional<List<Long>>.@value", 2), ("Optional<List<Long>>.@value[i]", 1)], some 1) := by
    decide +kernel
  rcases hlengths : outcome (analyser.buildType lengths) .empty with ⟨error | n, s'⟩
  · rw [hlengths] at hnodes
    cases hnodes
  rw [hlengths] at hnodes
  obtain ⟨hall, hfind⟩ := Prod.mk.inj (Option.some.inj hnodes)
  obtain ⟨x, hx, hone⟩ := Option.map_eq_some_iff.1 hfind
  have hmem : ("Optional<List<Long>>.@value", 2) ∈
      n.nodes.map fun m => (m.location.render, m.count) := by
    rw [hall]
    decide
  obtain ⟨m, hm, heq⟩ := List.mem_map.1 hmem
  obtain ⟨hlocation, htwo⟩ := Prod.mk.inj heq
  obtain ⟨hxmem, hxlocation⟩ := Node.mem_of_find? hx
  exact ⟨n, s', x, m, hlengths, hxmem, hm, hone, htwo, hxlocation.trans hlocation.symm,
    hlocation ▸ hx⟩

open Lengths in
/-- The nodes of the lengths are told apart as far as they can be, and the error about the numbers
names the one place where they are. -/
theorem lengths_are_located : ∃ n s', Gives (analyser.buildType lengths) .empty n s' ∧ n.Locates ∧
    (n.nodes.map fun m => (m.location.render, m.constraints.map (·.kind.name))) =
      [("Optional<List<Long>>", []), ("Optional<List<Long>>.@value", ["size"]),
        ("Optional<List<Long>>.@value", []), ("Optional<List<Long>>.@value[i]", ["positive"])] ∧
    (outcome (analyser.buildType sized) .empty).1 = .error (.noValueExtractor
      "Map<String, int><value>" "@size(max=2147483647, min=0)" "int") ∧
    ∃! site, site ∈ sized.sites (.ofRoot sized.type.render) ∧
      site.location.render = "Map<String, int><value>" := by
  have hnodes : (outcome (analyser.buildType lengths) .empty).1.toOption.map (fun n =>
      n.nodes.map fun m => (m.location.render, m.constraints.map (·.kind.name))) =
      some [("Optional<List<Long>>", []), ("Optional<List<Long>>.@value", ["size"]),
        ("Optional<List<Long>>.@value", []), ("Optional<List<Long>>.@value[i]", ["positive"])] := by
    decide +kernel
  rcases hlengths : outcome (analyser.buildType lengths) .empty with ⟨error | n, s'⟩
  · rw [hlengths] at hnodes
    cases hnodes
  rw [hlengths] at hnodes
  have herror : (outcome (analyser.buildType sized) .empty).1 = .error (.noValueExtractor
      "Map<String, int><value>" "@size(max=2147483647, min=0)" "int") := by
    have hrender : Title.size.render = "@size(max=2147483647, min=0)" := by decide +kernel
    rw [← hrender]
    rfl
  have hlocates := (locations_tell_positions (a := analyser) rfl lengths .empty).1 n s' hlengths
  refine ⟨n, s', hlengths, hlocates, Option.some.inj hnodes, herror, ?_⟩
  exact ((locations_tell_positions (a := analyser) rfl sized .empty).2.2 _ _ (Prod.ext herror rfl) _
    rfl).resolve_left (Catalog.not_computes_builtin _)

end Analyser

end Validation
