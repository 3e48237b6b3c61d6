import Mathlib.Data.List.Perm.Basic
import Validation.Proofs.Build
import Validation.Proofs.Declared.Sites
import Validation.Proofs.Verdict.Trees

/-!
# Trees lose and invent nothing

Of what is declared in a schema every constraint is in the tree once, at its site: with the node for
the site or, if its kind does not apply there, with one that an extractor leads to from there. There
are nodes for the root and for those sites only that have something declared at them or below.

* `Analyser.Carries`: what the node for a site carries.
* `Analyser.Faithful`: what the tree of a root holds.
* `keeps_faithful_type`, `keeps_faithful_class`: trees are built so.
-/

namespace Validation.Analyser

variable {P : Constraint → Prop} {S : Kind → Prop} {a : Analyser} {location : Location}
  {of : Declaration → Constraint → Prop} {sites sites' : List Site}
  {children children' : List (Child Node)} {n : Node}

/-- **The node carries what is declared at the site**, where `of` tells the constraints of
declarations: those whose kind applies to the type are its own, in order, and the others are with
nodes that extractors lead to; and it cascades if the site does. -/
structure Carries (of : Declaration → Constraint → Prop) (s : Site) (n : Node) : Prop where
  location : n.location = s.location
  type : n.type = s.type.type
  cascade : if s.type.isCascaded then ∃ name, s.type.type = .classOf name ∧ n.cascade = some name
    else n.cascade = none
  constraints : ∃ cs, List.Forall₂ of s.type.declarations cs ∧
    n.constraints = cs.filter (·.kind.applies s.type.type) ∧
    (n.extractions.flatMap (·.constraints)).Perm (cs.filter fun c => !c.kind.applies s.type.type)
  extractions : ∀ m ∈ n.extractions, m.constraints ≠ [] ∧ m.cascade = none ∧ m.children = []

/-- What the nodes for sites carry below a node: there is one for each site with something declared
at it or below, and no node is empty. -/
structure Traces (of : Declaration → Constraint → Prop) (sites : List Site)
    (children : List (Child Node)) : Prop where
  carries : List.Forall₂ (Carries of) (sites.filter (·.type.declares)) (Node.placesOf children)
  nonempty : ∀ m ∈ Node.nodesOf children, m.isEmpty = false

/-- **The tree loses and invents nothing** of what is declared at its root and at the sites below. -/
structure Faithful (of : Declaration → Constraint → Prop) (own : List Declaration)
    (sites : List Site) (n : Node) : Prop where
  /-- There are nodes for those sites that have something declared at them or below. -/
  carries : List.Forall₂ (Carries of) (sites.filter (·.type.declares)) (Node.placesOf n.children)
  /-- The root alone may be empty. -/
  nonempty : ∀ m ∈ Node.nodesOf n.children, m.isEmpty = false
  /-- There are no nodes but these and those that extractors lead to from them. -/
  nodes : n.nodes.Perm (n.places.flatMap Node.atPlace)
  /-- All nodes together have one constraint for each declaration. -/
  constraints : ∃ cs, List.Forall₂ of (own ++ sites.flatMap (·.type.declarations)) cs ∧
    (n.nodes.flatMap (·.constraints)).Perm cs

/-! ### From what nodes carry to all constraints -/

theorem Carries.perm {s : Site} (h : Carries of s n) :
    ∃ cs, List.Forall₂ of s.type.declarations cs ∧
      (n.atPlace.flatMap (·.constraints)).Perm cs := by
  obtain ⟨cs, hcs, hown, hextracted⟩ := h.constraints
  refine ⟨cs, hcs, ?_⟩
  rw [Node.atPlace, List.flatMap_cons, hown]
  exact (hextracted.append_left _).trans (List.filter_append_perm _ cs)

/-- The constraints of several nodes are those of the declarations of their sites. -/
theorem perm_of_carries {nodes : List Node} (h : List.Forall₂ (Carries of) sites nodes) :
    ∃ cs, List.Forall₂ of (sites.flatMap (·.type.declarations)) cs ∧
      (nodes.flatMap fun m => m.atPlace.flatMap (·.constraints)).Perm cs := by
  induction h with
  | nil => exact ⟨[], .nil, .nil⟩
  | cons hn _ ih =>
    obtain ⟨cs, hcs, hperm⟩ := hn.perm
    obtain ⟨rest, hrest, hperm'⟩ := ih
    refine ⟨cs ++ rest, ?_, ?_⟩
    · rw [List.flatMap_cons]
      exact List.rel_append hcs hrest
    · rw [List.flatMap_cons]
      exact hperm.append hperm'

/-- Sites with nothing declared at them or below do not matter for what is declared. -/
theorem flatMap_declarations (sites : List Site) :
    (sites.filter (·.type.declares)).flatMap (·.type.declarations) =
      sites.flatMap (·.type.declarations) := by
  induction sites with
  | nil => rfl
  | cons s rest ih =>
    rw [List.filter_cons]
    split
    case isTrue => rw [List.flatMap_cons, List.flatMap_cons, ih]
    case isFalse hdeclares =>
      have hnone : s.type.declarations = [] := by
        rw [AnnotatedType.declares_eq] at hdeclares
        simp only [Bool.or_eq_true, not_or, Bool.not_eq_true, Bool.not_eq_false', List.isEmpty_iff]
          at hdeclares
        exact hdeclares.1.1
      rw [List.flatMap_cons, hnone, List.nil_append, ih]

/-- A tree is faithful if its root carries what is declared there and the nodes below carry what is
declared at the sites. -/
theorem Traces.faithful {own : List Declaration} (h : Traces of sites n.children)
    (hroot : ∃ cs, List.Forall₂ of own cs ∧ (n.atPlace.flatMap (·.constraints)).Perm cs)
    (hleaves : ∀ m ∈ n.extractions, m.children = []) : Faithful of own sites n := by
  have hnodes : n.nodes.Perm (n.places.flatMap Node.atPlace) := by
    refine Node.nodes_perm_places fun m hm => ?_
    rw [Node.places_eq] at hm
    rcases List.mem_cons.1 hm with rfl | hm
    · exact hleaves
    · obtain ⟨s, -, hs⟩ := exists_mem_of_forall₂ h.carries m hm
      exact fun x hx => (hs.extractions x hx).2.2
  refine ⟨h.carries, h.nonempty, hnodes, ?_⟩
  obtain ⟨cs, hcs, hperm⟩ := hroot
  obtain ⟨rest, hrest, hperm'⟩ := perm_of_carries h.carries
  refine ⟨cs ++ rest, List.rel_append hcs (flatMap_declarations sites ▸ hrest), ?_⟩
  refine (hnodes.flatMap_right _).trans ?_
  rw [List.flatMap_assoc, Node.places_eq, List.flatMap_cons]
  exact hperm.append hperm'

/-! ### Below a node -/

theorem Traces.append (h : Traces of sites children) (h' : Traces of sites' children') :
    Traces of (sites ++ sites') (children ++ children') := by
  refine ⟨?_, fun m hm => ?_⟩
  · rw [List.filter_append, Node.placesOf_append]
    exact List.rel_append h.carries h'.carries
  · rw [Node.nodesOf_append] at hm
    exact (List.mem_append.1 hm).elim (h.nonempty m) (h'.nonempty m)

theorem traces_nil : Traces of [] [] := by
  refine ⟨?_, fun m hm => ?_⟩
  · rw [Node.placesOf]
    exact .nil
  · rw [Node.nodesOf] at hm
    cases hm

/-- What extractors lead to is for no site of its own. -/
theorem traces_extracted {groups : List ExtractorGroup} (h : ∀ g ∈ groups, g.constraints ≠ []) :
    Traces of [] (groups.map (extractedChild location)) := by
  refine ⟨?_, fun m hm => ?_⟩
  · rw [Node.placesOf_of_isExtracted]
    · exact .nil
    · intro k hk
      obtain ⟨g, -, rfl⟩ := List.mem_map.1 hk
      rfl
  · obtain ⟨k, hk, hm⟩ := Node.mem_nodesOf.1 hm
    obtain ⟨g, hg, rfl⟩ := List.mem_map.1 hk
    rcases Node.mem_nodes.1 hm with rfl | ⟨k, hk, -⟩
    · simpa [extractedChild, Node.isEmpty] using h g hg
    · cases hk

/-- A node is there for a type with something declared in it. -/
theorem traces_keep {t : AnnotatedType} {w : Wrapper} (hw : w.isExtracted = false)
    (hempty : n.isEmpty = !t.declares) (hn : Carries of ⟨location, t⟩ n)
    (h : Traces of (t.type.sitesWithin location) n.children) :
    Traces of (t.sites location) (keep w n) := by
  unfold keep
  -- the node is left out exactly when nothing is declared in the type, so at no site in it either
  cases hdeclares : t.declares with
  | false =>
    have hnil : Traces of [] [] := traces_nil
    rw [hempty, hdeclares, Bool.not_false, if_pos rfl]
    refine ⟨?_, hnil.nonempty⟩
    rw [filter_declares _ _ hdeclares, Node.placesOf]
    exact .nil
  | true =>
    rw [hdeclares, Bool.not_true] at hempty
    rw [hempty, if_neg Bool.false_ne_true]
    refine ⟨?_, fun m hm => ?_⟩
    · rw [AnnotatedType.sites_eq, List.filter_cons, hdeclares, if_pos rfl, Node.placesOf, hw,
        if_neg Bool.false_ne_true, Node.placesOf, List.append_nil, Node.places_eq]
      exact .cons hn h.carries
    · rw [Node.nodesOf, Node.nodesOf, List.append_nil, Node.nodes_eq] at hm
      rcases List.mem_cons.1 hm with rfl | hm
      · exact hempty
      · exact h.nonempty m hm

/-- The node is that of a part of what is at a location, with all that is declared there and below. -/
def TracesPart (of : Declaration → Constraint → Prop) (location : Location)
    (p : Wrapper × AnnotatedType) (n : Node) : Prop :=
  n.isEmpty = !p.2.declares ∧ Carries of ⟨location.child p.1.step, p.2⟩ n ∧
    Traces of (p.2.type.sitesWithin (location.child p.1.step)) n.children

/-- The children for parts, from the nodes of the parts. -/
theorem ChildrenFor.traces {parts : List (Wrapper × AnnotatedType)}
    (h : ChildrenFor (TracesPart of location) parts children)
    (hparts : ∀ p ∈ parts, p.1.isExtracted = false) :
    Traces of (partSites location parts) children := by
  induction h with
  | nil => exact traces_nil
  | cons hn _ ih =>
    obtain ⟨hempty, hcarries, htraces⟩ := hn
    obtain ⟨hp, hrest⟩ := List.forall_mem_cons.1 hparts
    rw [partSites, List.flatMap_cons]
    exact (traces_keep hp hempty hcarries htraces).append (ih hrest)

/-! ### Building -/

/-- Where the constraints of declarations go, each of them once. -/
def PlacesAll (P : Constraint → Prop) (a : Analyser) (type : DeclaredType) (ds : List Declaration)
    (placed : Placement) : Prop :=
  ∃ cs, List.Forall₂ (a.ConstraintOf P) ds cs ∧ placed.own = cs.filter (·.kind.applies type) ∧
    (placed.groups.flatMap (·.constraints)).Perm (cs.filter fun c => !c.kind.applies type)

theorem flatMap_addToGroup (index : Nat) (extractor : Extractor) (type : DeclaredType)
    (c : Constraint) (groups : List ExtractorGroup) :
    ((Placement.addToGroup index extractor type c groups).flatMap (·.constraints)).Perm
      (groups.flatMap (·.constraints) ++ [c]) := by
  induction groups with
  | nil => exact .refl _
  | cons g rest ih =>
    unfold Placement.addToGroup
    split_ifs
    · rw [List.flatMap_cons, List.flatMap_cons, List.append_assoc, List.append_assoc]
      exact List.perm_append_comm.append_left _
    · rw [List.flatMap_cons, List.flatMap_cons, List.append_assoc]
      exact ih.append_left _

/-- **One more constraint is placed.** -/
theorem PlacesAll.settle {type : DeclaredType} {ds : List Declaration} {d : Declaration}
    {c : Constraint} {placed placed' : Placement} (h : PlacesAll P a type ds placed)
    (hof : a.ConstraintOf P d c) (hc : a.Settles type placed c placed') :
    PlacesAll P a type (ds ++ [d]) placed' := by
  obtain ⟨cs, hcs, hown, hgroups⟩ := h
  refine ⟨cs ++ [c], List.rel_append hcs (.cons hof .nil), ?_⟩
  cases hc with
  | own happlies => exact ⟨by simp [happlies, hown], by simpa [happlies] using hgroups⟩
  | @sent index extractor held happlies =>
    refine ⟨by simp [happlies, hown], ?_⟩
    refine (flatMap_addToGroup index extractor held c placed.groups).trans ?_
    have hlast : [c].filter (fun c => !c.kind.applies type) = [c] := by simp [happlies]
    rw [List.filter_append, hlast]
    exact hgroups.append_right [c]

section Build

variable (hP : Assembles P S) (hS : ∀ kind ∈ a.catalog.kinds, kind.Every S)
include hP hS

theorem keeps_placeAll_all (p : Position) (ds : List Declaration) :
    Keeps (ConstraintCache.All P) (ds.foldlM (a.place p) .empty) (PlacesAll P a p.type ds) :=
  keeps_foldlM (PlacesAll P a p.type) (fun _ d placed hplaced =>
      (keeps_place hP hS p placed d).imp fun _ ⟨_, hof, hc⟩ => hplaced.settle hof hc)
    ⟨[], .nil, rfl, .nil⟩

omit hP hS in
/-- The node of a type carries what is declared there. -/
theorem carries_mk {t : AnnotatedType} {placed : Placement} {cascade : Option String}
    {nested : List (Child Node)} (hplaced : a.Places P ⟨location, t.type⟩ t.declarations placed)
    (hall : PlacesAll P a t.type t.declarations placed)
    (hcascade : if t.isCascaded then
      ∃ name, a.cascadeTarget ⟨location, t.type⟩ = .ok name ∧ cascade = some name else cascade = none)
    (hnested : ∀ k ∈ nested, k.wrapper.isExtracted = false) :
    Carries (a.ConstraintOf P) ⟨location, t⟩ ⟨location, t.type, placed.own, cascade,
      placed.groups.map (extractedChild location) ++ nested⟩ := by
  -- no nested child is extracted, so the extracted ones are those of the groups
  have hextractions : Node.extractions ⟨location, t.type, placed.own, cascade,
      placed.groups.map (extractedChild location) ++ nested⟩ =
      placed.groups.map fun g => (extractedChild location g).node := by
    have hnone : nested.filter (·.wrapper.isExtracted) = [] :=
      List.filter_eq_nil_iff.2 fun k hk => by rw [hnested k hk]; exact Bool.false_ne_true
    have hgroups : (placed.groups.map (extractedChild location)).filter (·.wrapper.isExtracted) =
        placed.groups.map (extractedChild location) := by
      refine List.filter_eq_self.2 fun k hk => ?_
      obtain ⟨g, -, rfl⟩ := List.mem_map.1 hk
      rfl
    rw [Node.extractions, List.filter_append, hnone, hgroups, List.append_nil, List.map_map]
    rfl
  obtain ⟨cs, hcs, hown, hgroups⟩ := hall
  refine ⟨rfl, rfl, ?_, ⟨cs, hcs, hown, ?_⟩, fun m hm => ?_⟩
  · split_ifs at hcascade ⊢
    · obtain ⟨name, htarget, rfl⟩ := hcascade
      exact ⟨name, (cascadeTarget_eq_ok.1 htarget).1, rfl⟩
    · exact hcascade
  · rw [hextractions, List.flatMap_map]
    exact hgroups
  · rw [hextractions] at hm
    obtain ⟨g, hg, rfl⟩ := List.mem_map.1 hm
    exact ⟨(hplaced.grouped g hg).1, rfl, rfl⟩

/-- **The tree of a type** carries what is declared at the sites of the type. -/
theorem keeps_carries (t : AnnotatedType) : ∀ location : Location,
    Keeps (ConstraintCache.All P) (a.build location t) fun n =>
      Carries (a.ConstraintOf P) ⟨location, t⟩ n ∧
        Traces (a.ConstraintOf P) (t.type.sitesWithin location) n.children := by
  induction t using AnnotatedType.induction with
  | h t ih =>
    intro location
    have hpart : ∀ p ∈ t.type.nested, Keeps (ConstraintCache.All P) (a.buildPart location p)
        (TracesPart (a.ConstraintOf P) location p) := fun p hp =>
      ((keeps_build hP hS p.2 _).and (ih p hp _)).imp fun n ⟨hbuilt, hn⟩ => ⟨isEmpty_built hbuilt, hn⟩
    rw [build_eq, buildNested_eq, sitesWithin_eq]
    split
    · exact keeps_throw
    refine keeps_bind ((keeps_placeAll hP hS _ _).and (keeps_placeAll_all hP hS _ _)) ?_
    rintro placed ⟨hplaces, hall⟩
    refine keeps_bind (keeps_cascadeAt location t) fun cascade hcascade => ?_
    refine keeps_bind (keeps_buildParts hpart) fun nested hnested => keeps_pure ⟨?_, ?_⟩
    · refine carries_mk hplaces hall hcascade (hnested.forall_mem fun p hp _ _ => ?_)
      exact isExtracted_of_nested hp
    · have htraces := hnested.traces fun p hp => isExtracted_of_nested hp
      exact (traces_extracted fun g hg => (hplaces.grouped g hg).1).append htraces

/-- **The tree of a type loses and invents nothing.** -/
theorem keeps_faithful_type (t : AnnotatedType) :
    Keeps (ConstraintCache.All P) (a.buildType t) fun n =>
      Carries (a.ConstraintOf P) ⟨.ofRoot t.type.render, t⟩ n ∧
        Faithful (a.ConstraintOf P) t.declarations (t.type.sitesWithin (.ofRoot t.type.render)) n := by
  refine (keeps_carries hP hS t _).imp ?_
  rintro n ⟨hn, htraces⟩
  exact ⟨hn, htraces.faithful hn.perm fun m hm => (hn.extractions m hm).2.2⟩

/-- What the root of a class carries: the constraints declared on the class, in order. -/
structure CarriesClass (of : Declaration → Constraint → Prop) (schema : ClassSchema) (n : Node) :
    Prop where
  location : n.location = .ofRoot schema.name
  type : n.type = .classOf schema.name
  cascade : n.cascade = none
  constraints : List.Forall₂ of schema.declarations n.constraints
  extractions : n.extractions = []

/-- **The tree of a class loses and invents nothing.** -/
theorem keeps_faithful_class (schema : ClassSchema) :
    Keeps (ConstraintCache.All P) (a.buildClass schema) fun n =>
      CarriesClass (a.ConstraintOf P) schema n ∧
        Faithful (a.ConstraintOf P) schema.declarations
          (schema.sites a.config.propertySource) n := by
  have hpart : ∀ p ∈ schema.parts a.config.propertySource, Keeps (ConstraintCache.All P)
      (a.buildPart (.ofRoot schema.name) p) (TracesPart (a.ConstraintOf P) (.ofRoot schema.name) p) :=
    fun p _ => ((keeps_build hP hS p.2 _).and (keeps_carries hP hS p.2 _)).imp
      fun n ⟨hbuilt, hn⟩ => ⟨isEmpty_built hbuilt, hn⟩
  rw [buildClass_eq, ClassSchema.sites_eq]
  refine keeps_bind (keeps_mapM fun d _ => keeps_constraint hP hS d) fun constraints hown => ?_
  refine keeps_bind (keeps_buildParts hpart) fun children hchildren => ?_
  have htraces := hchildren.traces fun p hp => isExtracted_of_parts hp
  have hwrappers : ∀ k ∈ children, k.wrapper.isExtracted = false :=
    hchildren.forall_mem fun p hp _ _ => isExtracted_of_parts hp
  -- no child of a class is extracted, so its own constraints are all of its declarations
  have hextractions : Node.extractions ⟨.ofRoot schema.name, .classOf schema.name, constraints, none,
      children⟩ = [] := by
    rw [Node.extractions, List.map_eq_nil_iff, List.filter_eq_nil_iff]
    intro k hk
    rw [hwrappers k hk]
    exact Bool.false_ne_true
  refine keeps_pure ⟨⟨rfl, rfl, rfl, hown, hextractions⟩, htraces.faithful ?_ ?_⟩
  · refine ⟨constraints, hown, ?_⟩
    rw [Node.atPlace, hextractions, List.flatMap_singleton]
  · rw [hextractions]
    exact nofun

end Build

end Validation.Analyser
