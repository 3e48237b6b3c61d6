import Validation.Proofs.Intern
import Validation.Proofs.Node
import Validation.Proofs.Parts

/-!
# What a built tree holds

The tree of a type or a class holds one constraint for each declaration, at the position of the
declaration or with an extractor, and the trees of the nested types that have something to check.
Its constraints are interned ones, whose property is a parameter here.

* `Analyser.Places`: where the constraints of declarations go.
* `Analyser.Built`, `Analyser.BuiltClass`: what a built tree holds.
* `Analyser.Laid`: what there is at each of its nodes.
* `Analyser.Consists`: what holds of all its nodes.
* `Analyser.Settles`, `Places.settle`: one more constraint is placed.
* `keeps_buildType`, `keeps_buildClass`: trees are built so.
-/

namespace Validation

theorem Catalog.mem_of_resolve {c : Catalog} {name : String} {kind : Kind}
    (h : c.resolve name = .ok kind) : kind ∈ c.kinds := by
  unfold resolve find? at h
  split at h
  case h_1 found hfound =>
    cases h
    exact List.mem_of_find?_eq_some hfound
  case h_2 => cases h

namespace Analyser

variable (P : Constraint → Prop) {S : Kind → Prop} {a : Analyser}

/-- The constraint is that of the declaration. -/
def ConstraintOf (a : Analyser) (d : Declaration) (c : Constraint) : Prop :=
  ∃ kind, a.catalog.resolve d.kind = .ok kind ∧ Interned P kind d.attributes c

/-- Where the constraints of declarations go at a position: each is at the position itself if its
kind applies there, and otherwise with the first extractor that leads to where it does. -/
structure Places (a : Analyser) (p : Position) (ds : List Declaration) (placed : Placement) :
    Prop where
  own : ∀ c ∈ placed.own, c.kind.applies p.type = true ∧ ∃ d ∈ ds, a.ConstraintOf P d c
  grouped : ∀ g ∈ placed.groups, g.constraints ≠ [] ∧ ∀ c ∈ g.constraints,
    c.kind.applies p.type = false ∧
      a.extractorFor? c.kind p.type = some (g.index, g.extractor, g.type) ∧
      ∃ d ∈ ds, a.ConstraintOf P d c
  placed : ∀ d ∈ ds, ∃ c, a.ConstraintOf P d c ∧
    (c ∈ placed.own ∨ ∃ g ∈ placed.groups, c ∈ g.constraints)

mutual

/-- The node is built from the annotated type. -/
def Built (a : Analyser) : AnnotatedType → Location → Node → Prop
  | ⟨type, annotations⟩, location, n => ∃ placed cascade nested,
    a.Places P ⟨location, type⟩ (AnnotatedType.mk type annotations).declarations placed ∧
      (if (AnnotatedType.mk type annotations).isCascaded then
        ∃ name, a.cascadeTarget ⟨location, type⟩ = .ok name ∧ cascade = some name
      else cascade = none) ∧
      BuiltNested a type location nested ∧
      n = ⟨location, type, placed.own, cascade,
        placed.groups.map (extractedChild location) ++ nested⟩

/-- The children are built from the types nested in the type. -/
def BuiltNested (a : Analyser) : DeclaredType → Location → List (Child Node) → Prop
  | .array element, location, children => ∃ n, Built a element (location.child .element) n ∧
      children = keep .arrayElement n
  | .collection _ element, location, children =>
    ∃ n, Built a element (location.child .element) n ∧ children = keep .iterableElement n
  | .map key value, location, children =>
    ∃ k v, Built a key (location.child .mapKey) k ∧ Built a value (location.child .mapValue) v ∧
      children = keep .mapKey k ++ keep .mapValue v
  | .optional content, location, children =>
    ∃ n, Built a content (location.child (.held "value")) n ∧ children = keep .optionalValue n
  | _, _, children => children = []

end

/-- The node is built from the declarations of the class. -/
def BuiltClass (a : Analyser) (schema : ClassSchema) (n : Node) : Prop :=
  ∃ constraints children, List.Forall₂ (a.ConstraintOf P) schema.declarations constraints ∧
    List.Forall₂ (fun p ks => ∃ m, a.Built P p.type ((Location.ofRoot schema.name).child
        (.property p.name)) m ∧ ks = keep (.property p.accessor) m)
      (schema.effectiveProperties a.config.propertySource) children ∧
    n = ⟨.ofRoot schema.name, .classOf schema.name, constraints, none, children.flatten⟩

variable {P}

theorem cascadeTarget_eq_ok {p : Position} {name : String} :
    a.cascadeTarget p = .ok name ↔ p.type = .classOf name ∧ name ∈ a.classNames := by
  obtain ⟨location, type⟩ := p
  cases type with
  | classOf target =>
    simp only [cascadeTarget, DeclaredType.className?, List.contains_iff_mem]
    split_ifs with hmem
    · simp only [Except.ok.injEq, DeclaredType.classOf.injEq]
      exact ⟨fun h => ⟨h, h ▸ hmem⟩, fun h => h.1⟩
    · simp only [DeclaredType.classOf.injEq]
      exact iff_of_false nofun fun h => hmem (h.1 ▸ h.2)
  | _ => exact iff_of_false nofun fun h => nomatch h.1

/-- **How a wrapper joins a type to that of a part**: a class to its properties, which are those that
`declares` says, a container to its members, and an optional or any other type to what it holds. -/
inductive Joins (a : Analyser) (declares : String → Property → Prop) :
    Wrapper → DeclaredType → DeclaredType → Prop
  | property {name : String} {p : Property} (h : declares name p) :
      Joins a declares (.property p.accessor) (.classOf name) p.type.type
  | arrayElement {element : AnnotatedType} :
      Joins a declares .arrayElement (.array element) element.type
  | iterableElement {kind : CollectionKind} {element : AnnotatedType} :
      Joins a declares .iterableElement (.collection kind element) element.type
  | mapKey {key value : AnnotatedType} : Joins a declares .mapKey (.map key value) key.type
  | mapValue {key value : AnnotatedType} : Joins a declares .mapValue (.map key value) value.type
  | optionalValue {content : AnnotatedType} :
      Joins a declares .optionalValue (.optional content) content.type
  | extracted {extractor : Extractor} {type held : DeclaredType} (h : extractor ∈ a.extractors)
      (hheld : extractor.resolve type = some held) :
      Joins a declares (.extracted extractor) type held

theorem Joins.of_nested {declares : String → Property → Prop} {type : DeclaredType}
    {p : Wrapper × AnnotatedType} (hp : p ∈ type.nested) : a.Joins declares p.1 type p.2.type := by
  cases type with
  | array | collection | optional =>
    obtain rfl := List.mem_singleton.1 hp
    constructor
  | map =>
    rcases List.mem_pair.1 hp with rfl | rfl
    · exact .mapKey
    · exact .mapValue
  | _ => cases hp

/-- What there is at a node of a built tree: interned constraints of declarations, a cascade into the
class of the node, and children that are joined to it. -/
structure Laid (P : Constraint → Prop) (a : Analyser) (declares : String → Property → Prop)
    (n : Node) : Prop where
  own : ∀ c ∈ n.constraints, ∃ d, a.ConstraintOf P d c
  cascade : ∀ name, n.cascade = some name → n.type = .classOf name ∧ name ∈ a.classNames
  child : ∀ k ∈ n.children, a.Joins declares k.wrapper n.type k.node.type

variable {declares : String → Property → Prop}

/-- The child is joined to a node of the type, and its tree is laid out. -/
def LaidBelow (P : Constraint → Prop) (a : Analyser) (declares : String → Property → Prop)
    (type : DeclaredType) (k : Child Node) : Prop :=
  a.Joins declares k.wrapper type k.node.type ∧ ∀ m ∈ k.node.nodes, a.Laid P declares m

theorem laid_of_children {n : Node} (hown : ∀ c ∈ n.constraints, ∃ d, a.ConstraintOf P d c)
    (hcascade : ∀ name, n.cascade = some name → n.type = .classOf name ∧ name ∈ a.classNames)
    (hchildren : ∀ k ∈ n.children, a.LaidBelow P declares n.type k) :
    ∀ m ∈ n.nodes, a.Laid P declares m := by
  intro m hm
  rcases Node.mem_nodes.1 hm with rfl | ⟨k, hk, hm⟩
  · exact ⟨hown, hcascade, fun k hk => (hchildren k hk).1⟩
  · exact (hchildren k hk).2 m hm

/-- The children for nested types are kept of nodes that are built from these. -/
theorem builtNested_iff {type : DeclaredType} {location : Location} {children : List (Child Node)} :
    a.BuiltNested P type location children ↔
      ChildrenFor (fun p => a.Built P p.2 (location.child p.1.step)) type.nested children := by
  cases type <;> simp [BuiltNested, DeclaredType.nested, Wrapper.step]

/-- **How a node is built from an annotated type.** -/
theorem built_iff {t : AnnotatedType} {location : Location} {n : Node} :
    a.Built P t location n ↔ ∃ placed cascade nested,
      a.Places P ⟨location, t.type⟩ t.declarations placed ∧
        (if t.isCascaded then
          ∃ name, a.cascadeTarget ⟨location, t.type⟩ = .ok name ∧ cascade = some name
        else cascade = none) ∧
        ChildrenFor (fun p => a.Built P p.2 (location.child p.1.step)) t.type.nested nested ∧
        n = ⟨location, t.type, placed.own, cascade,
          placed.groups.map (extractedChild location) ++ nested⟩ := by
  obtain ⟨type, annotations⟩ := t
  rw [Built]
  simp only [builtNested_iff]

/-- **How a node is built from a class.** -/
theorem builtClass_iff {schema : ClassSchema} {n : Node} : a.BuiltClass P schema n ↔
    ∃ constraints children, List.Forall₂ (a.ConstraintOf P) schema.declarations constraints ∧
      ChildrenFor (fun p => a.Built P p.2 ((Location.ofRoot schema.name).child p.1.step))
        (schema.parts a.config.propertySource) children ∧
      n = ⟨.ofRoot schema.name, .classOf schema.name, constraints, none, children⟩ := by
  simp only [BuiltClass, ClassSchema.parts, ChildrenFor.iff_flatten, List.forall₂_map_left_iff]
  constructor
  · rintro ⟨constraints, kept, hown, hkept, rfl⟩
    exact ⟨constraints, _, hown, ⟨kept, hkept, rfl⟩, rfl⟩
  · rintro ⟨constraints, _, hown, ⟨kept, hkept, rfl⟩, rfl⟩
    exact ⟨constraints, kept, hown, hkept, rfl⟩

theorem type_of_built {t : AnnotatedType} {location : Location} {n : Node}
    (h : a.Built P t location n) : n.type = t.type := by
  obtain ⟨placed, cascade, nested, -, -, -, rfl⟩ := built_iff.1 h
  rfl

theorem extractorFor?_eq_some {kind : Kind} {type : DeclaredType} {index : Nat}
    {extractor : Extractor} {held : DeclaredType}
    (h : a.extractorFor? kind type = some (index, extractor, held)) :
    a.extractors[index]? = some extractor ∧ extractor.resolve type = some held := by
  obtain ⟨⟨x, i⟩, hmem, hx⟩ := List.exists_of_findSome?_eq_some h
  obtain ⟨found, hfound, heq⟩ := Option.map_eq_some_iff.1 hx
  cases heq
  exact ⟨List.mem_zipIdx_iff_getElem?.1 hmem, (Option.filter_eq_some_iff.1 hfound).1⟩

/-- What an extractor leads to is laid out below the type that it leads from. -/
theorem laidBelow_group {location : Location} {type : DeclaredType} {ds : List Declaration}
    {placed : Placement} (hplaced : a.Places P ⟨location, type⟩ ds placed) :
    ∀ g ∈ placed.groups, a.LaidBelow P declares type (extractedChild location g) := by
  intro g hg
  obtain ⟨hne, hall⟩ := hplaced.grouped g hg
  obtain ⟨c, hc⟩ := List.exists_mem_of_ne_nil _ hne
  obtain ⟨hat, hheld⟩ := extractorFor?_eq_some (hall c hc).2.1
  refine ⟨.extracted (List.mem_of_getElem? hat) hheld, laid_of_children (fun c hc => ?_) nofun ?_⟩
  · obtain ⟨d, -, hd⟩ := (hall c hc).2.2
    exact ⟨d, hd⟩
  · exact fun k hk => absurd hk List.not_mem_nil

/-- **The tree of a type is laid out** as the type is. -/
theorem laid_of_built {t : AnnotatedType} : ∀ {location : Location} {n : Node},
    a.Built P t location n → ∀ m ∈ n.nodes, a.Laid P declares m := by
  induction t using AnnotatedType.induction with
  | h t ih =>
    intro location n h
    obtain ⟨placed, cascade, nested, hplaced, hcascade, hnested, rfl⟩ := built_iff.1 h
    refine laid_of_children (fun c hc => ?_) (fun name hname => ?_) fun k hk => ?_
    · obtain ⟨d, -, hd⟩ := (hplaced.own c hc).2
      exact ⟨d, hd⟩
    · split at hcascade
      · obtain ⟨target, htarget, rfl⟩ := hcascade
        cases hname
        exact cascadeTarget_eq_ok.1 htarget
      · exact absurd hname (by rw [hcascade]; exact nofun)
    · rcases List.mem_append.1 hk with hk | hk
      · obtain ⟨g, hg, rfl⟩ := List.mem_map.1 hk
        exact laidBelow_group hplaced g hg
      · refine hnested.forall_mem (fun p hp m hm => ⟨?_, ih p hp hm⟩) k hk
        exact type_of_built hm ▸ .of_nested hp

/-- **The tree of a class is laid out** as the class is. -/
theorem laid_of_builtClass {schema : ClassSchema} {n : Node} (h : a.BuiltClass P schema n)
    (hdeclares : ∀ p ∈ schema.effectiveProperties a.config.propertySource, declares schema.name p) :
    ∀ m ∈ n.nodes, a.Laid P declares m := by
  obtain ⟨constraints, children, hown, hchildren, rfl⟩ := builtClass_iff.1 h
  refine laid_of_children (fun c hc => ?_) nofun fun k hk => ?_
  · obtain ⟨d, -, hd⟩ := exists_mem_of_forall₂ hown c hc
    exact ⟨d, hd⟩
  · refine hchildren.forall_mem (fun part hpart m hm => ?_) k hk
    obtain ⟨p, hp, rfl⟩ := List.mem_map.1 hpart
    exact ⟨type_of_built hm ▸ .property (hdeclares p hp), laid_of_built hm⟩

/-- The constraints at a node and below it have a property, and its cascades are to classes that
there are. -/
def Consists (P : Constraint → Prop) (names : List String) (n : Node) : Prop :=
  ∀ m ∈ n.nodes, (∀ c ∈ m.constraints, P c) ∧ ∀ name, m.cascade = some name → name ∈ names

theorem consists_of_laid {n : Node} (h : ∀ m ∈ n.nodes, a.Laid P declares m) :
    Consists P a.classNames n := by
  intro m hm
  refine ⟨fun c hc => ?_, fun name hname => ((h m hm).cascade name hname).2⟩
  obtain ⟨d, kind, -, hPc, -⟩ := (h m hm).own c hc
  exact hPc

theorem mem_addToGroup {index : Nat} {extractor : Extractor} {type : DeclaredType} {c d : Constraint}
    {groups : List ExtractorGroup} :
    (∃ g ∈ Placement.addToGroup index extractor type c groups, d ∈ g.constraints) ↔
      d = c ∨ ∃ g ∈ groups, d ∈ g.constraints := by
  induction groups with
  | nil => simp [Placement.addToGroup]
  | cons g rest ih =>
    unfold Placement.addToGroup
    split_ifs
    · simp only [List.exists_mem_cons_iff, List.mem_append, List.mem_singleton]
      tauto
    · simp only [List.exists_mem_cons_iff, ih]
      tauto

/-- What holds of the groups and of the new constraint holds of the groups with it, if the group
that it comes to is that of its extractor. -/
theorem forall_addToGroup (R : Nat → Extractor → DeclaredType → Constraint → Prop) {index : Nat}
    {extractor : Extractor} {type : DeclaredType} {c : Constraint} {groups : List ExtractorGroup}
    (hc : R index extractor type c)
    (hsame : ∀ g ∈ groups, g.index = index → g.extractor = extractor ∧ g.type = type)
    (h : ∀ g ∈ groups, g.constraints ≠ [] ∧ ∀ d ∈ g.constraints, R g.index g.extractor g.type d) :
    ∀ g ∈ Placement.addToGroup index extractor type c groups,
      g.constraints ≠ [] ∧ ∀ d ∈ g.constraints, R g.index g.extractor g.type d := by
  induction groups with
  | nil => simpa [Placement.addToGroup] using hc
  | cons g rest ih =>
    obtain ⟨hg, hrest⟩ := List.forall_mem_cons.1 h
    obtain ⟨hsameg, hsamerest⟩ := List.forall_mem_cons.1 hsame
    unfold Placement.addToGroup
    split_ifs with hindex
    · refine List.forall_mem_cons.2 ⟨⟨by simp, fun d hd => ?_⟩, hrest⟩
      rcases List.mem_append.1 hd with hd | hd
      · exact hg.2 d hd
      -- the new constraint, which is for the extractor of the group
      · obtain ⟨hextractor, htype⟩ := hsameg hindex
        rw [List.mem_singleton.1 hd]
        dsimp only
        rw [hindex, hextractor, htype]
        exact hc
    · exact List.forall_mem_cons.2 ⟨hg, ih hsamerest hrest⟩

/-- **Where one more constraint goes**: it stays, or it is sent to an extractor. -/
inductive Settles (a : Analyser) (type : DeclaredType) (placed : Placement) (c : Constraint) :
    Placement → Prop
  | own (h : c.kind.applies type = true) :
      Settles a type placed c { placed with own := placed.own ++ [c] }
  | sent {i : Nat} {x : Extractor} {held : DeclaredType} (h : c.kind.applies type = false)
      (hfor : a.extractorFor? c.kind type = some (i, x, held)) :
      Settles a type placed c
        { placed with groups := Placement.addToGroup i x held c placed.groups }

section Place

variable {p : Position} {type : DeclaredType} {ds : List Declaration} {d : Declaration}
  {c : Constraint} {placed placed' : Placement}

/-- One extractor leads to one type, so its group holds constraints of that type only. -/
theorem Places.group_unique (h : a.Places P p ds placed) {index : Nat} {extractor : Extractor}
    (hfor : a.extractorFor? c.kind p.type = some (index, extractor, type)) :
    ∀ g ∈ placed.groups, g.index = index → g.extractor = extractor ∧ g.type = type := by
  intro g hg hindex
  obtain ⟨hne, hall⟩ := h.grouped g hg
  obtain ⟨c', hc'⟩ := List.exists_mem_of_ne_nil _ hne
  obtain ⟨hat, htype⟩ := extractorFor?_eq_some (hall c' hc').2.1
  obtain ⟨hat', htype'⟩ := extractorFor?_eq_some hfor
  rw [hindex, hat', Option.some.injEq] at hat
  subst hat
  rw [htype', Option.some.injEq] at htype
  exact ⟨rfl, htype.symm⟩

/-- **One more constraint is placed.** -/
theorem Places.settle (h : a.Places P p ds placed) (hof : a.ConstraintOf P d c)
    (hc : a.Settles p.type placed c placed') : a.Places P p (ds ++ [d]) placed' := by
  -- what is placed still comes of a declaration, now that there is one more
  have hmono : ∀ c, (∃ d' ∈ ds, a.ConstraintOf P d' c) → ∃ d' ∈ ds ++ [d], a.ConstraintOf P d' c :=
    fun c ⟨d', hd', hc⟩ => ⟨d', List.mem_append_left _ hd', hc⟩
  have hown : ∀ c ∈ placed.own,
      c.kind.applies p.type = true ∧ ∃ d' ∈ ds ++ [d], a.ConstraintOf P d' c :=
    fun c hc => (h.own c hc).imp_right (hmono c)
  have hgrouped : ∀ g ∈ placed.groups, g.constraints ≠ [] ∧ ∀ c ∈ g.constraints,
      c.kind.applies p.type = false ∧
        a.extractorFor? c.kind p.type = some (g.index, g.extractor, g.type) ∧
        ∃ d' ∈ ds ++ [d], a.ConstraintOf P d' c := fun g hg =>
    (h.grouped g hg).imp_right fun h c hc => ⟨(h c hc).1, (h c hc).2.1, hmono c (h c hc).2.2⟩
  have hnew : ∃ d' ∈ ds ++ [d], a.ConstraintOf P d' c := ⟨d, by simp, hof⟩
  cases hc with
  | own happlies =>
    refine ⟨List.forall_mem_append.2 ⟨hown, List.forall_mem_singleton.2 ⟨happlies, hnew⟩⟩, hgrouped,
      List.forall_mem_append.2 ⟨fun d' hd' => ?_, List.forall_mem_singleton.2 ⟨c, hof, .inl (by simp)⟩⟩⟩
    obtain ⟨c', hof', hwhere⟩ := h.placed d' hd'
    exact ⟨c', hof', hwhere.imp_left (List.mem_append_left _)⟩
  | @sent index extractor held happlies hfor =>
    refine ⟨hown, forall_addToGroup (fun i x held c' => c'.kind.applies p.type = false ∧
      a.extractorFor? c'.kind p.type = some (i, x, held) ∧ ∃ d' ∈ ds ++ [d], a.ConstraintOf P d' c')
      ⟨happlies, hfor, hnew⟩ (h.group_unique hfor) hgrouped,
      List.forall_mem_append.2 ⟨fun d' hd' => ?_, List.forall_mem_singleton.2
        ⟨c, hof, .inr (mem_addToGroup.2 (.inl rfl))⟩⟩⟩
    obtain ⟨c', hof', hwhere⟩ := h.placed d' hd'
    exact ⟨c', hof', hwhere.imp_right fun h => mem_addToGroup.2 (.inr h)⟩

end Place

variable (hP : Assembles P S) (hS : ∀ kind ∈ a.catalog.kinds, kind.Every S)
include hP hS

theorem keeps_constraint (d : Declaration) :
    Keeps (ConstraintCache.All P) (a.constraint d) (a.ConstraintOf P d) := by
  refine keeps_bind keeps_liftM fun kind hkind => ?_
  have hmem := Catalog.mem_of_resolve hkind
  exact (keeps_internAt hP kind 0 d.attributes (hS kind hmem)).imp fun c hc => ⟨kind, hkind, hc⟩

theorem keeps_place (p : Position) (placed : Placement) (d : Declaration) :
    Keeps (ConstraintCache.All P) (a.place p placed d) fun placed' =>
      ∃ c, a.ConstraintOf P d c ∧ a.Settles p.type placed c placed' := by
  refine keeps_bind (keeps_constraint hP hS d) fun c hof => ?_
  split
  case isTrue happlies => exact keeps_pure ⟨c, hof, .own happlies⟩
  case isFalse happlies =>
    rw [Bool.not_eq_true] at happlies
    split
    case h_1 hfor => exact keeps_pure ⟨c, hof, .sent happlies hfor⟩
    case h_2 => exact keeps_throw

theorem keeps_placeAll (p : Position) (ds : List Declaration) :
    Keeps (ConstraintCache.All P) (ds.foldlM (a.place p) .empty) (a.Places P p ds) :=
  keeps_foldlM (a.Places P p) (fun _ d placed hplaced =>
      (keeps_place hP hS p placed d).imp fun _ ⟨_, hof, hc⟩ => hplaced.settle hof hc)
    ⟨by simp [Placement.empty], by simp [Placement.empty], by simp⟩

/-- **The node of a type** is built so. -/
theorem keeps_build (t : AnnotatedType) : ∀ location : Location,
    Keeps (ConstraintCache.All P) (a.build location t) (a.Built P t location) := by
  induction t using AnnotatedType.induction with
  | h t ih =>
    intro location
    rw [build_eq, buildNested_eq]
    split
    · exact keeps_throw
    refine keeps_bind (keeps_placeAll hP hS _ _) fun placed hplaced => ?_
    refine keeps_bind (keeps_cascadeAt location t) fun cascade hcascade => ?_
    refine keeps_bind (keeps_buildParts fun p hp => ih p hp _) fun nested hnested => keeps_pure ?_
    exact built_iff.2 ⟨placed, cascade, nested, hplaced, hcascade, hnested, rfl⟩

/-- **The tree of a type.** -/
theorem keeps_buildType (t : AnnotatedType) :
    Keeps (ConstraintCache.All P) (a.buildType t) (a.Built P t (.ofRoot t.type.render)) :=
  keeps_build hP hS t _

/-- **The tree of a class.** -/
theorem keeps_buildClass (schema : ClassSchema) :
    Keeps (ConstraintCache.All P) (a.buildClass schema) (a.BuiltClass P schema) := by
  rw [buildClass_eq]
  refine keeps_bind (keeps_mapM fun d _ => keeps_constraint hP hS d) fun constraints hown => ?_
  refine keeps_bind (keeps_buildParts fun p _ => keeps_build hP hS p.2 _) fun children hchildren => ?_
  exact keeps_pure (builtClass_iff.2 ⟨constraints, children, hown, hchildren, rfl⟩)

end Analyser

end Validation
