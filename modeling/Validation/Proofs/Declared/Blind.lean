import Validation.Proofs.Build
import Validation.Proofs.Declared.Canonical
import Validation.Proofs.Declared.Trees
import Validation.Proofs.Engine.History

/-!
# Which annotations matter

Kinds and extractors are asked about a type with all annotations in it. If they do not look at these,
then schemas of one canonical form have trees of one canonical form; and at the place itself nothing
but the canonical form matters anyway. A kind that looks at the annotations of a nested type can tell
schemas of one canonical form apart.

* `alike_build`: the tree of a type and that of its canonical form.
* `trees_are_faithful`: what the trees of an engine hold, and which annotations matter for them.
* `Picky.other_annotation_moves_constraint`: a kind that looks at a nested annotation.
-/

namespace Validation

/-- The group with the type in canonical form. -/
def ExtractorGroup.canonical (g : ExtractorGroup) : ExtractorGroup :=
  { g with type := g.type.canonical }

/-- The placement with the types in canonical form. -/
def Placement.canonical (p : Placement) : Placement := ⟨p.own, p.groups.map (·.canonical)⟩

namespace Analyser

variable {a : Analyser} {location : Location}

theorem addToGroup_canonical (index : Nat) (extractor : Extractor) (type : DeclaredType)
    (c : Constraint) (groups : List ExtractorGroup) :
    (Placement.addToGroup index extractor type c groups).map (·.canonical) =
      Placement.addToGroup index extractor type.canonical c (groups.map (·.canonical)) := by
  induction groups with
  | nil => rfl
  | cons g rest ih =>
    have hindex : g.canonical.index = g.index := rfl
    rw [List.map_cons, Placement.addToGroup, Placement.addToGroup, hindex]
    split_ifs
    · rfl
    · rw [List.map_cons, ih]

theorem canonicalAll_extracted (groups : List ExtractorGroup) :
    Node.canonicalAll (groups.map (extractedChild location)) =
      (groups.map (·.canonical)).map (extractedChild location) := by
  rw [Node.canonicalAll_eq_map, List.map_map, List.map_map]
  refine List.map_congr_left fun g _ => ?_
  rw [Function.comp_apply, Function.comp_apply, extractedChild, extractedChild, Node.canonical,
    Node.canonicalAll]
  rfl

theorem canonicalAll_keep {w : Wrapper} {n n' : Node} (h : n.canonical = n'.canonical) :
    Node.canonicalAll (keep w n) = Node.canonicalAll (keep w n') := by
  have hempty : n.isEmpty = n'.isEmpty := by
    rw [← Node.isEmpty_canonical, h, Node.isEmpty_canonical]
  rw [keep, keep, hempty]
  split_ifs
  · rfl
  · rw [Node.canonicalAll_eq_map, Node.canonicalAll_eq_map, List.map_singleton, List.map_singleton, h]

theorem cascadeTarget_canonical (type : DeclaredType) :
    a.cascadeTarget ⟨location, type.canonical⟩ = a.cascadeTarget ⟨location, type⟩ := by
  rw [cascadeTarget, cascadeTarget, className?_canonical, render_canonical]

theorem cascadeAt_canonical (t : AnnotatedType) :
    a.cascadeAt location t.canonical = a.cascadeAt location t := by
  rw [cascadeAt, cascadeAt, AnnotatedType.isCascaded_canonical, AnnotatedType.type_canonical,
    cascadeTarget_canonical]

/-- The found extractor with the type that it leads to in canonical form. -/
def canonicalFound (found : Nat × Extractor × DeclaredType) : Nat × Extractor × DeclaredType :=
  (found.1, found.2.1, found.2.2.canonical)

/-- What is found first is the same up to a function, if it is so for every member. -/
theorem map_findSome?_congr {α β γ : Type} {f f' : α → Option β} {g : β → γ} {l : List α}
    (h : ∀ a ∈ l, (f a).map g = (f' a).map g) :
    (l.findSome? f).map g = (l.findSome? f').map g := by
  rw [List.map_findSome?, List.map_findSome?]
  induction l with
  | nil => rfl
  | cons a rest ih =>
    obtain ⟨ha, hrest⟩ := List.forall_mem_cons.1 h
    rw [List.findSome?_cons, List.findSome?_cons, Function.comp_apply, Function.comp_apply, ha,
      ih hrest]

section Blind

variable (hx : ∀ x ∈ a.extractors, x.Blind)

include hx in
/-- Blind extractors and kinds find the same extractor for a type and for its canonical form. -/
theorem extractorFor?_canonical {kind : Kind} (hkind : kind.Blind) (type : DeclaredType) :
    (a.extractorFor? kind type.canonical).map canonicalFound =
      (a.extractorFor? kind type).map canonicalFound := by
  refine map_findSome?_congr fun p hp => ?_
  have hresolve := hx p.1 (List.mem_of_getElem? (List.mem_zipIdx_iff_getElem?.1 hp)) type
  dsimp only
  cases h : p.1.resolve type.canonical with
  | none =>
    rw [h, Option.map_none] at hresolve
    rw [Option.map_eq_none_iff.1 hresolve.symm]
  | some held =>
    rw [h, Option.map_some] at hresolve
    obtain ⟨held', h', hheld⟩ := Option.map_eq_some_iff.1 hresolve.symm
    have happlies : kind.applies held' = kind.applies held := by
      rw [← hkind held', hheld, hkind held]
    rw [h', Option.filter_some, Option.filter_some, happlies]
    split_ifs
    · simp only [Option.map_some, canonicalFound, hheld]
    · rfl

variable (hkinds : ∀ kind ∈ a.catalog.kinds, kind.Every Kind.Blind)

/-- Interned constraints are of blind kinds if all kinds are blind. -/
theorem blind_assemble : Assembles (fun c => c.kind.Blind) Kind.Blind := fun _ _ _ hkind _ => hkind

include hx hkinds

/-- One more constraint goes to the same place at a type and at its canonical form. -/
theorem alike_place (type : DeclaredType) {placed placed' : Placement}
    (h : placed.canonical = placed'.canonical) (d : Declaration) :
    Alike (ConstraintCache.All fun c => c.kind.Blind)
      (fun p p' : Placement => p.canonical = p'.canonical)
      (a.place ⟨location, type⟩ placed d) (a.place ⟨location, type.canonical⟩ placed' d) := by
  obtain ⟨hown, hgroups⟩ := Placement.mk.inj h
  refine alike_bind (keeps_constraint blind_assemble hkinds d).alike ?_
  rintro c c' ⟨rfl, hc⟩
  obtain ⟨kind, -, hblind, -⟩ := hc
  dsimp only
  rw [hblind type, render_canonical]
  split_ifs
  · exact alike_pure (by rw [Placement.canonical, Placement.canonical, hown, hgroups])
  -- the kind does not apply to the type, so what counts is which extractor is found, and its type
  have hfound := extractorFor?_canonical hx hblind type
  cases h : a.extractorFor? c'.kind type with
  | none =>
    rw [h, Option.map_none, Option.map_eq_none_iff] at hfound
    rw [hfound]
    exact alike_throw _
  | some found =>
    obtain ⟨index, extractor, held⟩ := found
    rw [h, Option.map_some, Option.map_eq_some_iff] at hfound
    obtain ⟨⟨index', extractor', held'⟩, hfound, heq⟩ := hfound
    simp only [canonicalFound, Prod.mk.injEq] at heq
    obtain ⟨rfl, rfl, hheld⟩ := heq
    rw [hfound]
    refine alike_pure ?_
    simp only [Placement.canonical, addToGroup_canonical, hown, hgroups, hheld]

omit hx hkinds in
/-- The children for parts and for their canonical forms are alike if the nodes of the parts are. -/
theorem alike_buildParts {parts : List (Wrapper × AnnotatedType)}
    (h : ∀ p ∈ parts, Alike (ConstraintCache.All fun c => c.kind.Blind)
      (fun n n' : Node => n.canonical = n'.canonical)
      (a.buildPart location p) (a.buildPart location (Prod.map id (·.canonical) p))) :
    Alike (ConstraintCache.All fun c => c.kind.Blind)
      (fun ks ks' => Node.canonicalAll ks = Node.canonicalAll ks')
      (a.buildParts location parts)
      (a.buildParts location (parts.map (Prod.map id (·.canonical)))) := by
  induction parts with
  | nil => exact alike_pure rfl
  | cons p parts ih =>
    obtain ⟨hp, hrest⟩ := List.forall_mem_cons.1 h
    rw [List.map_cons, buildParts_cons, buildParts_cons]
    refine alike_bind hp fun n n' hn => alike_bind (ih hrest) fun ks ks' hks => alike_pure ?_
    rw [Node.canonicalAll_append, Node.canonicalAll_append, hks]
    exact congrArg (· ++ _) (canonicalAll_keep hn)

/-- **The tree of a type and that of its canonical form** are alike. -/
theorem alike_build (t : AnnotatedType) : ∀ location : Location,
    Alike (ConstraintCache.All fun c => c.kind.Blind) (fun n n' => n.canonical = n'.canonical)
      (a.build location t) (a.build location t.canonical) := by
  induction t using AnnotatedType.induction with
  | h t ih =>
    intro location
    have hplaced : Alike (ConstraintCache.All fun c => c.kind.Blind)
        (fun p p' : Placement => p.canonical = p'.canonical)
        (t.declarations.foldlM (a.place ⟨location, t.type⟩) .empty)
        (t.declarations.foldlM (a.place ⟨location, t.type.canonical⟩) .empty) :=
      alike_foldlM (fun d _ _ _ h => alike_place hx hkinds t.type h d) rfl
    rw [build_eq, build_eq, AnnotatedType.declarations_canonical, AnnotatedType.type_canonical,
      cascadeAt_canonical, buildNested_eq, buildNested_eq, nested_canonical]
    split
    · exact alike_throw _
    refine alike_bind hplaced fun placed placed' h => ?_
    refine alike_bind (keeps_cascadeAt location t).alike ?_
    rintro cascade _ ⟨rfl, -⟩
    refine alike_bind (alike_buildParts fun p hp => ih p hp _) fun ks ks' hks => alike_pure ?_
    obtain ⟨hown, hgroups⟩ := Placement.mk.inj h
    rw [Node.canonical, Node.canonical, canonical_canonical_type, Node.canonicalAll_append,
      Node.canonicalAll_append, canonicalAll_extracted, canonicalAll_extracted, hown, hgroups, hks]

/-- The tree of a class and that of its canonical form are alike. -/
theorem alike_buildClass (schema : ClassSchema) :
    Alike (ConstraintCache.All fun c => c.kind.Blind) (fun n n' => n.canonical = n'.canonical)
      (a.buildClass schema) (a.buildClass schema.canonical) := by
  rw [buildClass_eq, buildClass_eq, ClassSchema.canonical, ClassSchema.declarations_rewrite,
    ClassSchema.parts_rewrite]
  have hconstraints : Keeps (ConstraintCache.All fun c => c.kind.Blind)
      (schema.declarations.mapM a.constraint) _ :=
    keeps_mapM fun d _ => keeps_constraint blind_assemble hkinds d
  refine alike_bind hconstraints.alike ?_
  rintro constraints _ ⟨rfl, -⟩
  refine alike_bind (alike_buildParts fun p _ => alike_build hx hkinds p.2 _) fun ks ks' hks =>
    alike_pure ?_
  rw [Node.canonical, Node.canonical, hks]
  rfl

end Blind

theorem cascadeAt_tidy (location : Location) (t : AnnotatedType) :
    a.cascadeAt location t.tidy = a.cascadeAt location t := by
  rw [cascadeAt, cascadeAt, AnnotatedType.isCascaded_tidy]
  rfl

/-- Of the annotations written at the place itself only the canonical form matters. -/
theorem build_tidy (t : AnnotatedType) (location : Location) :
    a.build location t.tidy = a.build location t := by
  rw [build_eq, build_eq, AnnotatedType.declarations_tidy, cascadeAt_tidy]
  rfl

theorem buildType_tidy (t : AnnotatedType) : a.buildType t.tidy = a.buildType t := build_tidy t _

theorem buildClass_tidy (schema : ClassSchema) : a.buildClass schema.tidy = a.buildClass schema := by
  have hproperty : ∀ (location : Location) (p : Property),
      a.buildProperty location { p with type := p.type.tidy } = a.buildProperty location p := by
    intro location p
    rw [buildProperty, buildProperty, build_tidy]
    rfl
  rw [buildClass, buildClass, ClassSchema.tidy, ClassSchema.declarations_rewrite,
    ClassSchema.effectiveProperties_rewrite, List.mapM_map]
  simp only [Function.comp_def, hproperty]
  rfl

end Analyser

namespace Engine

variable {e e' : Engine} {root : Root} {n : Node}

/-- **The tree of a root** carries what is declared at the root, and loses and invents nothing of what
is declared there and at the sites below. -/
def IsFaithful (e : Engine) : Root → Node → Prop
  | .ofType t, n =>
    Analyser.Carries (e.analyser.ConstraintOf fun _ => True) ⟨.ofRoot t.type.render, t⟩ n ∧
      Analyser.Faithful (e.analyser.ConstraintOf fun _ => True) t.declarations
        (t.type.sitesWithin (.ofRoot t.type.render)) n
  | .ofClass name, n => ∃ schema, e.schema? name = some schema ∧
    Analyser.CarriesClass (e.analyser.ConstraintOf fun _ => True) schema n ∧
      Analyser.Faithful (e.analyser.ConstraintOf fun _ => True) schema.declarations
        (schema.sites e.config.propertySource) n

/-- **What an engine has for the tree of a root is faithful.** -/
theorem isFaithful_of_lookup (he : OrderlyAny e) (h : e.trees.lookup root = some n) :
    e.IsFaithful root n := by
  obtain ⟨names, cache, cache', -, hcache, htree⟩ := he.trees root n h
  cases root with
  | ofType t =>
    exact ((Analyser.keeps_faithful_type (a := e.analyserOf names) any_assemble he.kinds t).of_gives
      hcache htree).2
  | ofClass name =>
    obtain ⟨schema, hschema, htree⟩ := htree
    have hfaithful := ((Analyser.keeps_faithful_class (a := e.analyserOf names) any_assemble he.kinds
      schema).of_gives hcache htree).2
    exact ⟨schema, hschema, hfaithful⟩

/-- A request for a tree does not change what is declared. -/
theorem isFaithful_of_gives (he : OrderlyAny e) (h : Gives (tree root) e n e') :
    e.IsFaithful root n := by
  obtain ⟨hran, hlookup, -⟩ := (leads_tree any_assemble he root).of_gives h
  have hfaithful := isFaithful_of_lookup hran.orderly hlookup
  have hanalyser : e'.analyser = e.analyser := by
    simp only [analyser, hran.grows.config, hran.grows.catalog, hran.grows.extractors, hran.classes]
  cases root with
  | ofType t =>
    rw [IsFaithful, hanalyser] at hfaithful
    exact hfaithful
  | ofClass name =>
    obtain ⟨schema, hschema, hcarries, hfaithful⟩ := hfaithful
    rw [hanalyser] at hcarries hfaithful
    rw [hran.grows.config] at hfaithful
    have hschema' : e.schema? name = some schema := by rw [← hschema, schema?, schema?, hran.classes]
    exact ⟨schema, hschema', hcarries, hfaithful⟩

section Blind

variable (he : Orderly (fun c => c.kind.Blind) Kind.Blind e) (hx : ∀ x ∈ e.extractors, x.Blind)
include he hx

/-- **Types of one canonical form** have trees of one canonical form, or the same error. -/
theorem outcome_buildType_of_canonical {t t' : AnnotatedType} (h : t.canonical = t'.canonical) :
    outcome (Node.canonical <$> e.analyser.buildType t) e.constraints =
      outcome (Node.canonical <$> e.analyser.buildType t') e.constraints := by
  have htype : ∀ t : AnnotatedType,
      outcome (Node.canonical <$> e.analyser.buildType t) e.constraints =
        outcome (Node.canonical <$> e.analyser.buildType t.canonical) e.constraints := by
    intro t
    rw [Analyser.buildType, Analyser.buildType, AnnotatedType.type_canonical, render_canonical]
    exact (Analyser.alike_build hx he.kinds t _).outcome_map (fun _ _ h => h) he.constraints
  rw [htype t, h, ← htype t']

/-- **Classes of one canonical form** have trees of one canonical form, or the same error. -/
theorem outcome_buildClass_of_canonical {schema schema' : ClassSchema}
    (h : schema.canonical = schema'.canonical) :
    outcome (Node.canonical <$> e.analyser.buildClass schema) e.constraints =
      outcome (Node.canonical <$> e.analyser.buildClass schema') e.constraints := by
  have hclass : ∀ schema : ClassSchema,
      outcome (Node.canonical <$> e.analyser.buildClass schema) e.constraints =
        outcome (Node.canonical <$> e.analyser.buildClass schema.canonical) e.constraints :=
    fun schema => (Analyser.alike_buildClass hx he.kinds schema).outcome_map (fun _ _ h => h)
      he.constraints
  rw [hclass schema, h, ← hclass schema']

end Blind

end Engine

open Engine Session

/-- **Trees lose and invent nothing.** After every history of an engine:

* The tree of a root holds the constraints of the declarations of the root, and those of the sites
  below, each once and at its site. It has nodes for the root and for the sites with something
  declared at them or below, and they cascade where the sites do.
* Of the annotations written at a type, at a class and at the types of its properties only the
  canonical form matters: which constraints are declared, and whether there is a cascade.
* The same is true of the annotations nested in types, if neither kinds nor extractors look at
  them. -/
theorem trees_are_faithful {config : Config} {catalog : Catalog} {kinds : List Kind}
    {extractors : List Extractor} {classes : List ClassSchema} {e e₁ : Engine}
    (hbuild : Engine.build config catalog kinds extractors classes = .ok e) (history : List Action)
    (hafter : ((start e).after history).engine = e₁) :
    (∀ root n e', Gives (tree root) e₁ n e' → e₁.IsFaithful root n) ∧
      (∀ t t' : AnnotatedType, t.tidy = t'.tidy →
        e₁.analyser.buildType t = e₁.analyser.buildType t') ∧
      (∀ schema schema' : ClassSchema, schema.tidy = schema'.tidy →
        e₁.analyser.buildClass schema = e₁.analyser.buildClass schema') ∧
      ((∀ kind ∈ e.catalog.kinds, kind.Every Kind.Blind) → (∀ x ∈ e.extractors, x.Blind) →
        (∀ t t' : AnnotatedType, t.canonical = t'.canonical →
          outcome (Node.canonical <$> e₁.analyser.buildType t) e₁.constraints =
            outcome (Node.canonical <$> e₁.analyser.buildType t') e₁.constraints) ∧
        ∀ schema schema' : ClassSchema, schema.canonical = schema'.canonical →
          outcome (Node.canonical <$> e₁.analyser.buildClass schema) e₁.constraints =
            outcome (Node.canonical <$> e₁.analyser.buildClass schema') e₁.constraints) := by
  subst hafter
  refine ⟨fun root n e' h => isFaithful_of_gives ?_ h, fun t t' h => ?_, fun schema schema' h => ?_,
    fun hkinds hx => ?_⟩
  · exact ((OrderlyBy.start (orderlyAny_build hbuild)).after any_assemble history).1.engine
  · rw [← Analyser.buildType_tidy t, h, Analyser.buildType_tidy t']
  · rw [← Analyser.buildClass_tidy schema, h, Analyser.buildClass_tidy schema']
  have hstart := OrderlyBy.start (orderly_build (P := fun c => c.kind.Blind) hbuild hkinds).1
  obtain ⟨hlast, hlater⟩ := hstart.after Analyser.blind_assemble history
  have hx₁ : ∀ x ∈ ((start e).after history).engine.extractors, x.Blind := by
    rw [hlater.grows.extractors]
    exact hx
  exact ⟨fun _ _ h => outcome_buildType_of_canonical hlast.engine hx₁ h,
    fun _ _ h => outcome_buildClass_of_canonical hlast.engine hx₁ h⟩

namespace Album

/-- A class with a list of texts, of which each is declared not to be empty. -/
def schema (annotations : List Annotation) : ClassSchema :=
  ⟨"Album", [], [⟨"photos", ⟨.collection .list ⟨.text, annotations⟩,
    [.constraint ⟨"not_null", .empty⟩]⟩, none⟩]⟩

/-- The constraints of a text in one annotation. -/
def together : List Annotation := [.constraints [⟨"not_null", .empty⟩, ⟨"not_empty", .empty⟩]]

/-- The constraints of a text one by one, with an annotation between them that says nothing. -/
def apart : List Annotation :=
  [.constraint ⟨"not_null", .empty⟩, .other "checked", .constraint ⟨"not_empty", .empty⟩]

/-- A new engine with the class. -/
def engine : Engine :=
  ⟨{}, .builtin, Extractor.defaults, [schema together], .empty, [], [], []⟩

end Album

/-- The tree of the class holds its three constraints, and it is that of the class with the
annotations of a nested type written apart. -/
theorem album_is_faithful :
    (∃ n e', Gives (tree (.ofClass "Album")) Album.engine n e' ∧
        (n.nodes.flatMap (·.constraints)).length = 3) ∧
      outcome (Node.canonical <$> Album.engine.analyser.buildClass (Album.schema Album.together))
          Album.engine.constraints =
        outcome (Node.canonical <$> Album.engine.analyser.buildClass (Album.schema Album.apart))
          Album.engine.constraints := by
  have hbuild : Engine.build {} .builtin [] [] [Album.schema Album.together] = .ok Album.engine := rfl
  obtain ⟨hfaithful, -, -, hblind⟩ := trees_are_faithful hbuild [] rfl
  have hkinds : ∀ kind ∈ Album.engine.catalog.kinds, kind.Every Kind.Blind := fun kind hkind =>
    (Catalog.standard_builtin kind hkind).mono fun k hk => blind_builtin k hk
  refine ⟨?_, (hblind hkinds blind_defaults).2 _ _ rfl⟩
  have hok : (outcome (tree (.ofClass "Album")) Album.engine).1.toOption.isSome = true := by cbv
  rcases houtcome : outcome (tree (.ofClass "Album")) Album.engine with ⟨error | n, e'⟩
  · rw [houtcome] at hok
    cases hok
  · refine ⟨n, e', houtcome, ?_⟩
    obtain ⟨schema, hschema, -, htree⟩ := hfaithful _ n e' houtcome
    obtain rfl : Album.schema Album.together = schema := Option.some.inj hschema
    obtain ⟨cs, hcs, hperm⟩ := htree.constraints
    rw [hperm.length_eq, ← hcs.length_eq]
    rfl

namespace Picky

/-- A kind for texts and for optionals of texts on which no annotation is written. -/
def kind : Kind :=
  ⟨"plain", none, none, [], [⟨fun type => type == .optional ⟨.text, []⟩ || type == .text,
    fun _ _ => .ok (.truth .reference)⟩], []⟩

/-- A new engine with the kind. -/
def engine : Engine := ⟨{}, ⟨[kind]⟩, Extractor.defaults, [], .empty, [], [], []⟩

/-- An optional text declared to be plain, with annotations on the text. -/
def type (annotations : List Annotation) : AnnotatedType :=
  ⟨.optional ⟨.text, annotations⟩, [.constraint ⟨"plain", .empty⟩]⟩

end Picky

/-- **An annotation that says nothing moves a constraint.** Without the annotation the constraint is
with the node of the optional, and with it the constraint is with one that an extractor leads to. -/
theorem other_annotation_moves_constraint :
    Engine.build {} ⟨[]⟩ [Picky.kind] [] [] = .ok Picky.engine ∧
      (Picky.type []).canonical = (Picky.type [.other "checked"]).canonical ∧
      (outcome (tree (.ofType (Picky.type []))) Picky.engine).1.toOption.map (·.constraints.length) =
        some 1 ∧
      (outcome (tree (.ofType (Picky.type [.other "checked"]))) Picky.engine).1.toOption.map
        (·.constraints.length) = some 0 := by
  refine ⟨rfl, by decide, ?_, ?_⟩ <;> cbv

end Validation
