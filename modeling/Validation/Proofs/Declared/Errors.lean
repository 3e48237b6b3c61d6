import Validation.Proofs.Builtin
import Validation.Proofs.Declared.Layout

/-!
# What the errors of building are about

An error of building that names a location is about a site: the one that lies too deep, cannot hold a
constraint, or cannot cascade. The only other errors that could name one are those that a kind's own
function for an attribute comes to.

* `Catalog.Computes`: the error comes from a function that computes an attribute.
* `AnalysisError.Concerns`: the error is about sites.
* `raises_build`, `raises_buildClass`: all errors of building are of these two sorts.
-/

namespace Validation

/-- The location that the error names. -/
def AnalysisError.location? : AnalysisError → Option String
  | noApplicableFactory location .. | noValueExtractor location .. | invalidCascade location _
  | depthExceeded location _ => some location
  | _ => none

/-- The error comes from a function that computes an attribute of a part, be it of the kind or of
one that it expands into. -/
inductive Kind.Computes (e : AnalysisError) : Kind → Prop
  | own {k : Kind} {part : Part Kind} {name : String}
      {derive : Attributes → Except AnalysisError Attribute} {outer : Attributes}
      (hpart : part ∈ k.parts) (hsource : (name, .computed derive) ∈ part.sources)
      (h : derive outer = .error e) : Computes e k
  | ofPart {k : Kind} {part : Part Kind} (hpart : part ∈ k.parts) (h : Computes e part.target) :
      Computes e k

/-- The error comes from a function that computes an attribute for a kind of the catalog. -/
def Catalog.Computes (c : Catalog) (e : AnalysisError) : Prop := ∃ kind ∈ c.kinds, kind.Computes e

theorem Kind.Computes.not_every {e : AnalysisError} {k : Kind} (h : k.Computes e) :
    ¬ k.Every fun k => ∀ part ∈ k.parts, ∀ name derive, (name, .computed derive) ∉ part.sources := by
  intro hevery
  induction h with
  | own hpart hsource _ => exact hevery.self _ hpart _ _ hsource
  | ofPart hpart _ ih => exact ih (hevery.parts.target _ hpart)

/-- The standard kinds compute no attributes. -/
theorem Catalog.not_computes_builtin (e : AnalysisError) : ¬ Catalog.builtin.Computes e := by
  rintro ⟨kind, hkind, h⟩
  refine h.not_every ((standard_builtin kind hkind).mono fun k hk => ?_)
  have hnone : ∀ k ∈ builtin.kinds, ∀ part ∈ k.parts, ∀ name derive,
      (name, .computed derive) ∉ part.sources := by
    simp [builtin, Builtin.positive, Builtin.min, Builtin.max, Builtin.range, Builtin.size,
      Builtin.notNull, Builtin.notEmpty, Builtin.domain, Builtin.idCard, Part.ofTarget, Part.set]
  exact hnone k hk

/-- **The error is about sites**: if it names a location that is where a site is, and if it says that
this is too deep then the site lies deeper than the limit that is given. -/
structure AnalysisError.Concerns (limit : Nat) (sites : List Site) (e : AnalysisError) : Prop where
  site : ∀ location, e.location? = some location → ∃ site ∈ sites, site.location.render = location
  deep : ∀ location limit', e = .depthExceeded location limit' →
    limit' = limit ∧ ∃ site ∈ sites, site.location.render = location ∧ limit < site.location.depth

theorem AnalysisError.Concerns.mono {limit : Nat} {sites sites' : List Site} {e : AnalysisError}
    (h : e.Concerns limit sites) (hsub : sites ⊆ sites') : e.Concerns limit sites' := by
  refine ⟨fun location he => ?_, fun location limit' he => ?_⟩
  · obtain ⟨site, hsite, hlocation⟩ := h.site location he
    exact ⟨site, hsub hsite, hlocation⟩
  · obtain ⟨hlimit, site, hsite, hdeep⟩ := h.deep location limit' he
    exact ⟨hlimit, site, hsub hsite, hdeep⟩

/-- An error that names no location is about no site. -/
theorem AnalysisError.concerns_of_location?_eq_none {limit : Nat} {sites : List Site}
    {e : AnalysisError} (h : e.location? = none) : e.Concerns limit sites := by
  refine ⟨fun location he => ?_, fun location limit' he => ?_⟩
  · cases h.symm.trans he
  · rw [he] at h
    cases h

/-! ### Interning -/

theorem ends_checkDeclared (k : Kind) (name : String) (value : Attribute) :
    Ends (fun e => e.location? = none) (fun _ => True) (k.checkDeclared name value) := by
  unfold Kind.checkDeclared
  split_ifs <;> simp [Ends, AnalysisError.location?]

theorem ends_fillDefault (k : Kind) (resolved : Attributes) (spec : AttributeSpec) :
    Ends (fun e => e.location? = none) (fun _ => True) (k.fillDefault resolved spec) := by
  unfold Kind.fillDefault
  split_ifs
  · exact trivial
  · split
    · exact trivial
    · exact rfl

theorem ends_resolve (k : Kind) (declared : Attributes) :
    Ends (fun e => e.location? = none) (fun _ => True) (k.resolve declared) :=
  ends_bind (ends_forM fun entry _ => ends_checkDeclared k entry.1 entry.2) fun _ _ =>
    ends_foldlM (fun spec _ resolved _ => ends_fillDefault k resolved spec) trivial

theorem ends_instantiate (part : Part Kind) (outerKind : String) (outer : Attributes) :
    Ends (fun e => (∃ name derive outer, (name, .computed derive) ∈ part.sources ∧
      derive outer = .error e) ∨ e.location? = none) (fun _ => True)
      (part.instantiate outerKind outer) := by
  refine ends_foldlM (fun entry hentry resolved _ => ?_) trivial
  obtain ⟨name, source⟩ := entry
  have hvalue : Ends (fun e => (∃ name derive outer, (name, .computed derive) ∈ part.sources ∧
      derive outer = .error e) ∨ e.location? = none) (fun _ => True)
      (source.value outerKind outer) := by
    cases source with
    | literal value => exact trivial
    | outer name =>
      cases hget : outer.get? name with
      | some value => simp [Source.value, hget, Ends]
      | none => simp [Source.value, hget, Ends, AnalysisError.location?]
    | computed derive =>
      exact ends_iff.2 ⟨fun e he => .inl ⟨name, derive, outer, hentry, he⟩, fun _ _ => trivial⟩
  exact ends_bind hvalue fun _ _ => ends_pure trivial

mutual

/-- **Interning comes to no error that names a location**, unless a function for an attribute does. -/
theorem raises_internAt : ∀ (k : Kind) (depth : Nat) (declared : Attributes),
    Raises (fun e => k.Computes e ∨ e.location? = none) (k.internAt depth declared)
  | ⟨name, order, message, specs, factories, parts⟩, depth, declared => by
    rw [Kind.internAt]
    split_ifs
    · exact raises_throw (.inr rfl)
    have hresolve := ends_resolve ⟨name, order, message, specs, factories, parts⟩ declared
    refine raises_bind ((raises_lift hresolve).imp fun e => .inr) fun attributes => ?_
    refine raises_bind raises_get fun cache => ?_
    split
    · exact raises_pure _
    have hparts := raises_internParts parts (depth + 1) name attributes
    refine raises_bind (hparts.imp fun e he => he.imp_left ?_) fun cs => ?_
    · rintro ⟨part, hpart, he | ⟨key, derive, outer, hsource, he⟩⟩
      · exact .ofPart hpart he
      · exact .own hpart hsource he
    refine raises_bind (raises_modify _) fun _ => ?_
    exact raises_bind raises_get fun _ => raises_pure _

theorem raises_internParts : ∀ (parts : List (Part Kind)) (depth : Nat) (outerKind : String)
    (outer : Attributes),
    Raises (fun e => (∃ part ∈ parts, part.target.Computes e ∨
      ∃ name derive outer, (name, .computed derive) ∈ part.sources ∧ derive outer = .error e) ∨
        e.location? = none) (Kind.internParts depth outerKind outer parts)
  | [], depth, outerKind, outer => by
    rw [Kind.internParts]
    exact raises_pure []
  | ⟨target, sources⟩ :: rest, depth, outerKind, outer => by
    rw [Kind.internParts]
    have hhead := ends_instantiate ⟨target, sources⟩ outerKind outer
    refine raises_bind ((raises_lift hhead).imp fun e he => he.imp_left fun he =>
      ⟨_, List.mem_cons_self, .inr he⟩) fun declared => ?_
    refine raises_bind ((raises_internAt target depth declared).imp fun e he =>
      he.imp_left fun he => ⟨_, List.mem_cons_self, .inl he⟩) fun c => ?_
    refine raises_bind ((raises_internParts rest depth outerKind outer).imp fun e he =>
      he.imp_left fun ⟨part, hpart, he⟩ => ⟨part, List.mem_cons_of_mem _ hpart, he⟩) fun cs => ?_
    exact raises_pure _

end

namespace Analyser

variable {a : Analyser} {location : Location} {parts : List (Wrapper × AnnotatedType)}

/-- The error is about sites, or it comes from a function that computes an attribute. -/
def Explains (a : Analyser) (sites : List Site) (e : AnalysisError) : Prop :=
  a.catalog.Computes e ∨ e.Concerns a.config.maxTypeDepth sites

theorem Explains.mono {sites sites' : List Site} {e : AnalysisError} (h : a.Explains sites e)
    (hsub : sites ⊆ sites') : a.Explains sites' e := h.imp_right fun h => h.mono hsub

theorem raises_constraint (sites : List Site) (d : Declaration) :
    Raises (a.Explains sites) (a.constraint d) := by
  unfold constraint
  intro s e s' h
  rw [outcome_bind, outcome_lift] at h
  rcases hkind : a.catalog.resolve d.kind with error | kind <;> rw [hkind] at h
  · cases h
    unfold Catalog.resolve at hkind
    split at hkind
    · cases hkind
    · cases hkind
      exact .inr (AnalysisError.concerns_of_location?_eq_none rfl)
  · rcases raises_internAt kind 0 d.attributes s e s' h with he | he
    · exact .inl ⟨kind, Catalog.mem_of_resolve hkind, he⟩
    · exact .inr (AnalysisError.concerns_of_location?_eq_none he)

/-- An error about one of the sites, other than that it lies too deep. -/
theorem concerns_site {limit : Nat} {sites : List Site} {site : Site} (hsite : site ∈ sites)
    {e : AnalysisError} (hlocation : e.location? = some site.location.render)
    (hdeep : ∀ location limit', e ≠ .depthExceeded location limit') : e.Concerns limit sites :=
  ⟨fun _ he => ⟨site, hsite, Option.some.inj (hlocation.symm.trans he)⟩,
    fun location limit' he => absurd he (hdeep location limit')⟩

theorem raises_place {sites : List Site} {site : Site} (hsite : site ∈ sites) (placed : Placement)
    (d : Declaration) :
    Raises (a.Explains sites) (a.place ⟨site.location, site.type.type⟩ placed d) := by
  refine raises_bind (raises_constraint sites d) fun c => ?_
  split_ifs
  · exact raises_pure _
  split
  · exact raises_pure _
  · exact raises_throw (.inr (concerns_site hsite rfl nofun))

theorem raises_cascadeTarget {sites : List Site} {site : Site} (hsite : site ∈ sites) :
    Raises (a.Explains sites)
      (a.cascadeTarget ⟨site.location, site.type.type⟩ : Interning String) := by
  refine raises_lift ?_
  unfold cascadeTarget
  split
  · exact .inr (concerns_site hsite rfl nofun)
  · split_ifs
    · exact trivial
    · exact .inr (AnalysisError.concerns_of_location?_eq_none rfl)

theorem raises_cascadeAt {sites : List Site} {site : Site} (hsite : site ∈ sites) :
    Raises (a.Explains sites) (a.cascadeAt site.location site.type) := by
  unfold cascadeAt
  split_ifs
  · exact raises_map _ (raises_cascadeTarget hsite)
  · exact raises_pure _

theorem raises_buildParts (h : ∀ p ∈ parts, ∀ location,
      Raises (a.Explains (p.2.sites location)) (a.build location p.2)) :
    Raises (a.Explains (partSites location parts)) (a.buildParts location parts) := by
  refine raises_map _ (raises_mapM fun p hp => raises_map _ ((h p hp _).imp fun e he => ?_))
  exact he.mono fun site hsite => List.mem_flatMap.2 ⟨p, hp, hsite⟩

/-- **What the errors of building are about**: the sites in the type. -/
theorem raises_build : ∀ (t : AnnotatedType) (location : Location),
    Raises (a.Explains (t.sites location)) (a.build location t) := by
  intro t
  induction t using AnnotatedType.induction with
  | h t ih =>
    intro location
    have hsite : ⟨location, t⟩ ∈ t.sites location := by
      rw [AnnotatedType.sites_eq]
      exact List.mem_cons_self
    have hnested : Raises (a.Explains (t.sites location)) (a.buildNested location t.type) := by
      rw [buildNested_eq, AnnotatedType.sites_eq, sitesWithin_eq]
      exact (raises_buildParts ih).imp fun e he => he.mono (List.subset_cons_self _ _)
    rw [build_eq]
    -- a type that nests too deep is refused before its declarations are looked at
    by_cases hdeep : a.config.maxTypeDepth < location.depth
    · rw [if_pos hdeep]
      refine raises_throw (.inr ⟨fun _ he => ⟨_, hsite, Option.some.inj he⟩, ?_⟩)
      rintro _ _ ⟨⟩
      exact ⟨rfl, _, hsite, rfl, hdeep⟩
    rw [if_neg hdeep]
    refine raises_bind (raises_foldlM (fun placed d _ => raises_place hsite placed d) _)
      fun placed => ?_
    refine raises_bind (raises_cascadeAt hsite) fun cascade => ?_
    exact raises_bind hnested fun nested => raises_pure _

/-- Those of building the tree of a class are about the sites in its properties. -/
theorem raises_buildClass (schema : ClassSchema) :
    Raises (a.Explains (schema.sites a.config.propertySource)) (a.buildClass schema) := by
  rw [buildClass_eq, ClassSchema.sites_eq]
  refine raises_bind (raises_mapM fun d _ => raises_constraint _ d) fun constraints => ?_
  refine raises_bind (raises_buildParts fun p _ => raises_build p.2) fun children => ?_
  exact raises_pure _

end Analyser

end Validation
