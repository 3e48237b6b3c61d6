import Validation.Proofs.Declared.Placement
import Validation.Proofs.Delivery
import Validation.Proofs.Engine.Coherence

/-!
# Constraints on optionals and on their contents

A constraint that is declared on an optional and applies only to what it holds is led there by an
extractor. Declared on the content itself it stays there, and the content is one of the types nested in
the optional. Either way the tree has one node with the constraint, of the same location and type; the
wrappers above it differ, but find the same in every value.

* `onOptional`, `onContent`: the two ways to declare the constraint.
* `Analyser.MeantForContent`: where the constraint applies.
* `Analyser.gives_onOptional`, `Analyser.gives_onContent`: the trees of both.
* `Wrapper.checkExtracted_optional`, `compile_alike`: their criteria.
* `Engine.exists_validator_iff`: the validator of a root that does not cascade.
* `optional_and_content_agree`: with it, requests for both in an engine.
* `namesake_part_is_declared`: a kind that expands into another kind of its name.
-/

namespace Validation

mutual

/-- No annotation is written on the types nested in the type. -/
def DeclaredType.IsBare : DeclaredType → Prop
  | .array element | .collection _ element | .optional element => element.IsBare
  | .map key value => key.IsBare ∧ value.IsBare
  | _ => True

/-- No annotation is written on the type or on those nested in it. -/
def AnnotatedType.IsBare : AnnotatedType → Prop
  | ⟨type, annotations⟩ => annotations = [] ∧ type.IsBare

end

theorem DeclaredType.isBare_iff {type : DeclaredType} :
    type.IsBare ↔ ∀ p ∈ type.nested, p.2.IsBare := by
  cases type <;> simp [DeclaredType.IsBare, DeclaredType.nested]

theorem AnnotatedType.isBare_iff {t : AnnotatedType} :
    t.IsBare ↔ t.annotations = [] ∧ ∀ p ∈ t.type.nested, p.2.IsBare := by
  obtain ⟨type, annotations⟩ := t
  rw [AnnotatedType.IsBare, DeclaredType.isBare_iff]

/-- The type with a declaration on an optional of it. -/
def onOptional (d : Declaration) (type : DeclaredType) : AnnotatedType :=
  ⟨.optional (.plain type), [.constraint d]⟩

/-- The type with the declaration on what the optional holds. -/
def onContent (d : Declaration) (type : DeclaredType) : AnnotatedType :=
  .plain (.optional ⟨type, [.constraint d]⟩)

/-- The location of what an optional of the type holds. -/
def contentLocation (type : DeclaredType) : Location :=
  (Location.ofRoot (DeclaredType.optional (.plain type)).render).child (.held "value")

/-- The node of the content, with the constraint. -/
def contentNode (type : DeclaredType) (c : Constraint) : Node :=
  ⟨contentLocation type, type, [c], none, []⟩

/-- The tree of an optional with nothing to check but its content. -/
def optionalNode (type : AnnotatedType) (w : Wrapper) (content : Node) : Node :=
  ⟨.ofRoot (DeclaredType.optional type).render, .optional type, [], none, [⟨w, content⟩]⟩

namespace Analyser

variable {a : Analyser} {location : Location} {type : DeclaredType} {d : Declaration} {α β : Type}
  {cache cache' : ConstraintCache} {n : Node}

/-- **The operation is steady**: it leaves the cache as it is, and in all caches it gives the result or
in all of them it fails with the same error. -/
def Steady (op : Interning α) (a : α) : Prop :=
  (∀ cache, outcome op cache = (.ok a, cache)) ∨
    ∃ error, ∀ cache, outcome op cache = (.error error, cache)

theorem steady_pure (a : α) : Steady (pure a : Interning α) a := .inl fun _ => rfl

theorem steady_bind {op : Interning α} {f : α → Interning β} {a : α} {b : β} (hop : Steady op a)
    (hf : Steady (f a) b) : Steady (op >>= f) b := by
  rcases hop with hop | ⟨error, hop⟩
  · rcases hf with hf | ⟨error, hf⟩
    · exact .inl fun cache => by simp only [outcome_bind, hop, hf]
    · exact .inr ⟨error, fun cache => by simp only [outcome_bind, hop, hf]⟩
  · exact .inr ⟨error, fun cache => by simp only [outcome_bind, hop]⟩

/-- The node of a type that is not cascaded. -/
theorem build_of_isCascaded_eq_false {t : AnnotatedType} (h : t.isCascaded = false) :
    a.build location t =
      if a.config.maxTypeDepth < location.depth then
        throw (.depthExceeded location.render a.config.maxTypeDepth)
      else do
        let placed ← t.declarations.foldlM (a.place ⟨location, t.type⟩) .empty
        let nested ← a.buildNested location t.type
        return ⟨location, t.type, placed.own, none,
          placed.groups.map (extractedChild location) ++ nested⟩ := by
  rw [build_eq, cascadeAt, h]
  rfl

/-- What is built of parts is nothing, if the nodes of all parts are empty. -/
theorem steady_buildParts {parts : List (Wrapper × AnnotatedType)}
    (h : ∀ p ∈ parts, Steady (a.buildPart location p)
      ⟨location.child p.1.step, p.2.type, [], none, []⟩) :
    Steady (a.buildParts location parts) [] := by
  induction parts with
  | nil => exact steady_pure []
  | cons p parts ih =>
    obtain ⟨hp, hrest⟩ := List.forall_mem_cons.1 h
    rw [buildParts_cons]
    exact steady_bind hp (steady_bind (ih hrest) (steady_pure _))

/-- **What is built of a type without annotations is nothing**, unless it is nested too deep. -/
theorem steady_build : ∀ (t : AnnotatedType) (location : Location), t.IsBare →
    Steady (a.build location t) ⟨location, t.type, [], none, []⟩ := by
  intro t
  induction t using AnnotatedType.induction with
  | h t ih =>
    intro location h
    obtain ⟨type, annotations⟩ := t
    obtain ⟨rfl, hbare⟩ := AnnotatedType.isBare_iff.1 h
    rw [build_of_isCascaded_eq_false rfl]
    split_ifs
    · exact .inr ⟨_, fun _ => rfl⟩
    · refine steady_bind (steady_pure Placement.empty) (steady_bind ?_ (steady_pure _))
      rw [buildNested_eq]
      exact steady_buildParts fun p hp => ih p hp _ (hbare p hp)

theorem steady_buildNested (type : DeclaredType) (location : Location) (h : type.IsBare) :
    Steady (a.buildNested location type) [] := by
  rw [buildNested_eq]
  exact steady_buildParts fun p hp => steady_build p.2 _ (DeclaredType.isBare_iff.1 h p hp)

/-- A type may stand at a location: neither it nor a type nested in it is nested too deep. -/
def Admits (a : Analyser) (location : Location) (type : DeclaredType) : Prop :=
  location.depth ≤ a.config.maxTypeDepth ∧
    ∀ cache, outcome (a.buildNested location type) cache = (.ok [], cache)

theorem Steady.gives_iff {op : Interning α} {x y : α} (h : Steady op x) :
    Gives op cache y cache' ↔ (∀ cache, outcome op cache = (.ok x, cache)) ∧ y = x ∧ cache' = cache := by
  constructor
  · intro hgives
    rcases h with hok | ⟨error, herror⟩
    · rw [Gives, hok] at hgives
      cases hgives
      exact ⟨hok, rfl, rfl⟩
    · rw [Gives, herror] at hgives
      cases hgives
  · rintro ⟨hok, rfl, rfl⟩
    exact hok _

/-- The node of a type without declarations. -/
theorem gives_build_undeclared {t : AnnotatedType} (hcascaded : t.isCascaded = false)
    (hdeclarations : t.declarations = []) :
    Gives (a.build location t) cache n cache' ↔ location.depth ≤ a.config.maxTypeDepth ∧
      ∃ nested, Gives (a.buildNested location t.type) cache nested cache' ∧
        n = ⟨location, t.type, [], none, nested⟩ := by
  rw [build_of_isCascaded_eq_false hcascaded, hdeclarations]
  split_ifs with hdepth
  · simp [Nat.not_le_of_lt hdepth]
  · rw [List.foldlM_nil, pure_bind]
    simp only [gives_bind, gives_pure]
    constructor
    · rintro ⟨nested, cache₁, hnested, rfl, rfl⟩
      exact ⟨Nat.le_of_not_lt hdepth, nested, hnested, rfl⟩
    · rintro ⟨-, nested, hnested, rfl⟩
      exact ⟨nested, cache', hnested, rfl, rfl⟩

theorem gives_build_plain (hbare : type.IsBare) :
    Gives (a.build location (.plain type)) cache n cache' ↔
      a.Admits location type ∧ n = ⟨location, type, [], none, []⟩ ∧ cache' = cache := by
  rw [gives_build_undeclared rfl rfl, Admits]
  simp only [AnnotatedType.plain, (steady_buildNested type location hbare).gives_iff]
  constructor
  · rintro ⟨hdepth, nested, ⟨hok, rfl, rfl⟩, rfl⟩
    exact ⟨⟨hdepth, hok⟩, rfl, rfl⟩
  · rintro ⟨⟨hdepth, hok⟩, rfl, rfl⟩
    exact ⟨hdepth, [], ⟨hok, rfl, rfl⟩, rfl⟩

/-- The node of a type with a single declaration, as far as it is known where its constraint goes. -/
theorem gives_build_single {t : AnnotatedType} (hcascaded : t.isCascaded = false)
    (hdeclarations : t.declarations = [d]) {placement : Constraint → Placement}
    (hplace : ∀ placed cache', Gives (a.place ⟨location, t.type⟩ .empty d) cache placed cache' ↔
      ∃ c, Gives (a.constraint d) cache c cache' ∧ placed = placement c) :
    Gives (a.build location t) cache n cache' ↔ location.depth ≤ a.config.maxTypeDepth ∧
      ∃ c cache₁ nested, Gives (a.constraint d) cache c cache₁ ∧
        Gives (a.buildNested location t.type) cache₁ nested cache' ∧
        n = ⟨location, t.type, (placement c).own, none,
          (placement c).groups.map (extractedChild location) ++ nested⟩ := by
  rw [build_of_isCascaded_eq_false hcascaded, hdeclarations]
  split_ifs with hdepth
  · simp [Nat.not_le_of_lt hdepth]
  · rw [List.foldlM_cons]
    simp only [List.foldlM_nil, bind_pure, gives_bind, hplace, gives_pure]
    constructor
    · rintro ⟨_, cache₁, ⟨c, hc, rfl⟩, nested, cache₂, hnested, rfl, rfl⟩
      exact ⟨Nat.le_of_not_lt hdepth, c, cache₁, nested, hc, hnested, rfl⟩
    · rintro ⟨-, c, cache₁, nested, hc, hnested, rfl⟩
      exact ⟨_, cache₁, ⟨c, hc, rfl⟩, nested, cache', hnested, rfl, rfl⟩

/-- A constraint that applies where it is declared stays there. -/
theorem gives_place_own {p : Position} {placed : Placement}
    (h : ∀ c cache', Gives (a.constraint d) cache c cache' → c.kind.applies p.type = true) :
    Gives (a.place p .empty d) cache placed cache' ↔
      ∃ c, Gives (a.constraint d) cache c cache' ∧ placed = ⟨[c], []⟩ := by
  rw [place_gives]
  refine exists_congr fun c => and_congr_right fun hc => ?_
  rw [settles_own_iff (h c cache' hc)]
  rfl

/-- A constraint that an extractor leads to goes to the extractor. -/
theorem gives_place_extracted {p : Position} {placed : Placement} {index : Nat} {x : Extractor}
    (h : ∀ c cache', Gives (a.constraint d) cache c cache' → c.kind.applies p.type = false ∧
      a.extractorFor? c.kind p.type = some (index, x, type)) :
    Gives (a.place p .empty d) cache placed cache' ↔
      ∃ c, Gives (a.constraint d) cache c cache' ∧ placed = ⟨[], [⟨index, x, type, [c]⟩]⟩ := by
  rw [place_gives]
  refine exists_congr fun c => and_congr_right fun hc => ?_
  obtain ⟨happlies, hfound⟩ := h c cache' hc
  rw [settles_sent_iff happlies hfound]
  rfl

/-- **The declaration is meant for the content**: whatever it is interned as, its kind applies to the
type, and not to optionals of it. -/
def MeantForContent (a : Analyser) (cache : ConstraintCache) (d : Declaration) (type : DeclaredType) :
    Prop :=
  ∀ c cache', Gives (a.constraint d) cache c cache' →
    c.kind.applies type = true ∧ c.kind.applies (.optional (.plain type)) = false

/-- Where kinds are told apart by their names, the kind that the declaration names decides. -/
theorem meantForContent_of_distinct {S : Kind → Prop} (hS : Kind.Distinct S)
    (hkinds : ∀ k ∈ a.catalog.kinds, k.Every S) (hcache : cache.All fun c => S c.kind) {k : Kind}
    (hk : a.catalog.resolve d.kind = .ok k) (happlies : k.applies type = true)
    (hoptional : k.applies (.optional (.plain type)) = false) : a.MeantForContent cache d type := by
  intro c cache' hc
  have hassembles : Assembles (fun c => S c.kind) S := fun _ _ _ hkind _ => hkind
  obtain ⟨-, kind, hkind, hc, attributes, -, hkey⟩ :=
    (keeps_constraint hassembles hkinds d).of_gives hcache hc
  obtain rfl : kind = k := Except.ok.inj (hkind.symm.trans hk)
  have hself := (hkinds kind (Catalog.mem_of_resolve hk)).self
  have hsame : c.kind = kind := hS hc hself (congrArg ConstraintKey.kind hkey)
  rw [hsame]
  exact ⟨happlies, hoptional⟩

theorem extractorFor?_optional (hextractors : a.extractors = Extractor.defaults) {kind : Kind}
    (happlies : kind.applies type = true) :
    a.extractorFor? kind (.optional (.plain type)) = some (1, .optional, type) := by
  rw [extractorFor?, hextractors]
  simp [Extractor.defaults, Extractor.optionalScalar, Extractor.optional, AnnotatedType.plain,
    happlies]

/-- What is built of a declaration on an optional. -/
theorem gives_onOptional (hextractors : a.extractors = Extractor.defaults) (hbare : type.IsBare)
    (hd : a.MeantForContent cache d type) :
    Gives (a.buildType (onOptional d type)) cache n cache' ↔
      a.Admits (contentLocation type) type ∧ ∃ c, Gives (a.constraint d) cache c cache' ∧
        n = optionalNode (.plain type) (.extracted .optional) (contentNode type c) := by
  let p : Position := ⟨.ofRoot (onOptional d type).type.render, (onOptional d type).type⟩
  have hplace : ∀ placed cache', Gives (a.place p .empty d) cache placed cache' ↔
      ∃ c, Gives (a.constraint d) cache c cache' ∧ placed = ⟨[], [⟨1, .optional, type, [c]⟩]⟩ :=
    fun _ _ => gives_place_extracted fun c cache₁ hc =>
      ⟨(hd c cache₁ hc).2, extractorFor?_optional hextractors (hd c cache₁ hc).1⟩
  rw [buildType, gives_build_single rfl rfl hplace]
  have hnested : a.buildNested (.ofRoot (onOptional d type).type.render) (onOptional d type).type =
      keep .optionalValue <$> a.build (contentLocation type) (.plain type) := by
    rw [onOptional, buildNested]
    rfl
  simp only [hnested, gives_map, gives_build_plain hbare]
  constructor
  · rintro ⟨-, c, cache₁, _, hc, ⟨_, ⟨hadmits, rfl, rfl⟩, rfl⟩, rfl⟩
    exact ⟨hadmits, c, hc, rfl⟩
  · rintro ⟨hadmits, c, hc, rfl⟩
    exact ⟨Nat.zero_le _, c, cache', _, hc, ⟨_, ⟨hadmits, rfl, rfl⟩, rfl⟩, rfl⟩

/-- What is built of the declaration on the content. -/
theorem gives_onContent (hbare : type.IsBare) (hd : a.MeantForContent cache d type) :
    Gives (a.buildType (onContent d type)) cache n cache' ↔
      a.Admits (contentLocation type) type ∧ ∃ c, Gives (a.constraint d) cache c cache' ∧
        n = optionalNode ⟨type, [.constraint d]⟩ .optionalValue (contentNode type c) := by
  -- the kind applies to the content, so the constraint stays there
  have hplace : ∀ placed cache', Gives (a.place ⟨contentLocation type, type⟩ .empty d) cache placed
      cache' ↔ ∃ c, Gives (a.constraint d) cache c cache' ∧ placed = ⟨[c], []⟩ :=
    fun _ _ => gives_place_own fun c cache₁ hc => (hd c cache₁ hc).1
  -- nothing is declared inside the content, so its node is the constraint alone
  have hinner : ∀ content, Gives (a.build (contentLocation type) ⟨type, [.constraint d]⟩) cache content
      cache' ↔ a.Admits (contentLocation type) type ∧
        ∃ c, Gives (a.constraint d) cache c cache' ∧ content = contentNode type c := by
    intro content
    rw [gives_build_single rfl rfl hplace]
    constructor
    · rintro ⟨hdepth, c, cache₁, nested, hc, hnested, rfl⟩
      obtain ⟨hok, rfl, rfl⟩ := (steady_buildNested type _ hbare).gives_iff.1 hnested
      exact ⟨⟨hdepth, hok⟩, c, hc, rfl⟩
    · rintro ⟨⟨hdepth, hok⟩, c, hc, rfl⟩
      exact ⟨hdepth, c, cache', [], hc, hok cache', rfl⟩
  have hnested : a.buildNested (.ofRoot (onContent d type).type.render) (onContent d type).type =
      keep .optionalValue <$> a.build (contentLocation type) ⟨type, [.constraint d]⟩ := by
    rw [onContent, AnnotatedType.plain, buildNested]
    rfl
  rw [buildType, gives_build_undeclared rfl rfl]
  simp only [hnested, gives_map, hinner]
  constructor
  · rintro ⟨-, _, ⟨_, ⟨hadmits, c, hc, rfl⟩, rfl⟩, rfl⟩
    exact ⟨hadmits, c, hc, rfl⟩
  · rintro ⟨hadmits, c, hc, rfl⟩
    exact ⟨Nat.zero_le _, _, ⟨_, ⟨hadmits, c, hc, rfl⟩, rfl⟩, rfl⟩

end Analyser

/-! ### Compiling -/

/-- Absence is the same on both ways: an optional that holds nothing, and null. -/
theorem Wrapper.checkExtracted_optional (inner : Criterion.On Value) (v : Value) :
    checkExtracted .optional .reference inner v = checkOptional inner v := by
  cases v with
  | optional content => cases content <;> rfl
  | _ => rfl

section Compile

variable {link : Linker} {w : Wrapper} {content : Node} {t : AnnotatedType} {v : Value}

/-- **The criterion of an optional** is the wrapped one of its content. -/
theorem compile_optionalNode {c : Criterion.On Value} :
    compile link (optionalNode t w content) = .ok c ↔
      ∃ s wrapped, content.finished link = .ok s ∧ w.wrap s = .ok wrapped ∧
        c = (Criterion.all [wrapped]).simplify := by
  -- without a constraint or cascade of its own, the node collects its one child
  have hdeferred : ((optionalNode t w content).contributions link).map (·.2) ++
      (optionalNode t w content).linked link = [(Node.part link ⟨w, content⟩).2] := by
    have hparts : Node.parts link (optionalNode t w content).children =
        [Node.part link ⟨w, content⟩] := by
      rw [Node.parts_eq]
      rfl
    rw [Node.contributions, hparts]
    simp [Order.sort, Node.own, optionalNode, Node.linked]
  rw [compile_eq_ok_iff]
  constructor
  · rintro ⟨_, hfinished, rfl⟩
    obtain ⟨ms, hms, rfl⟩ := Node.finished_eq_ok_iff.1 hfinished
    rw [hdeferred] at hms
    obtain ⟨m, _, hm, hnil, rfl⟩ := List.forall₂_cons_left_iff.1 hms
    obtain rfl := List.forall₂_nil_left_iff.1 hnil
    obtain ⟨s, hs, wrapped, hwrapped, heq⟩ := Node.part_eq_ok.1 hm
    cases heq
    exact ⟨s, m, hs, hwrapped, rfl⟩
  · rintro ⟨s, wrapped, hs, hwrapped, rfl⟩
    refine ⟨_, Node.finished_eq_ok_iff.2 ⟨[wrapped], ?_, rfl⟩, rfl⟩
    rw [hdeferred]
    exact .cons (Node.part_eq_ok.2 ⟨s, hs, wrapped, hwrapped, rfl⟩) .nil

/-- Its trial is the check of the content. -/
theorem validate_of_wrap {s : ShapedCriterion} {wrapped : Criterion.On Value}
    (h : w.wrap s = .ok wrapped) (v : Value) :
    (Criterion.all [wrapped]).simplify.validate v =
      if s.isTruth then .pass else w.check s.shape s.lift v := by
  obtain ⟨-, rfl⟩ := Wrapper.wrap_eq_ok.1 h
  rw [Criterion.validate_simplify, Criterion.validate, Criterion.validateAll, Criterion.validateAll,
    Trial.andThen_pass]
  split_ifs <;> rfl

/-- **Both ways to the content compile alike**: both or neither, and to criteria of the same trials. -/
theorem compile_alike (link : Linker) (t t' : AnnotatedType) {content : Node}
    (hshape : content.type.shape = .reference) :
    ((∃ c, compile link (optionalNode t (.extracted .optional) content) = .ok c) ↔
      ∃ c, compile link (optionalNode t' .optionalValue content) = .ok c) ∧
    ∀ c c', compile link (optionalNode t (.extracted .optional) content) = .ok c →
      compile link (optionalNode t' .optionalValue content) = .ok c' →
      ∀ v, c.validate v = c'.validate v := by
  have hsupports : ∀ {s : ShapedCriterion}, content.finished link = .ok s → s.shape = .reference :=
    fun hs => (Node.shape_of_finished hs).trans hshape
  simp only [compile_optionalNode]
  refine ⟨⟨?_, ?_⟩, ?_⟩
  · rintro ⟨_, s, _, hs, -, rfl⟩
    refine ⟨_, s, _, hs, Wrapper.wrap_eq_ok.2 ⟨?_, rfl⟩, rfl⟩
    rw [hsupports hs]
    rfl
  · rintro ⟨_, s, _, hs, -, rfl⟩
    exact ⟨_, s, _, hs, Wrapper.wrap_eq_ok.2 ⟨rfl, rfl⟩, rfl⟩
  · rintro _ _ ⟨s, wrapped, hs, hwrapped, rfl⟩ ⟨s', wrapped', hs', hwrapped', rfl⟩ v
    obtain rfl : s = s' := Except.ok.inj (hs.symm.trans hs')
    rw [validate_of_wrap hwrapped, validate_of_wrap hwrapped', hsupports hs, Wrapper.check,
      Wrapper.check, Wrapper.checkExtracted_optional]

end Compile

/-! ### Requests -/

namespace Engine

variable {e e' : Engine} {root : Root} {t : Node} {w : Validator}

/-- A tree is what building gives, be it published or not. -/
theorem exists_tree_iff (hrebuilt : Rebuilt e) :
    (∃ e', Gives (tree root) e t e') ↔ ∃ e', Gives (buildTree root) e t e' := by
  cases hlookup : e.trees.lookup root with
  | some t' =>
    -- the tree is published, and building it once more gives the same
    have htree := tree_of_lookup hlookup
    have hbuild := hrebuilt root t' hlookup
    constructor
    · rintro ⟨e', h⟩
      obtain ⟨rfl, -⟩ := gives_unique h htree
      exact ⟨e, hbuild⟩
    · rintro ⟨e', h⟩
      obtain ⟨rfl, -⟩ := gives_unique h hbuild
      exact ⟨e, htree⟩
  | none =>
    -- the tree is built now and published
    have htree : ∀ e', Gives (tree root) e t e' ↔ ∃ t' e₁, Gives (buildTree root) e t' e₁ ∧
        t = t' ∧ e' = { e₁ with trees := insertAbsent root t' e₁.trees } := by
      intro e'
      rw [tree]
      refine gives_get.trans ?_
      rw [hlookup]
      constructor
      · intro h
        obtain ⟨t', e₁, hbuild, h⟩ := gives_bind.1 h
        obtain ⟨⟨⟩, _, hmodify, h⟩ := gives_bind.1 h
        cases hmodify
        obtain ⟨rfl, rfl⟩ := gives_pure.1 h
        exact ⟨t, e₁, hbuild, rfl, rfl⟩
      · rintro ⟨_, e₁, hbuild, rfl, rfl⟩
        refine gives_bind.2 ⟨t, e₁, hbuild, gives_bind.2 ⟨(), _, gives_modify, gives_pure.2 ⟨rfl, rfl⟩⟩⟩
    constructor
    · rintro ⟨e', h⟩
      obtain ⟨_, e₁, hbuild, rfl, -⟩ := (htree e').1 h
      exact ⟨e₁, hbuild⟩
    · rintro ⟨e₁, hbuild⟩
      exact ⟨_, (htree _).2 ⟨t, e₁, hbuild, rfl, rfl⟩⟩

/-- Where nothing is cascaded into there is nothing to search. -/
theorem search_of_cascades_eq_nil (fuel : Nat) (visited : List String) (h : t.cascades = []) :
    search fuel visited t = pure visited := by
  have hanalyse : analyse fuel visited t = pure visited := by
    cases fuel with
    | zero => rfl
    | succ fuel =>
      rw [analyse_succ, h]
      rfl
  rw [search, hanalyse, h]
  simp only [List.foldlM_nil, ite_self]
  rfl

/-- What a request for a validator does where nothing is cascaded into: the tree is asked for, compiled
and its criterion recorded. -/
theorem gives_validator_iff (hnone : e.compiled.lookup root = none)
    (hplain : ∀ t e₁, Gives (tree root) e t e₁ → t.cascades = []) :
    Gives (validator root) e w e' ↔ ∃ t e₁ c, Gives (tree root) e t e₁ ∧
      compile linked t = .ok c ∧ w = ⟨root, c⟩ ∧
      e' = { e₁ with compiled := insertAbsent root c e₁.compiled } := by
  -- without cascades the search is over as soon as the tree is there
  have hcompile : ∀ {r e'}, Gives (compileRoot (e.classes.length + 1) [] root) e r e' ↔
      ∃ t e₁, Gives (tree root) e t e₁ ∧ Gives (record root t root.className?.toList) e₁ r e' := by
    intro r e'
    rw [compileRoot_succ]
    refine gives_get.trans ?_
    rw [hnone, gives_bind]
    refine exists₂_congr fun t e₁ => and_congr_right fun htree => ?_
    rw [search_of_cascades_eq_nil _ _ (hplain t e₁ htree), pure_bind, List.append_nil]
  rw [validator]
  refine gives_get.trans ?_
  rw [gives_bind]
  constructor
  · rintro ⟨r, e₂, h, hreturn⟩
    obtain ⟨rfl, rfl⟩ := gives_pure.1 hreturn
    obtain ⟨t, e₁, htree, hrecord⟩ := hcompile.1 h
    obtain ⟨c, hc, rfl, rfl⟩ := record_gives.1 hrecord
    exact ⟨t, e₁, c, htree, hc, rfl, rfl⟩
  · rintro ⟨t, e₁, c, htree, hc, rfl, rfl⟩
    refine ⟨(c, root.className?.toList), _, ?_, gives_pure.2 ⟨rfl, rfl⟩⟩
    exact hcompile.2 ⟨t, e₁, htree, record_gives.2 ⟨c, hc, rfl, rfl⟩⟩

/-- **The validator of a root without cascades** is its tree, built and compiled. -/
theorem exists_validator_iff (he : OrderlyAny e) (hrebuilt : Rebuilt e)
    (hplain : ∀ t e', Gives (buildTree root) e t e' → t.cascades = []) :
    (∃ e', Gives (validator root) e w e') ↔
      ∃ t e' c, Gives (buildTree root) e t e' ∧ compile linked t = .ok c ∧ w = ⟨root, c⟩ := by
  cases hlookup : e.compiled.lookup root with
  | some c =>
    -- the criterion is recorded, and it is that of the published tree
    have hvalidator := validator_of_compiled hlookup
    obtain ⟨t, ht, hc⟩ := he.compiled root c hlookup
    have hbuild := hrebuilt root t ht
    constructor
    · rintro ⟨e', h⟩
      obtain ⟨rfl, -⟩ := gives_unique h hvalidator
      exact ⟨t, e, c, hbuild, hc, rfl⟩
    · rintro ⟨t', e', c', hbuild', hc', rfl⟩
      obtain ⟨rfl, -⟩ := gives_unique hbuild' hbuild
      obtain rfl := Except.ok.inj (hc'.symm.trans hc)
      exact ⟨e, hvalidator⟩
  | none =>
    have htrees : ∀ t e₁, Gives (tree root) e t e₁ → t.cascades = [] := by
      intro t e₁ htree
      obtain ⟨e₂, hbuild⟩ := (exists_tree_iff hrebuilt).1 ⟨e₁, htree⟩
      exact hplain t e₂ hbuild
    constructor
    · rintro ⟨e', h⟩
      obtain ⟨t, e₁, c, htree, hc, rfl, -⟩ := (gives_validator_iff hlookup htrees).1 h
      obtain ⟨e₂, hbuild⟩ := (exists_tree_iff hrebuilt).1 ⟨e₁, htree⟩
      exact ⟨t, e₂, c, hbuild, hc, rfl⟩
    · rintro ⟨t, e₂, c, hbuild, hc, rfl⟩
      obtain ⟨e₁, htree⟩ := (exists_tree_iff hrebuilt).2 ⟨e₂, hbuild⟩
      exact ⟨_, (gives_validator_iff hlookup htrees).2 ⟨t, e₁, c, htree, hc, rfl, rfl⟩⟩

theorem exists_validator_of_trees (he : OrderlyAny e) (hrebuilt : Rebuilt e)
    {known : Constraint → Prop} {treeOf : Constraint → Node}
    (hbuild : ∀ t, (∃ e', Gives (buildTree root) e t e') ↔ ∃ c, known c ∧ t = treeOf c)
    (hplain : ∀ c, (treeOf c).cascades = []) :
    (∃ e', Gives (validator root) e w e') ↔
      ∃ c criterion, known c ∧ compile linked (treeOf c) = .ok criterion ∧ w = ⟨root, criterion⟩ := by
  rw [exists_validator_iff he hrebuilt fun t e' h => by
    obtain ⟨c, -, rfl⟩ := (hbuild t).1 ⟨e', h⟩
    exact hplain c]
  constructor
  · rintro ⟨t, e', criterion, ht, hcriterion, rfl⟩
    obtain ⟨c, hc, rfl⟩ := (hbuild t).1 ⟨e', ht⟩
    exact ⟨c, criterion, hc, hcriterion, rfl⟩
  · rintro ⟨c, criterion, hc, hcriterion, rfl⟩
    obtain ⟨e', ht⟩ := (hbuild _).2 ⟨c, hc, rfl⟩
    exact ⟨_, e', criterion, ht, hcriterion, rfl⟩

variable {type : DeclaredType} {d : Declaration}

theorem gives_buildTree_ofType {t : AnnotatedType} {n : Node} :
    Gives (buildTree (.ofType t)) e n e' ↔
      ∃ cache, Gives (e.analyser.buildType t) e.constraints n cache ∧
        e' = { e with constraints := cache } := gives_get.trans gives_interning

/-- The constraint that the declaration comes to, if the content is not nested too deep. -/
def ContentConstraint (e : Engine) (d : Declaration) (type : DeclaredType) (c : Constraint) : Prop :=
  e.analyser.Admits (contentLocation type) type ∧
    ∃ cache, Gives (e.analyser.constraint d) e.constraints c cache

theorem cascades_optionalNode (t : AnnotatedType) (w : Wrapper) (type : DeclaredType)
    (c : Constraint) : (optionalNode t w (contentNode type c)).cascades = [] := rfl

section Alike

variable (hextractors : e.extractors = Extractor.defaults) (hbare : type.IsBare)
  (hd : e.analyser.MeantForContent e.constraints d type)

include hextractors hbare hd

theorem exists_onOptional {n : Node} :
    (∃ e', Gives (buildTree (.ofType (onOptional d type))) e n e') ↔
      ∃ c, e.ContentConstraint d type c ∧
        n = optionalNode (.plain type) (.extracted .optional) (contentNode type c) := by
  simp only [gives_buildTree_ofType, Analyser.gives_onOptional hextractors hbare hd]
  constructor
  · rintro ⟨_, cache, ⟨hadmits, c, hc, rfl⟩, rfl⟩
    exact ⟨c, ⟨hadmits, cache, hc⟩, rfl⟩
  · rintro ⟨c, ⟨hadmits, cache, hc⟩, rfl⟩
    exact ⟨_, cache, ⟨hadmits, c, hc, rfl⟩, rfl⟩

omit hextractors in
theorem exists_onContent {n : Node} :
    (∃ e', Gives (buildTree (.ofType (onContent d type))) e n e') ↔
      ∃ c, e.ContentConstraint d type c ∧
        n = optionalNode ⟨type, [.constraint d]⟩ .optionalValue (contentNode type c) := by
  simp only [gives_buildTree_ofType, Analyser.gives_onContent hbare hd]
  constructor
  · rintro ⟨_, cache, ⟨hadmits, c, hc, rfl⟩, rfl⟩
    exact ⟨c, ⟨hadmits, cache, hc⟩, rfl⟩
  · rintro ⟨c, ⟨hadmits, cache, hc⟩, rfl⟩
    exact ⟨_, cache, ⟨hadmits, c, hc, rfl⟩, rfl⟩

/-- **Both ways have trees, or neither.** -/
theorem trees_alike (hrebuilt : Rebuilt e) :
    (∃ t e', Gives (tree (.ofType (onOptional d type))) e t e') ↔
      ∃ t e', Gives (tree (.ofType (onContent d type))) e t e' := by
  simp only [exists_tree_iff hrebuilt, exists_onOptional hextractors hbare hd,
    exists_onContent hbare hd]
  constructor
  · rintro ⟨_, c, hc, rfl⟩
    exact ⟨_, c, hc, rfl⟩
  · rintro ⟨_, c, hc, rfl⟩
    exact ⟨_, c, hc, rfl⟩

/-- **Both ways have validators, or neither**, and validators of the same trials. -/
theorem validators_alike (hreference : type.isReference = true) (he : OrderlyAny e)
    (hrebuilt : Rebuilt e) :
    ((∃ w e', Gives (validator (.ofType (onOptional d type))) e w e') ↔
      ∃ w e', Gives (validator (.ofType (onContent d type))) e w e') ∧
    ∀ w w' e₁ e₂, Gives (validator (.ofType (onOptional d type))) e w e₁ →
      Gives (validator (.ofType (onContent d type))) e w' e₂ →
      ∀ v, w.criterion.validate v = w'.criterion.validate v := by
  have hoptional := fun w => exists_validator_of_trees (w := w) he hrebuilt
    (fun n => exists_onOptional hextractors hbare hd (n := n))
    fun c => cascades_optionalNode _ _ type c
  have hcontent := fun w => exists_validator_of_trees (w := w) he hrebuilt
    (fun n => exists_onContent hbare hd (n := n))
    fun c => cascades_optionalNode _ _ type c
  have hshape : ∀ c, (contentNode type c).type.shape = .reference :=
    fun _ => Builtin.shape_of_isReference hreference
  have halike := fun c => compile_alike linked (.plain type) ⟨type, [.constraint d]⟩ (hshape c)
  refine ⟨?_, fun w w' e₁ e₂ hw hw' v => ?_⟩
  · simp only [hoptional, hcontent]
    constructor
    · rintro ⟨_, c, criterion, hc, hcriterion, rfl⟩
      obtain ⟨criterion', hcriterion'⟩ := (halike c).1.1 ⟨criterion, hcriterion⟩
      exact ⟨_, c, criterion', hc, hcriterion', rfl⟩
    · rintro ⟨_, c, criterion, hc, hcriterion, rfl⟩
      obtain ⟨criterion', hcriterion'⟩ := (halike c).1.2 ⟨criterion, hcriterion⟩
      exact ⟨_, c, criterion', hc, hcriterion', rfl⟩
  -- the declaration is the same in both, and so is its constraint
  · obtain ⟨c, criterion, ⟨-, cache, hc⟩, hcriterion, rfl⟩ := (hoptional w).1 ⟨e₁, hw⟩
    obtain ⟨c', criterion', ⟨-, cache', hc'⟩, hcriterion', rfl⟩ := (hcontent w').1 ⟨e₂, hw'⟩
    obtain ⟨rfl, -⟩ := gives_unique hc hc'
    exact (halike c).2 criterion criterion' hcriterion hcriterion' v

end Alike

end Engine

open Engine Session in
/-- **A constraint on an optional and on its content mean the same.** In an engine with the default
extractors, after any history, let a declaration be meant for what optionals of a type hold, of a
reference type with no annotations inside: its kind applies to the type and not to the optional. Then the
optional with the declaration has a tree or a validator exactly if the optional of the type with the
declaration has one, and both validators make the same trial of every value. Where the kinds of an engine,
and those that they expand into, are told apart by their names, the kind that the declaration names
decides what it is meant for. -/
theorem optional_and_content_agree {config : Config} {catalog : Catalog} {kinds : List Kind}
    {classes : List ClassSchema} {e : Engine}
    (hbuild : Engine.build config catalog kinds [] classes = .ok e) (history : List Action)
    (type : DeclaredType) (hreference : type.isReference = true) (hbare : type.IsBare)
    (d : Declaration) :
    let now := ((start e).after history).engine
    let optional : Root := .ofType (onOptional d type)
    let content : Root := .ofType (onContent d type)
    (now.analyser.MeantForContent now.constraints d type →
      ((∃ t e', Gives (tree optional) now t e') ↔ ∃ t e', Gives (tree content) now t e') ∧
      ((∃ w e', Gives (validator optional) now w e') ↔ ∃ w e', Gives (validator content) now w e') ∧
      ∀ w w' e₁ e₂, Gives (validator optional) now w e₁ → Gives (validator content) now w' e₂ →
        ∀ v, w.criterion.validate v = w'.criterion.validate v) ∧
    ∀ (S : Kind → Prop) (k : Kind), Kind.Distinct S → (∀ k ∈ e.catalog.kinds, k.Every S) →
      e.catalog.resolve d.kind = .ok k → k.applies type = true →
      k.applies (.optional (.plain type)) = false →
      now.analyser.MeantForContent now.constraints d type := by
  have hany := orderlyAny_build hbuild
  have hgrows := ((OrderlyBy.start hany).after any_assemble history).2.grows
  have horderly := ((OrderlyBy.start hany).after any_assemble history).1.engine
  have hkinds : ∀ {S : Kind → Prop}, (∀ k ∈ e.catalog.kinds, k.Every S) →
      ((start e).after history).engine.Orderly (fun c => S c.kind) S := fun hS =>
    ((OrderlyBy.start (orderly_build hbuild hS).1).after (fun _ _ _ hkind _ => hkind) history).1.engine
  have hnew : e.extractors = Extractor.defaults ∧ Rebuilt e := by
    obtain ⟨catalog', classes', -, rfl⟩ := build_eq_ok hbuild
    exact ⟨List.append_nil _, nofun⟩
  have hextractors := hgrows.extractors.trans hnew.1
  have hrebuilt := rebuilt_after (s := start e) hnew.2 history
  refine ⟨fun hd => ?_, fun S k hS hevery hk happlies hoptional => ?_⟩
  · exact ⟨trees_alike hextractors hbare hd hrebuilt,
      validators_alike hextractors hbare hd hreference horderly hrebuilt⟩
  · have hresolve := (congrArg (Catalog.resolve · d.kind) hgrows.catalog).trans hk
    exact Analyser.meantForContent_of_distinct hS (hkinds hevery).kinds (hkinds hevery).constraints
      hresolve happlies hoptional

namespace Names

/-- Texts with letters in them. -/
def filled : Declaration := ⟨"not_empty", .empty⟩

/-- A new engine with the standard kinds. -/
def engine : Engine := ⟨{}, .builtin, Extractor.defaults, [], .empty, [], [], []⟩

end Names

open Engine Names in
/-- An optional text is checked alike, be it the optional or its text that must not be empty. -/
theorem optional_texts_are_filled :
    ∃ w w' e₁ e₂, Gives (validator (.ofType (onOptional filled .text))) engine w e₁ ∧
      Gives (validator (.ofType (onContent filled .text))) engine w' e₂ ∧
      (∀ v, w.criterion.validate v = w'.criterion.validate v) ∧
      ((w.criterion.validate (.optional none)).verdict detached).isOk = false ∧
      ((w.criterion.validate (.optional (some (.text "name")))).verdict detached).isOk = true := by
  have hbuild : Engine.build {} .builtin [] [] [] = .ok engine := rfl
  obtain ⟨halike, hmeant⟩ := optional_and_content_agree hbuild [] .text rfl trivial filled
  have hd := hmeant Catalog.IsStandard Builtin.notEmpty
    (fun _ _ hk hk' hname => Catalog.standard_unique hk hk' hname) Catalog.standard_builtin rfl rfl rfl
  obtain ⟨-, hboth, hsame⟩ := halike hd
  have hverdicts : ((outcome (validator (.ofType (onOptional filled .text))) engine).1.map fun w =>
      (((w.criterion.validate (.optional none)).verdict detached).isOk,
        ((w.criterion.validate (.optional (some (.text "name")))).verdict detached).isOk)) =
      .ok (false, true) := by cbv
  rcases hw : outcome (validator (.ofType (onOptional filled .text))) engine with ⟨error | w, e₁⟩
  · rw [hw] at hverdicts
    cases hverdicts
  · obtain ⟨w', e₂, hw'⟩ := hboth.1 ⟨w, e₁, hw⟩
    rw [hw] at hverdicts
    obtain ⟨hempty, hname⟩ := Prod.mk.inj (Except.ok.inj hverdicts)
    exact ⟨w, w', e₁, e₂, hw, hw', hsame w w' e₁ e₂ hw hw', hempty, hname⟩

namespace Namesakes

/-- A kind of the name for one type. -/
def word (type : DeclaredType) (parts : List (Part Kind)) : Kind :=
  ⟨"word", none, none, [], [⟨fun t => t == type, fun _ _ => .ok (.truth .reference)⟩], parts⟩

/-- The kind for optionals of texts. -/
def inner : Kind := word (.optional (.plain .text)) []

/-- The kind for texts, which expands into the other one. -/
def outer : Kind := word .text [.ofTarget inner]

/-- A declaration of the name. -/
def declared : Declaration := ⟨"word", .empty⟩

/-- A new engine in whose catalog the name is that of the kind for texts. -/
def engine : Engine := ⟨{}, ⟨[outer]⟩, Extractor.defaults, [], .empty, [], [], []⟩

end Namesakes

open Engine Namesakes in
/-- **A kind that expands into a namesake is not what its declarations are interned as.** The part is
interned first and takes the name, so the constraint is one of the kind for optionals: it has a
validator if it is declared on the optional and not even a tree if it is declared on the text, although
the catalog's kind of the name applies to the text and not to the optional. -/
theorem namesake_part_is_declared :
    Engine.build {} ⟨[]⟩ [outer] [] [] = .ok engine ∧
      (inner.define = .ok inner ∧ outer.define = .ok outer) ∧
      (DeclaredType.text.isReference = true ∧ DeclaredType.text.IsBare) ∧
      engine.catalog.resolve declared.kind = .ok outer ∧
      outer.applies .text = true ∧ outer.applies (.optional (.plain .text)) = false ∧
      (∃ w e', Gives (validator (.ofType (onOptional declared .text))) engine w e') ∧
      ¬ ∃ t e', Gives (tree (.ofType (onContent declared .text))) engine t e' := by
  refine ⟨rfl, ⟨rfl, rfl⟩, ⟨rfl, trivial⟩, rfl, rfl, rfl, ?_, ?_⟩
  · obtain ⟨w, hw⟩ : ∃ w, (outcome (validator (.ofType (onOptional declared .text))) engine).1 =
      .ok w := exists_of_isOk (by cbv)
    exact ⟨w, _, Prod.ext hw rfl⟩
  -- no extractor leads from the text to an optional
  · have hrefused : (outcome (tree (.ofType (onContent declared .text))) engine).1.isOk = false := by
      cbv
    rintro ⟨t, e', h⟩
    rw [Gives] at h
    rw [h] at hrefused
    cases hrefused

end Validation
