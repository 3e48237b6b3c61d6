import Validation.Proofs.Engine.Growth
import Validation.Proofs.Except

/-!
# What an engine holds

What an engine holds has been made by it: every tree was built from the declarations of its root,
every criterion was compiled from the tree of its root, and the tree of an analysed class compiles.
No request changes that, whether it succeeds or fails.

* `Engine.Orderly`: what an engine holds has been made by it.
* `Engine.Public`, `Engine.Reaches`: what has been found to be free of errors, and the classes that a
  root cascades into, directly or through others.
* `Engine.Leads`: what a request leads to. An orderly engine stays so, and a condition holds of the
  result.
* `leads_tree`: asking for a tree.
-/

namespace Validation

/-- The declared type of the values that a root is about. -/
def Root.type : Root → DeclaredType
  | ofClass name => .classOf name
  | ofType type => type.type

end Validation

namespace Validation.Engine

/-- What trees are built by when the classes of the given names are there. -/
def analyserOf (e : Engine) (names : List String) : Analyser :=
  ⟨e.config, e.catalog, e.extractors, names⟩

variable {P : Constraint → Prop} {S : Kind → Prop} {e e' : Engine} {root : Root} {t : Node}

/-- The tree is built from the declarations of the root, with classes of the engine to cascade into
and with interned constraints of a property. -/
def IsTree (P : Constraint → Prop) (e : Engine) (root : Root) (t : Node) : Prop :=
  ∃ names cache cache', (∀ name ∈ names, name ∈ e.classNames) ∧ cache.All P ∧
    match root with
    | .ofClass name => ∃ schema, e.schema? name = some schema ∧
        Gives ((e.analyserOf names).buildClass schema) cache t cache'
    | .ofType type => Gives ((e.analyserOf names).buildType type) cache t cache'

theorem Grows.analyserOf (h : Grows e e') (names : List String) :
    e'.analyserOf names = e.analyserOf names := by
  simp only [Engine.analyserOf, h.config, h.catalog, h.extractors]

theorem IsTree.grows (ht : IsTree P e root t) (h : Grows e e') : IsTree P e' root t := by
  obtain ⟨names, cache, cache', hnames, hcache, ht⟩ := ht
  refine ⟨names, cache, cache', fun name hname => h.classNames (hnames name hname), hcache, ?_⟩
  cases root with
  | ofClass name =>
    obtain ⟨schema, hschema, ht⟩ := ht
    exact ⟨schema, h.classes name schema hschema, (h.analyserOf names).symm ▸ ht⟩
  | ofType type =>
    dsimp only at ht ⊢
    rw [h.analyserOf]
    exact ht

/-- **What an engine holds has been made by it.** The kinds of its catalog have a property, and so
have its interned constraints. -/
structure Orderly (P : Constraint → Prop) (S : Kind → Prop) (e : Engine) : Prop where
  kinds : ∀ kind ∈ e.catalog.kinds, kind.Every S
  constraints : e.constraints.All P
  trees : ∀ root t, e.trees.lookup root = some t → IsTree P e root t
  compiled : ∀ root c, e.compiled.lookup root = some c →
    ∃ t, e.trees.lookup root = some t ∧ compile linked t = .ok c
  analysed : ∀ name ∈ e.analysed,
    ∃ t c, e.trees.lookup (.ofClass name) = some t ∧ compile linked t = .ok c
  eager : e.config.eagerCascade = true → e.analysed = []

theorem Orderly.mono {P' : Constraint → Prop} {S' : Kind → Prop} (h : Orderly P S e)
    (hP : ∀ c, P c → P' c) (hS : ∀ k, S k → S' k) : Orderly P' S' e := by
  have hall : ∀ cache : ConstraintCache, cache.All P → cache.All P' :=
    fun cache hcache entry hentry => (hcache entry hentry).imp_left (hP _)
  refine ⟨fun kind hkind => (h.kinds kind hkind).mono hS, hall _ h.constraints, fun root t ht => ?_,
    h.compiled, h.analysed, h.eager⟩
  obtain ⟨names, cache, cache', hnames, hcache, ht⟩ := h.trees root t ht
  exact ⟨names, cache, cache', hnames, hall _ hcache, ht⟩

/-- Nothing is asked of constraints and kinds. -/
abbrev OrderlyAny (e : Engine) : Prop := Orderly (fun _ => True) (fun _ => True) e

theorem any_assemble : Assembles (fun _ => True) (fun _ => True) := fun _ _ _ _ _ => trivial

/-- The root has been found to be free of errors: it is compiled, or it is an analysed class. -/
def Public (e : Engine) (root : Root) : Prop :=
  (∃ c, e.compiled.lookup root = some c) ∨ ∃ name ∈ e.analysed, root = .ofClass name

theorem Public.grows (h : Public e root) (hgrows : Grows e e') : Public e' root := by
  rcases h with ⟨c, hc⟩ | ⟨name, hname, rfl⟩
  · exact .inl ⟨c, hgrows.compiled root c hc⟩
  · exact .inr ⟨name, hgrows.analysed name hname, rfl⟩

theorem Orderly.exists_tree (he : Orderly P S e) (h : Public e root) :
    ∃ t c, e.trees.lookup root = some t ∧ compile linked t = .ok c := by
  rcases h with ⟨c, hc⟩ | ⟨name, hname, rfl⟩
  · obtain ⟨t, ht, hc⟩ := he.compiled root c hc
    exact ⟨t, c, ht, hc⟩
  · exact he.analysed name hname

/-- The tree of what is public stays. -/
theorem Orderly.tree_eq (he : Orderly P S e) (hgrows : Grows e e') (h : Public e root)
    (ht : e'.trees.lookup root = some t) : e.trees.lookup root = some t := by
  obtain ⟨t', -, ht', -⟩ := he.exists_tree h
  rw [ht', ← ht, hgrows.trees root t' ht']

/-- The criterion of a compiled root is that of its tree. -/
theorem Orderly.compile_eq (he : Orderly P S e) (ht : e.trees.lookup root = some t)
    {c : Criterion.On Value} (hc : e.compiled.lookup root = some c) : compile linked t = .ok c := by
  obtain ⟨t', ht', hcompile⟩ := he.compiled root c hc
  rw [ht] at ht'
  cases ht'
  exact hcompile

/-- The root cascades into the class, directly or through other classes, as far as their trees are
made. -/
inductive Reaches (e : Engine) (root : Root) : String → Prop where
  | one {t : Node} {name : String} (ht : e.trees.lookup root = some t) (hname : name ∈ t.cascades) :
      Reaches e root name
  | next {t : Node} {name name' : String} (h : Reaches e root name)
      (ht : e.trees.lookup (.ofClass name) = some t) (hname : name' ∈ t.cascades) :
      Reaches e root name'

theorem Reaches.grows {name : String} (h : Reaches e root name) (hgrows : Grows e e') :
    Reaches e' root name := by
  induction h with
  | one ht hname => exact .one (hgrows.trees _ _ ht) hname
  | next _ ht hname ih => exact ih.next (hgrows.trees _ _ ht) hname

/-- The root is a class that the class cascades into, directly or through other classes. -/
def Returns (e : Engine) (name : String) (root : Root) : Prop :=
  ∃ own, root = .ofClass own ∧ Reaches e (.ofClass name) own

theorem Returns.grows {name : String} (h : Returns e name root) (hgrows : Grows e e') :
    Returns e' name root := by
  obtain ⟨own, hown, hreaches⟩ := h
  exact ⟨own, hown, hreaches.grows hgrows⟩

/-- An engine later, after requests that succeeded or failed. -/
structure Later (P : Constraint → Prop) (S : Kind → Prop) (e e' : Engine) : Prop where
  orderly : Orderly P S e'
  grows : Grows e e'
  /-- What has become public cascades into public classes, or into one that leads back to it. -/
  closed : ∀ root, Public e' root → ¬ Public e root → ∀ t, e'.trees.lookup root = some t →
    ∀ name ∈ t.cascades, Public e' (.ofClass name) ∨ Returns e' name root

theorem Later.refl (h : Orderly P S e) : Later P S e e :=
  ⟨h, .refl e, fun _ hroot hnew => absurd hroot hnew⟩

theorem Later.trans {e'' : Engine} (h : Later P S e e') (h' : Later P S e' e'') :
    Later P S e e'' := by
  refine ⟨h'.orderly, h.grows.trans h'.grows, fun root hroot hnew t ht name hname => ?_⟩
  by_cases hmid : Public e' root
  · have ht' := h.orderly.tree_eq h'.grows hmid ht
    exact (h.closed root hmid hnew t ht' name hname).imp (·.grows h'.grows) (·.grows h'.grows)
  · exact h'.closed root hroot hmid t ht name hname

/-- The engine after a request, whether it succeeds or fails: no class is registered by then. -/
structure Ran (P : Constraint → Prop) (S : Kind → Prop) (e e' : Engine) : Prop
    extends Later P S e e' where
  classes : e'.classes = e.classes

theorem Ran.refl (h : Orderly P S e) : Ran P S e e := ⟨.refl h, rfl⟩

theorem Ran.trans {e'' : Engine} (h : Ran P S e e') (h' : Ran P S e' e'') : Ran P S e e'' :=
  ⟨h.toLater.trans h'.toLater, h'.classes.trans h.classes⟩

/-- **What a request leads to.** Whatever it comes to, the engine stays orderly and keeps what it
has; if there is a result, a condition holds of it and of the engine after. -/
def Leads (P : Constraint → Prop) (S : Kind → Prop) {α : Type} (e : Engine) (op : Request α)
    (post : α → Engine → Prop) : Prop :=
  Ran P S e (outcome op e).2 ∧ ∀ a e', Gives op e a e' → post a e'

section Rules

variable {α β : Type} {op : Request α} {f : α → Request β} {post : α → Engine → Prop}
  {post' : β → Engine → Prop}

theorem Leads.of_gives (h : Leads P S e op post) {a : α} (hop : Gives op e a e') :
    Ran P S e e' ∧ post a e' := by
  have hran := h.1
  have houtcome : outcome op e = (.ok a, e') := hop
  rw [houtcome] at hran
  exact ⟨hran, h.2 a e' hop⟩

theorem Leads.imp {post'' : α → Engine → Prop} (h : Leads P S e op post)
    (himp : ∀ a e', Ran P S e e' → post a e' → post'' a e') : Leads P S e op post'' := by
  refine ⟨h.1, fun a e' hop => ?_⟩
  obtain ⟨hran, hpost⟩ := h.of_gives hop
  exact himp a e' hran hpost

theorem leads_bind (hop : Leads P S e op post)
    (hf : ∀ a e', Ran P S e e' → post a e' → Leads P S e' (f a) post') :
    Leads P S e (op >>= f) post' := by
  have hnext : ∀ a e', Gives op e a e' → Ran P S e e' ∧ Leads P S e' (f a) post' := by
    intro a e' hgives
    obtain ⟨hran, hpost⟩ := hop.of_gives hgives
    exact ⟨hran, hf a e' hran hpost⟩
  refine ⟨?_, fun b e'' h => ?_⟩
  · rw [outcome_bind]
    rcases houtcome : outcome op e with ⟨error | a, e'⟩
    · have hran := hop.1
      rw [houtcome] at hran
      exact hran
    · obtain ⟨hran, hleads⟩ := hnext a e' houtcome
      exact hran.trans hleads.1
  · obtain ⟨a, e', hgives, h⟩ := gives_bind.1 h
    exact (hnext a e' hgives).2.2 b e'' h

theorem leads_pure {a : α} (he : Orderly P S e) (ha : post a e) : Leads P S e (pure a) post := by
  refine ⟨.refl he, fun b e' h => ?_⟩
  obtain ⟨rfl, rfl⟩ := gives_pure.1 h
  exact ha

theorem leads_throw {error : AnalysisError} (he : Orderly P S e) :
    Leads P S e (throw error : Request α) post :=
  ⟨.refl he, fun _ _ h => (gives_throw.1 h).elim⟩

theorem leads_lift {x : Except AnalysisError α} (he : Orderly P S e)
    (h : ∀ a, x = .ok a → Leads P S e (f a) post') :
    Leads P S e (liftM x >>= f) post' := by
  have hlift : Leads P S e (liftM x : Request α) fun a e' => x = .ok a ∧ e' = e := by
    refine ⟨?_, fun a e' h => gives_lift.1 h⟩
    rw [outcome_lift]
    exact .refl he
  refine leads_bind hlift ?_
  rintro a _ - ⟨hx, rfl⟩
  exact h a hx

theorem leads_get {g : Engine → Request β} (h : Leads P S e (g e) post') :
    Leads P S e (do g (← get)) post' := h

theorem leads_discard {x : Except AnalysisError α} {g : Unit → Request β} (he : Orderly P S e)
    (h : (∃ a, x = .ok a) → Leads P S e (g ()) post') :
    Leads P S e (discard (liftM x : Request α) >>= g) post' := by
  have hdiscard : (discard (liftM x : Request α)) = liftM (x.map fun _ => ()) := by
    cases x <;> rfl
  rw [hdiscard]
  refine leads_lift he fun _ hx => ?_
  obtain ⟨a, ha, -⟩ := map_eq_ok.1 hx
  exact h ⟨a, ha⟩

theorem leads_modify {g : Engine → Engine} (hran : Ran P S e (g e)) :
    Leads P S e (modify g : Request PUnit) fun _ e' => e' = g e := by
  refine ⟨hran, fun a e' h => ?_⟩
  cases h
  rfl

/-- What holds after each part of a list holds after all of it. -/
theorem leads_foldlM {γ : Type} {g : β → γ → Request β} {l : List γ}
    (inv : List γ → β → Engine → Prop) (he : Orderly P S e)
    (h : ∀ pre a post, l = pre ++ a :: post → ∀ b e', Ran P S e e' → inv pre b e' →
      Leads P S e' (g b a) (inv (pre ++ [a]))) {b : β} (hb : inv [] b e) :
    Leads P S e (l.foldlM g b) (inv l) := by
  suffices key : ∀ post pre, l = pre ++ post → ∀ b e', Ran P S e e' → inv pre b e' →
      Leads P S e' (post.foldlM g b) (inv l) from key l [] rfl b e (.refl he) hb
  intro post
  induction post with
  | nil =>
    intro pre hl b e' hran hb
    rw [List.append_nil] at hl
    subst hl
    exact leads_pure hran.orderly hb
  | cons a post ih =>
    intro pre hl b e' hran hb
    rw [List.foldlM_cons]
    refine leads_bind (h pre a post hl b e' hran hb) fun b' e'' hran' hb' => ?_
    exact ih (pre ++ [a]) (by simp [hl]) b' e'' (hran.trans hran') hb'

end Rules

section Tree

variable (hP : Assembles P S)

/-- Operations on the interned constraints change nothing else. -/
theorem outcome_interning {α : Type} (op : Interning α) (e : Engine) :
    outcome (interning op) e =
      ((outcome op e.constraints).1, { e with constraints := (outcome op e.constraints).2 }) := by
  simp only [interning]
  rw [outcome_bind]
  change outcome _ e = _
  rcases hrun : outcome op e.constraints with ⟨error | a, cache⟩ <;>
  · have hrun' : op.run e.constraints = _ := hrun
    simp only [hrun']
    rfl

theorem leads_interning {α : Type} {op : Interning α} {post : α → Prop} (he : Orderly P S e)
    (hop : Keeps (ConstraintCache.All P) op post) :
    Leads P S e (interning op) fun a e' =>
      ∃ cache, Gives op e.constraints a cache ∧ e' = { e with constraints := cache } := by
  refine ⟨?_, fun a e' h => ?_⟩
  · rw [outcome_interning]
    exact ⟨⟨⟨he.kinds, (hop _ he.constraints).1, he.trees, he.compiled, he.analysed, he.eager⟩,
      ⟨rfl, rfl, rfl, fun _ _ h => h, fun _ _ h => h, fun _ _ h => h, fun _ h => h⟩,
      fun _ hroot hnew => absurd hroot hnew⟩, rfl⟩
  · rw [Gives, outcome_interning] at h
    obtain ⟨ha, he'⟩ := Prod.ext_iff.1 h
    exact ⟨(outcome op e.constraints).2, Prod.ext ha rfl, he'.symm⟩

include hP

theorem leads_buildTree (he : Orderly P S e) (root : Root) :
    Leads P S e (buildTree root) fun t e' =>
      IsTree P e root t ∧ ∃ cache, e' = { e with constraints := cache } := by
  refine leads_get ?_
  cases root with
  | ofClass name =>
    cases hschema : e.schema? name with
    | none => simp only [hschema]; exact leads_throw he
    | some schema =>
      simp only [hschema]
      have hkeeps := Analyser.keeps_buildClass (a := e.analyser) hP he.kinds schema
      refine (leads_interning he hkeeps).imp ?_
      rintro t _ - ⟨cache, ht, rfl⟩
      exact ⟨⟨e.classNames, e.constraints, cache, fun _ h => h, he.constraints, schema, hschema, ht⟩,
        cache, rfl⟩
  | ofType type =>
    have hkeeps := Analyser.keeps_buildType (a := e.analyser) hP he.kinds type
    refine (leads_interning he hkeeps).imp ?_
    rintro t _ - ⟨cache, ht, rfl⟩
    exact ⟨⟨e.classNames, e.constraints, cache, fun _ h => h, he.constraints, ht⟩, cache, rfl⟩

/-- **Asking for a tree** changes nothing but the interned constraints and the tree of the root. -/
theorem leads_tree (he : Orderly P S e) (root : Root) :
    Leads P S e (tree root) fun t e' =>
      e'.trees.lookup root = some t ∧ e'.compiled = e.compiled ∧ e'.analysed = e.analysed ∧
        ∀ root' t', e'.trees.lookup root' = some t' →
          e.trees.lookup root' = some t' ∨ root' = root ∧ e.trees.lookup root = none := by
  refine leads_get ?_
  cases hlookup : e.trees.lookup root with
  | some t =>
    simp only
    exact leads_pure he ⟨hlookup, rfl, rfl, fun _ _ h => .inl h⟩
  | none =>
    simp only
    refine leads_bind (leads_buildTree hP he root) ?_
    rintro t _ hran ⟨ht, cache, rfl⟩
    -- publishing the tree leaves everything else as it was
    have hran' : Ran P S { e with constraints := cache }
        { e with constraints := cache, trees := insertAbsent root t e.trees } := by
      refine ⟨⟨⟨he.kinds, hran.orderly.constraints, fun root' t' h => ?_, fun root' c h => ?_,
        fun name h => ?_, he.eager⟩, ⟨rfl, rfl, rfl, fun _ _ h => h,
        fun _ _ h => lookup_insertAbsent_of_some h, fun _ _ h => h, fun _ h => h⟩,
        fun _ hroot hnew => absurd hroot hnew⟩, rfl⟩
      · rcases lookup_insertAbsent h with h | ⟨rfl, rfl⟩
        · exact he.trees root' t' h
        · exact ht
      · obtain ⟨t', ht', hc⟩ := he.compiled root' c h
        exact ⟨t', lookup_insertAbsent_of_some ht', hc⟩
      · obtain ⟨t', c, ht', hc⟩ := he.analysed name h
        exact ⟨t', c, lookup_insertAbsent_of_some ht', hc⟩
    refine leads_bind (leads_modify hran') ?_
    rintro _ _ - rfl
    refine leads_pure hran'.orderly ⟨lookup_insertAbsent_self hlookup, rfl, rfl, ?_⟩
    intro root' t' h
    rcases lookup_insertAbsent h with h | ⟨rfl, rfl⟩
    · exact .inl h
    · exact .inr ⟨rfl, trivial⟩

/-- The property is one of those that count of the class. -/
def Declares (e : Engine) (className : String) (p : Property) : Prop :=
  ∃ schema, e.schema? className = some schema ∧
    p ∈ schema.effectiveProperties e.config.propertySource

/-- The tree of a root is built from the declarations of the root. -/
def IsBuilt (P : Constraint → Prop) (e : Engine) (names : List String) (root : Root) (t : Node) :
    Prop :=
  match root with
  | .ofClass name => ∃ schema, e.schema? name = some schema ∧
      (e.analyserOf names).BuiltClass P schema t
  | .ofType type => (e.analyserOf names).Built P type (.ofRoot type.type.render) t

theorem Orderly.isBuilt (he : Orderly P S e) (ht : e.trees.lookup root = some t) :
    ∃ names, (∀ name ∈ names, name ∈ e.classNames) ∧ IsBuilt P e names root t := by
  obtain ⟨names, cache, cache', hnames, hcache, ht⟩ := he.trees root t ht
  refine ⟨names, hnames, ?_⟩
  cases root with
  | ofClass name =>
    obtain ⟨schema, hschema, ht⟩ := ht
    have hkeeps := Analyser.keeps_buildClass (a := e.analyserOf names) hP he.kinds schema
    exact ⟨schema, hschema, (hkeeps.of_gives hcache ht).2⟩
  | ofType type =>
    have hkeeps := Analyser.keeps_buildType (a := e.analyserOf names) hP he.kinds type
    exact (hkeeps.of_gives hcache ht).2

/-- **The tree of a root is laid out** as its declarations are. -/
theorem Orderly.laid (he : Orderly P S e) (ht : e.trees.lookup root = some t) :
    ∃ names, (∀ name ∈ names, name ∈ e.classNames) ∧ t.type = root.type ∧
      ∀ m ∈ t.nodes, (e.analyserOf names).Laid P e.Declares m := by
  obtain ⟨names, hnames, hbuilt⟩ := he.isBuilt hP ht
  refine ⟨names, hnames, ?_⟩
  cases root with
  | ofClass name =>
    obtain ⟨schema, hschema, hbuilt⟩ := hbuilt
    have hname : schema.name = name := by simpa using List.find?_some hschema
    refine ⟨?_, Analyser.laid_of_builtClass hbuilt fun p hp => ⟨schema, hname ▸ hschema, hp⟩⟩
    obtain ⟨constraints, children, -, -, rfl⟩ := hbuilt
    rw [hname]
    rfl
  | ofType type => exact ⟨Analyser.type_of_built hbuilt, Analyser.laid_of_built hbuilt⟩

/-- The nodes of a tree that an engine holds have interned constraints, and cascade into registered
classes. -/
theorem Orderly.consists (he : Orderly P S e) (ht : e.trees.lookup root = some t) :
    Analyser.Consists P e.classNames t := by
  obtain ⟨names, hnames, -, hlaid⟩ := he.laid hP ht
  have hconsists := Analyser.consists_of_laid hlaid
  exact fun m hm => ⟨(hconsists m hm).1, fun name hname => hnames name ((hconsists m hm).2 name hname)⟩

theorem Orderly.registered_of_cascades (he : Orderly P S e) (ht : e.trees.lookup root = some t)
    {name : String} (hname : name ∈ t.cascades) : name ∈ e.classNames := by
  obtain ⟨m, hm, hname⟩ := Node.mem_cascades.1 hname
  exact (he.consists hP ht m hm).2 name hname

omit hP in
theorem Orderly.registered (he : Orderly P S e) {name : String}
    (ht : e.trees.lookup (.ofClass name) = some t) : name ∈ e.classNames := by
  obtain ⟨-, -, -, -, -, schema, hschema, -⟩ := he.trees _ t ht
  exact schema?_isSome.1 ⟨schema, hschema⟩

end Tree

end Validation.Engine
