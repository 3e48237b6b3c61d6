import Validation.Proofs.Build
import Validation.Proofs.Built
import Validation.Proofs.Interning.Instances

/-!
# Building once more

A constraint that is interned is found under its key from then on. So building a tree once more, when
the cache has grown and more classes are registered, finds every constraint where it has left it: it
gives the same tree and adds nothing to the cache. It does not matter by what other requests the cache
has grown, and what comes before may have failed.

* `Replays`: the second operation gives again what the first has given.
* `replays_internAt`: interning.
* `replays_buildType`, `replays_buildClass`: building trees.
-/

namespace Validation

variable {α β γ : Type}

/-- **The second operation replays the first.** The first only adds to the cache, even when it fails;
and what it has given the second gives in every larger cache, which it leaves as it is. -/
structure Replays (op op' : Interning α) : Prop where
  grows : ∀ cache : ConstraintCache, cache.Extends (outcome op cache).2
  again : ∀ {cache : ConstraintCache} {a : α} {cache' : ConstraintCache}, Gives op cache a cache' →
    ∀ {later : ConstraintCache}, cache'.Extends later → Gives op' later a later

section Rules

variable {op op' : Interning α}

theorem Replays.extends_of_gives (h : Replays op op') {cache cache' : ConstraintCache} {a : α}
    (hop : Gives op cache a cache') : cache.Extends cache' := by
  have hgrows := h.grows cache
  rw [Gives] at hop
  rwa [hop] at hgrows

theorem replays_pure (a : α) : Replays (pure a : Interning α) (pure a) := by
  refine ⟨fun cache => .refl cache, fun hop later _ => ?_⟩
  obtain ⟨rfl, -⟩ := gives_pure.1 hop
  exact gives_pure.2 ⟨rfl, rfl⟩

theorem replays_throw (error : AnalysisError) : Replays (throw error : Interning α) op' :=
  ⟨fun cache => .refl cache, fun hop => (gives_throw.1 hop).elim⟩

theorem replays_lift {x x' : Except AnalysisError α} (h : ∀ a, x = .ok a → x' = .ok a) :
    Replays (liftM x : Interning α) (liftM x') := by
  refine ⟨fun cache => ?_, fun hop later _ => ?_⟩
  · rw [outcome_lift]
    exact .refl cache
  · obtain ⟨hx, -⟩ := gives_lift.1 hop
    exact gives_lift.2 ⟨h _ hx, rfl⟩

theorem replays_bind {f f' : α → Interning β} (hop : Replays op op')
    (hf : ∀ a, Replays (f a) (f' a)) : Replays (op >>= f) (op' >>= f') := by
  refine ⟨fun cache => ?_, fun hgives later hlater => ?_⟩
  · have hgrows := hop.grows cache
    rw [outcome_bind]
    rcases houtcome : outcome op cache with ⟨error | a, cache'⟩ <;> rw [houtcome] at hgrows
    · exact hgrows
    · exact hgrows.trans ((hf a).grows cache')
  · obtain ⟨a, cache₁, hfirst, hrest⟩ := gives_bind.1 hgives
    have hlater₁ := ((hf a).extends_of_gives hrest).trans hlater
    exact gives_bind.2 ⟨a, later, hop.again hfirst hlater₁, (hf a).again hrest hlater⟩

theorem replays_map (hop : Replays op op') (f : α → β) : Replays (f <$> op) (f <$> op') := by
  rw [map_eq_pure_bind, map_eq_pure_bind]
  exact replays_bind hop fun a => replays_pure (f a)

theorem replays_foldlM {g g' : β → γ → Interning β} (h : ∀ b c, Replays (g b c) (g' b c))
    (l : List γ) (b : β) : Replays (l.foldlM g b) (l.foldlM g' b) := by
  induction l generalizing b with
  | nil => exact replays_pure b
  | cons c l ih =>
    rw [List.foldlM_cons, List.foldlM_cons]
    exact replays_bind (h b c) ih

theorem replays_mapM {g g' : γ → Interning β} (h : ∀ c, Replays (g c) (g' c)) (l : List γ) :
    Replays (l.mapM g) (l.mapM g') := by
  induction l with
  | nil => exact replays_pure []
  | cons c l ih =>
    rw [List.mapM_cons, List.mapM_cons]
    exact replays_bind (h c) fun b => replays_bind ih fun bs => replays_pure (b :: bs)

end Rules

/-! ### Interning -/

namespace Kind

variable {k : Kind} {depth : Nat} {declared : Attributes} {cache cache' : ConstraintCache}
  {c : Constraint}

/-- **What is interned is found** under its key afterwards. -/
theorem found_of_gives (h : Gives (k.internAt depth declared) cache c cache') :
    ¬ maxCombinationDepth < depth ∧ ∃ attributes, k.resolve declared = .ok attributes ∧
      cache'.find? ⟨k.name, attributes⟩ = some c := by
  rw [internAt_eq] at h
  by_cases hdepth : maxCombinationDepth < depth
  · rw [if_pos hdepth] at h
    exact (gives_throw.1 h).elim
  rw [if_neg hdepth] at h
  obtain ⟨attributes, cache₀, hlift, hrest⟩ := gives_bind.1 h
  obtain ⟨hresolve, rfl⟩ := gives_lift.1 hlift
  refine ⟨hdepth, attributes, hresolve, ?_⟩
  rw [gives_get] at hrest
  cases hfind : cache₀.find? ⟨k.name, attributes⟩ with
  | some found =>
    simp only [hfind] at hrest
    obtain ⟨rfl, rfl⟩ := gives_pure.1 hrest
    exact hfind
  | none =>
    simp only [hfind] at hrest
    obtain ⟨parts, cache₁, -, hinsert⟩ := gives_bind.1 hrest
    obtain ⟨⟨⟩, cache₂, hmodify, hreturn⟩ := gives_bind.1 hinsert
    cases hmodify
    -- what is returned is what the insertion leaves under the key, whatever that is
    rw [gives_get] at hreturn
    obtain ⟨rfl, rfl⟩ := gives_pure.1 hreturn
    rw [ConstraintCache.find?_insert, if_pos rfl]
    cases cache₁.find? ⟨k.name, attributes⟩ <;> rfl

/-- **Interning replays itself.** -/
theorem replays_internAt (k : Kind) (depth : Nat) (declared : Attributes) :
    Replays (k.internAt depth declared) (k.internAt depth declared) := by
  refine ⟨fun cache => ?_, fun hop later hlater => ?_⟩
  · have hinv : KeptByInsert (fun _ => True) cache.Extends :=
      fun cache' _ _ _ _ _ _ h => h.trans (ConstraintCache.extends_insert cache' _ _)
    have hkind := k.every_of_forall fun _ => trivial
    exact (keeps_internAt_of_insert hinv k depth declared hkind cache (.refl cache)).1
  · obtain ⟨hdepth, attributes, hresolve, hfind⟩ := found_of_gives hop
    rw [internAt_eq, if_neg hdepth]
    refine gives_bind.2 ⟨attributes, later, gives_lift.2 ⟨hresolve, rfl⟩, gives_get.2 ?_⟩
    rw [hlater _ _ hfind]
    exact gives_pure.2 ⟨rfl, rfl⟩

end Kind

/-! ### Building -/

namespace Analyser

variable {a : Analyser} {names : List String} (hnames : ∀ name ∈ a.classNames, name ∈ names)

theorem replays_constraint (d : Declaration) :
    Replays (a.constraint d) ({ a with classNames := names }.constraint d) :=
  replays_bind (replays_lift fun _ h => h) fun kind => Kind.replays_internAt kind 0 d.attributes

theorem replays_place (p : Position) (placed : Placement) (d : Declaration) :
    Replays (a.place p placed d) ({ a with classNames := names }.place p placed d) := by
  refine replays_bind (replays_constraint d) fun c => ?_
  have hsame : { a with classNames := names }.extractorFor? c.kind p.type =
      a.extractorFor? c.kind p.type := rfl
  rw [hsame]
  split
  · exact replays_pure _
  · split
    · exact replays_pure _
    · exact replays_throw _

/-- The children for parts replay themselves if the nodes of the parts do. -/
theorem replays_buildParts {b : Analyser} {location : Location}
    {parts : List (Wrapper × AnnotatedType)}
    (h : ∀ p ∈ parts, Replays (a.buildPart location p) (b.buildPart location p)) :
    Replays (a.buildParts location parts) (b.buildParts location parts) := by
  induction parts with
  | nil => exact replays_pure []
  | cons p parts ih =>
    obtain ⟨hp, hrest⟩ := List.forall_mem_cons.1 h
    rw [buildParts_cons, buildParts_cons]
    exact replays_bind hp fun n => replays_bind (ih hrest) fun children => replays_pure _

include hnames

/-- A class that there is can be cascaded into when there are more. -/
theorem cascadeTarget_of_names {p : Position} {name : String} (h : a.cascadeTarget p = .ok name) :
    { a with classNames := names }.cascadeTarget p = .ok name := by
  obtain ⟨htype, hname⟩ := cascadeTarget_eq_ok.1 h
  exact cascadeTarget_eq_ok.2 ⟨htype, hnames name hname⟩

theorem replays_cascadeAt (location : Location) (t : AnnotatedType) :
    Replays (a.cascadeAt location t) ({ a with classNames := names }.cascadeAt location t) := by
  unfold cascadeAt
  split_ifs
  · exact replays_map (replays_lift fun name hname => cascadeTarget_of_names hnames hname) some
  · exact replays_pure none

/-- **Building the node of a type** replays itself. -/
theorem replays_build (t : AnnotatedType) : ∀ location : Location,
    Replays (a.build location t) ({ a with classNames := names }.build location t) := by
  induction t using AnnotatedType.induction with
  | h t ih =>
    intro location
    rw [build_eq, build_eq, buildNested_eq, buildNested_eq]
    dsimp only
    split
    · exact replays_throw _
    refine replays_bind (replays_foldlM (replays_place _) _ _) fun placed => ?_
    refine replays_bind (replays_cascadeAt hnames location t) fun cascade => ?_
    exact replays_bind (replays_buildParts fun p hp => ih p hp _) fun nested => replays_pure _

/-- **Building the tree of a type** replays itself. -/
theorem replays_buildType (t : AnnotatedType) :
    Replays (a.buildType t) ({ a with classNames := names }.buildType t) := replays_build hnames t _

/-- **Building the tree of a class** replays itself. -/
theorem replays_buildClass (schema : ClassSchema) :
    Replays (a.buildClass schema) ({ a with classNames := names }.buildClass schema) := by
  rw [buildClass_eq, buildClass_eq]
  refine replays_bind (replays_mapM (fun d => replays_constraint d) _) fun constraints => ?_
  refine replays_bind (replays_buildParts fun p _ => replays_build hnames p.2 _) fun children => ?_
  exact replays_pure _

end Analyser

end Validation
