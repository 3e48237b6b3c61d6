import Validation.Proofs.Engine.Search

/-!
# Eager and lazy search side by side

With eager cascades a root is compiled after the classes that it cascades into; with lazy ones these
classes are only searched for errors, each before those that it cascades into. Both searches visit
the same classes in the same order and make their trees when they come to them, so their interned
constraints and trees are the same at every step. What differs is when a class is compiled: not
before those below it are, or before they are searched. If it does not compile the one search fails
later than the other, but both fail.

* `Engine.eagerTwin`: the engine at the same step of the eager search.
* `matches_step`: both searches, one class further.
* `matches_analyse`: both searches, through the classes below a tree.
* `matches_validator`: asking two new engines for a validator.
-/

namespace Validation

namespace Analyser

/-- What trees are built by under another treatment of cascades. -/
def withMode (a : Analyser) (eager : Bool) : Analyser :=
  { a with config := { a.config with eagerCascade := eager } }

variable (a : Analyser) (eager : Bool)

/-- **Trees do not depend on the treatment of cascades.** -/
theorem build_withMode (t : AnnotatedType) : ∀ location : Location,
    (a.withMode eager).build location t = a.build location t := by
  induction t using AnnotatedType.induction with
  | h t ih =>
    intro location
    rw [build_eq, build_eq, buildNested_eq, buildNested_eq, buildParts_congr fun p hp => ih p hp _]
    rfl

theorem buildClass_withMode (schema : ClassSchema) :
    (a.withMode eager).buildClass schema = a.buildClass schema := by
  rw [buildClass_eq, buildClass_eq, buildParts_congr fun p _ => build_withMode a eager p.2 _]
  rfl

end Analyser

namespace Engine

variable {e : Engine} {compiled : List (Root × Criterion.On Value)} {visited : List String}

/-- The engine with eager cascades that has the same interned constraints and trees, and has compiled
what is given. -/
def eagerTwin (e : Engine) (compiled : List (Root × Criterion.On Value)) : Engine :=
  { e with config := { e.config with eagerCascade := true }, compiled, analysed := [] }

/-- Making a tree comes to the same in both engines. -/
theorem outcome_buildTree_eagerTwin (root : Root) (e : Engine)
    (compiled : List (Root × Criterion.On Value)) :
    outcome (buildTree root) (e.eagerTwin compiled) =
      ((outcome (buildTree root) e).1, (outcome (buildTree root) e).2.eagerTwin compiled) := by
  have hinterning : ∀ op : Interning Node,
      outcome (interning op) (e.eagerTwin compiled) =
        ((outcome (interning op) e).1, (outcome (interning op) e).2.eagerTwin compiled) := by
    intro op
    rw [outcome_interning, outcome_interning]
    rfl
  have hget : ∀ {α : Type} (g : Engine → Request α) (e : Engine),
      outcome (do g (← get)) e = outcome (g e) e := fun _ _ => rfl
  rw [buildTree, hget, hget]
  cases root with
  | ofClass name =>
    have hschema : (e.eagerTwin compiled).schema? name = e.schema? name := rfl
    dsimp only
    rw [hschema]
    cases e.schema? name with
    | none => rfl
    | some schema =>
      -- building does not look at the mode
      have hbuild : (e.eagerTwin compiled).analyser.buildClass schema =
          e.analyser.buildClass schema := Analyser.buildClass_withMode e.analyser true schema
      dsimp only
      rw [hbuild]
      exact hinterning _
  | ofType type =>
    have hbuild : (e.eagerTwin compiled).analyser.buildType type = e.analyser.buildType type :=
      Analyser.build_withMode e.analyser true type _
    dsimp only
    rw [hbuild]
    exact hinterning _

/-- **Asking for a tree** comes to the same in both engines. -/
theorem matches_tree (root : Root) (e : Engine) (compiled : List (Root × Criterion.On Value)) :
    Matches (tree root) (e.eagerTwin compiled) (tree root) e fun t s' t' e' =>
      (t = t' ∧ s' = e'.eagerTwin compiled) ∧ Gives (tree root) e t' e' := by
  refine Matches.and_gives (matches_get_left (matches_get_right ?_))
  have hlookup : (e.eagerTwin compiled).trees.lookup root = e.trees.lookup root := rfl
  rw [hlookup]
  cases e.trees.lookup root with
  | some t => exact matches_pure ⟨rfl, rfl⟩
  | none =>
    refine matches_bind (matches_of_outcome (g := (·.eagerTwin compiled))
      (outcome_buildTree_eagerTwin root e compiled)) ?_
    rintro t s' _ e' ⟨rfl, rfl⟩
    refine matches_bind matches_modify ?_
    rintro _ _ _ _ ⟨rfl, rfl⟩
    exact matches_pure ⟨rfl, rfl⟩

/-- How far both searches have come: the classes of `visited` are visited, of which the eager search
has compiled some and the lazy one has found some to be free of errors. -/
structure Searching (e : Engine) (compiled : List (Root × Criterion.On Value))
    (visited : List String) : Prop where
  orderly : OrderlyAny e
  lazy : e.config.eagerCascade = false
  fresh : e.compiled = []
  compiled : ∀ name c, compiled.lookup (.ofClass name) = some c → name ∈ visited
  analysed : ∀ name ∈ e.analysed, name ∈ visited
  nodup : visited.Nodup
  registered : ∀ name ∈ visited, name ∈ e.classNames

/-- What both searches come to from one step to a later one. -/
structure Sought (e : Engine) (visited : List String) (e' : Engine)
    (compiled' : List (Root × Criterion.On Value)) (visited' : List String) : Prop where
  searching : Searching e' compiled' visited'
  grows : Grows e e'
  classes : e'.classes = e.classes
  kept : ∀ name ∈ visited, name ∈ visited'

theorem Sought.refl (h : Searching e compiled visited) : Sought e visited e compiled visited :=
  ⟨h, .refl e, rfl, fun _ h => h⟩

theorem Sought.trans {e' e'' : Engine} {compiled' compiled'' : List (Root × Criterion.On Value)}
    {visited' visited'' : List String} (h : Sought e visited e' compiled' visited')
    (h' : Sought e' visited' e'' compiled'' visited'') : Sought e visited e'' compiled'' visited'' :=
  ⟨h'.searching, h.grows.trans h'.grows, h'.classes.trans h.classes,
    fun name hname => h'.kept name (h.kept name hname)⟩

/-- A search comes to a root that it has not visited: its tree is made, and it is visited if it is a
class. -/
theorem Searching.enter (h : Searching e compiled visited) (root : Root)
    (hnew : ∀ name, root = .ofClass name → name ∉ visited) {t : Node} {e' : Engine}
    (ht : Gives (tree root) e t e') :
    Sought e visited e' compiled (root.className?.toList ++ visited) ∧
      e'.trees.lookup root = some t := by
  obtain ⟨hran, hlookup, hcompiled, hanalysed, -⟩ :=
    (leads_tree any_assemble h.orderly root).of_gives ht
  have hkept : ∀ name ∈ visited, name ∈ root.className?.toList ++ visited :=
    fun name hname => List.mem_append_right _ hname
  have hnodup : (root.className?.toList ++ visited).Nodup := by
    cases root with
    | ofClass name => exact List.nodup_cons.2 ⟨hnew name rfl, h.nodup⟩
    | ofType type => exact h.nodup
  have hregistered : ∀ name ∈ root.className?.toList ++ visited, name ∈ e'.classNames := by
    intro name hname
    rcases List.mem_append.1 hname with hname | hname
    · cases root with
      | ofClass own =>
        rw [List.mem_singleton.1 hname]
        exact hran.orderly.registered hlookup
      | ofType type => cases hname
    · exact hran.grows.classNames (h.registered name hname)
  refine ⟨⟨⟨hran.orderly, ?_, ?_, fun name c hc => hkept name (h.compiled name c hc), ?_, hnodup,
    hregistered⟩, hran.grows, hran.classes, hkept⟩, hlookup⟩
  · rw [hran.grows.config, h.lazy]
  · rw [hcompiled, h.fresh]
  · rw [hanalysed]
    exact fun name hname => hkept name (h.analysed name hname)

/-- A class whose search is over is compiled by the eager search and found to be free of errors by the
lazy one. -/
theorem Searching.leave (h : Searching e compiled visited) {name : String} (hname : name ∈ visited)
    {t : Node} (ht : e.trees.lookup (.ofClass name) = some t) {c : Criterion.On Value}
    (hc : compile linked t = .ok c) :
    Sought e visited { e with analysed := e.analysed ++ [name] }
      (insertAbsent (.ofClass name) c compiled) visited := by
  refine ⟨⟨h.orderly.markAnalysed ht hc h.lazy, h.lazy, h.fresh, fun name' c' hc' => ?_,
    fun name' hname' => ?_, h.nodup, h.registered⟩, ⟨rfl, rfl, rfl, fun _ _ h => h, fun _ _ h => h,
    fun _ _ h => h, fun _ h => List.mem_append_left _ h⟩, rfl, fun _ h => h⟩
  · rcases lookup_insertAbsent hc' with hc' | ⟨heq, -⟩
    · exact h.compiled name' c' hc'
    · rw [Root.ofClass.inj heq]
      exact hname
  · rcases List.mem_append.1 hname' with hname' | hname'
    · exact h.analysed name' hname'
    · rw [List.mem_singleton.1 hname']
      exact hname

theorem foldlM_eagerStep {fuel : Nat} {names : List String} (h : ∀ name ∈ names, name ∈ visited) :
    names.foldlM (eagerStep fuel) visited = pure visited := by
  induction names with
  | nil => rfl
  | cons name names ih =>
    have hdone : visited.contains name = true := List.contains_iff_mem.2 (h name List.mem_cons_self)
    rw [List.foldlM_cons, eagerStep, if_pos hdone, pure_bind]
    exact ih fun name hname => h name (List.mem_cons_of_mem _ hname)

/-- What both searches come to, side by side. -/
abbrev SoughtBoth (e : Engine) (visited : List String) (visited₁ : List String) (s₁ : Engine)
    (visited₂ : List String) (e₂ : Engine) : Prop :=
  visited₁ = visited₂ ∧ ∃ compiled₂, s₁ = e₂.eagerTwin compiled₂ ∧
    Sought e visited e₂ compiled₂ visited₂

/-- Both searches go side by side through the classes below a tree, as far as the given fuel lasts. -/
def SideBySideFor (fuel : Nat) : Prop :=
  ∀ {e : Engine} {compiled : List (Root × Criterion.On Value)} {visited : List String} {root : Root}
    {t : Node}, Searching e compiled visited → e.trees.lookup root = some t →
    e.classes.length ≤ fuel + visited.length →
    Matches (t.cascades.foldlM (eagerStep fuel) visited) (e.eagerTwin compiled)
      (analyse fuel visited t) e (SoughtBoth e visited)

/-- Neither search goes into a visited class. -/
theorem matches_step_of_mem {fuel : Nat} {name : String} (h : Searching e compiled visited)
    (hname : name ∈ visited) :
    Matches (eagerStep (fuel + 1) visited name) (e.eagerTwin compiled) (lazyStep fuel visited name) e
      (SoughtBoth e visited) := by
  have hcontains : visited.contains name = true := List.contains_iff_mem.2 hname
  refine matches_get_right ?_
  rw [eagerStep, if_pos hcontains, hcontains, Bool.or_true, if_pos rfl]
  exact matches_pure ⟨rfl, compiled, rfl, .refl h⟩

/-- **Both searches go into a new class**: its tree is made, the lazy search compiles it without its
cascades before it goes on, and the eager one compiles it when it comes back. -/
theorem matches_step {fuel : Nat} {name : String} (hrest : SideBySideFor fuel)
    (h : Searching e compiled visited) (hnew : name ∉ visited)
    (hlength : e.classes.length ≤ fuel + 1 + visited.length) :
    Matches (eagerStep (fuel + 1) visited name) (e.eagerTwin compiled) (lazyStep fuel visited name) e
      (SoughtBoth e visited) := by
  have hcontains : visited.contains name = false := by simpa using hnew
  have hanalysed : e.analysed.contains name = false := by
    simpa using fun hname => hnew (h.analysed name hname)
  have hnone : (e.eagerTwin compiled).compiled.lookup (.ofClass name) = none := by
    cases hlookup : compiled.lookup (.ofClass name) with
    | none => exact hlookup
    | some c => exact absurd (h.compiled name c hlookup) hnew
  refine matches_get_right ?_
  rw [eagerStep, hcontains, hanalysed, Bool.or_false, if_neg Bool.false_ne_true,
    if_neg Bool.false_ne_true, compileRoot_succ]
  simp only [bind_assoc]
  refine matches_get_left ?_
  rw [hnone]
  simp only [bind_assoc]
  refine matches_bind (matches_tree (.ofClass name) e compiled) ?_
  rintro target _ _ e₁ ⟨⟨rfl, rfl⟩, htree⟩
  obtain ⟨hentered, htarget⟩ := h.enter (.ofClass name) (fun _ h => Root.ofClass.inj h ▸ hnew) htree
  have heager : (e₁.eagerTwin compiled).config.eagerCascade = true := rfl
  rw [search, inspect, bind_assoc, bind_assoc]
  refine matches_get_left (matches_get_right ?_)
  rw [heager, if_pos rfl, hentered.searching.fresh, List.lookup_nil, Option.isNone_none, if_pos rfl]
  -- a tree compiles with its cascades just if it does without them, so both fail or neither
  rcases hcompile : compile linked target with error | c
  · have hunlinked : ¬ ∃ c, compile unlinked target = .ok c := fun h => by
      obtain ⟨c, hc⟩ := exists_compile_of_link linked (fun _ => ⟨_, rfl⟩) h
      rw [hcompile] at hc
      cases hc
    refine .inr ⟨fails_bind.2 fun visited' e' _ => ?_, fails_discard hunlinked⟩
    rw [record, hcompile]
    exact fails_lift.bind.bind
  · obtain ⟨c', hunlinked⟩ := exists_compile_of_link unlinked (fun _ => ⟨_, rfl⟩) ⟨c, hcompile⟩
    have hlength₁ : e₁.classes.length ≤ fuel + (name :: visited).length := by
      rw [hentered.classes, List.length_cons]
      omega
    rw [hunlinked]
    change Matches _ _ (analyse fuel (name :: visited) target >>= _) e₁ _
    refine matches_bind (hrest hentered.searching htarget hlength₁) ?_
    rintro visited₂ _ _ e₂ ⟨rfl, compiled₂, rfl, hsought⟩
    rw [record, hcompile, markAnalysed, lift_ok, pure_bind]
    simp only [bind_assoc, pure_bind]
    refine matches_bind matches_modify ?_
    rintro _ _ _ _ ⟨rfl, rfl⟩
    -- the eager search records what the lazy one has marked
    have hleave := hsought.searching.leave (hsought.kept name List.mem_cons_self)
      (hsought.grows.trees _ _ htarget) hcompile
    exact matches_pure ⟨rfl, _, rfl, (hentered.trans hsought).trans hleave⟩

/-- **Both searches side by side**, through the classes that a tree cascades into. -/
theorem matches_analyse (fuel : Nat) : SideBySideFor fuel := by
  induction fuel with
  | zero =>
    intro e compiled visited root t h ht hlength
    rw [Nat.zero_add] at hlength
    -- when the fuel is used up all classes have been visited
    have hall : ∀ name ∈ t.cascades, name ∈ visited := by
      intro name hname
      have hregistered := h.orderly.registered_of_cascades any_assemble ht hname
      exact mem_of_exhausted h.nodup h.registered hlength hregistered
    rw [foldlM_eagerStep hall, analyse_zero]
    exact matches_pure ⟨rfl, compiled, rfl, .refl h⟩
  | succ fuel ih =>
    intro e compiled visited root t h ht hlength
    rw [analyse_succ]
    refine matches_foldlM ?_ ⟨rfl, compiled, rfl, .refl h⟩
    rintro name - visited₁ _ _ e₁ ⟨rfl, compiled₁, rfl, hsought⟩
    have hlength₁ : e₁.classes.length ≤ fuel + 1 + visited₁.length := by
      have hkept := (List.subperm_of_subset h.nodup hsought.kept).length_le
      rw [hsought.classes]
      omega
    have hstep : Matches (eagerStep (fuel + 1) visited₁ name) (e₁.eagerTwin compiled₁)
        (lazyStep fuel visited₁ name) e₁ (SoughtBoth e₁ visited₁) := by
      by_cases hname : name ∈ visited₁
      · exact matches_step_of_mem hsought.searching hname
      · exact matches_step ih hsought.searching hname hlength₁
    refine hstep.imp ?_
    rintro visited₂ _ _ e₂ ⟨rfl, compiled₂, rfl, hsought₂⟩
    exact ⟨rfl, compiled₂, rfl, hsought.trans hsought₂⟩

/-- **Asking for a validator** of a new engine, with eager cascades and with lazy ones: either both
requests fail, or both give the same criterion, and the trees that are made are the same. -/
theorem matches_validator (h : Searching e [] []) (root : Root) :
    Matches (validator root) (e.eagerTwin []) (validator root) e fun w s w' e' =>
      w = w' ∧ s.trees = e'.trees := by
  refine matches_get_left (matches_get_right ?_)
  rw [compileRoot_succ, compileRoot_succ, bind_assoc, bind_assoc]
  refine matches_get_left (matches_get_right ?_)
  have hnone : (e.eagerTwin []).compiled.lookup root = none := rfl
  rw [hnone, h.fresh, List.lookup_nil]
  simp only [bind_assoc, search, record]
  refine matches_bind (matches_tree root e []) ?_
  rintro t _ _ e₁ ⟨⟨rfl, rfl⟩, htree⟩
  obtain ⟨hentered, ht⟩ := h.enter root (fun _ _ => List.not_mem_nil) htree
  have heager : (e₁.eagerTwin []).config.eagerCascade = true := rfl
  refine matches_get_left (matches_get_right ?_)
  rw [heager, if_pos rfl, hentered.searching.lazy, if_neg Bool.false_ne_true]
  have hlength : e₁.classes.length ≤ e.classes.length + (root.className?.toList ++ []).length := by
    rw [hentered.classes]
    exact Nat.le_add_right _ _
  refine matches_bind (matches_analyse e.classes.length hentered.searching ht hlength) ?_
  rintro visited _ _ e₂ ⟨rfl, compiled, rfl, -⟩
  -- in the end both compile the same tree
  rcases compile linked t with error | c
  · exact .inr ⟨fails_lift.bind, fails_lift.bind⟩
  · simp only [lift_ok, pure_bind]
    refine matches_bind matches_modify ?_
    rintro _ _ _ _ ⟨rfl, rfl⟩
    exact matches_pure ⟨rfl, rfl⟩

end Engine

end Validation
