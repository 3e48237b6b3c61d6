import Validation.Proofs.Engine.History
import Validation.Proofs.Tour.Targets
import Validation.Proofs.Tour.Recursion

/-!
# Compiling a graph of classes

The recursion that compiles a root ends, whatever classes cascade into which: it has an outcome as soon
as it may go deeper than there are classes, and that is the outcome of the request. With eager cascades
it covers the graph: what it compiles is the root and every class that the root cascades into, directly
or through others, and each of them once. No more than that is compiled because every step follows a
cascade, and none twice because what is entered is visited from then on. Nothing is missed because a
class that is skipped is in progress further out, and what is in progress is compiled in the end: then
the engine is closed.

* `Engine.Adds`: what a search has compiled, and that it is new.
* `follows_eagerStep`, `follows_search`, `follows_compileRoot`: the search that compiles ends.
* `compilation_ends_and_covers_the_graph`: requests for validators.
-/

namespace Validation.Engine

variable {P : Constraint → Prop} {S : Kind → Prop} {e₀ base : Engine} {root : Root} {t : Node}
  {tour tour₁ tour₂ : Tour} {visited visited₁ visited₂ : List String}

/-- **What a search has compiled**, in the order of compilation: each root once, roots with a property,
and of the classes only those that the search has visited. -/
def Adds (reached : Root → Prop) (visited visited' : List String) (tour tour' : Tour) : Prop :=
  ∃ added, tour'.made = tour.made ++ added ∧
    tour'.engine.compiled.map (·.1) = tour.engine.compiled.map (·.1) ++ added ∧ added.Nodup ∧
    ∀ root ∈ added, reached root ∧
      ∀ name, root = .ofClass name → name ∉ visited ∧ name ∈ visited'

theorem Adds.refl (reached : Root → Prop) (visited : List String) (tour : Tour) :
    Adds reached visited visited tour tour := ⟨[], by simp, by simp, .nil, by simp⟩

theorem Adds.mono {reached reached' : Root → Prop} (h : Adds reached visited visited₁ tour tour₁)
    (himp : ∀ root, reached root → reached' root) : Adds reached' visited visited₁ tour tour₁ := by
  obtain ⟨added, hmade, hkeys, hnodup, hall⟩ := h
  exact ⟨added, hmade, hkeys, hnodup, fun root hroot => ⟨himp root (hall root hroot).1,
    (hall root hroot).2⟩⟩

/-- A class that is reached through cascades. -/
def Below (base : Engine) (root root' : Root) : Prop :=
  ∃ name, root' = .ofClass name ∧ base.CascadesTo root name

/-- Of two searches for classes, one after another, the second compiles none that the first has
compiled, because that has visited them. -/
theorem Adds.trans (h : Adds (Below base root) visited visited₁ tour tour₁)
    (h' : Adds (Below base root) visited₁ visited₂ tour₁ tour₂)
    (hkept : ∀ name ∈ visited, name ∈ visited₁) (hkept' : ∀ name ∈ visited₁, name ∈ visited₂) :
    Adds (Below base root) visited visited₂ tour tour₂ := by
  obtain ⟨added, hmade, hkeys, hnodup, hall⟩ := h
  obtain ⟨added', hmade', hkeys', hnodup', hall'⟩ := h'
  refine ⟨added ++ added', by rw [hmade', hmade, List.append_assoc],
    by rw [hkeys', hkeys, List.append_assoc], ?_, fun r hr => ?_⟩
  · refine List.nodup_append.2 ⟨hnodup, hnodup', fun r hr r' hr' => ?_⟩
    rintro rfl
    obtain ⟨⟨name, rfl, -⟩, hvisited⟩ := hall r hr
    exact ((hall' _ hr').2 name rfl).1 (hvisited name rfl).2
  · rcases List.mem_append.1 hr with hr | hr
    · obtain ⟨hreached, hvisited⟩ := hall r hr
      exact ⟨hreached, fun name hname =>
        ⟨(hvisited name hname).1, hkept' name (hvisited name hname).2⟩⟩
    · obtain ⟨hreached, hvisited⟩ := hall' r hr
      exact ⟨hreached, fun name hname =>
        ⟨fun hold => (hvisited name hname).1 (hkept name hold), (hvisited name hname).2⟩⟩

/-- The root itself, or a class that it reaches. -/
def UpTo (base : Engine) (root root' : Root) : Prop := root' = root ∨ Below base root root'

/-- What is compiled for a class that a root cascades into is reached from the root. -/
theorem UpTo.below {name : String} {root' : Root} (h : UpTo base (.ofClass name) root')
    (hname : name ∈ base.targets root) : Below base root root' := by
  rcases h with rfl | ⟨name', rfl, hreaches⟩
  · exact ⟨name, rfl, .one hname⟩
  · exact ⟨name', rfl, hreaches.cons hname⟩

/-- The root comes last. -/
theorem Adds.publish
    (h : Adds (Below base root) (root.className?.toList ++ visited) visited₁ tour tour₁)
    (hnew : ∀ name, root = .ofClass name → name ∉ visited ∧ name ∈ visited₁)
    (hnone : tour.engine.compiled.lookup root = none) (c : Criterion.On Value) :
    Adds (UpTo base root) visited visited₁ tour
      { engine := { tour₁.engine with
          compiled := insertAbsent root c tour₁.engine.compiled }
        made := tour₁.made ++ [root] } := by
  obtain ⟨added, hmade, hkeys, hnodup, hall⟩ := h
  -- a class that was visited when the search began is not among those that it has compiled
  have hnot : root ∉ added := by
    intro hroot
    obtain ⟨⟨name, hname, -⟩, hvisited⟩ := hall root hroot
    subst hname
    exact (hvisited name rfl).1 (List.mem_append_left _ (List.mem_singleton_self name))
  have habsent : tour₁.engine.compiled.lookup root = none := by
    rw [List.lookup_eq_none_iff] at hnone ⊢
    intro entry hentry
    have hmem : entry.1 ∈ tour.engine.compiled.map (·.1) ++ added :=
      hkeys ▸ List.mem_map_of_mem hentry
    rcases List.mem_append.1 hmem with hmem | hmem
    · obtain ⟨entry', hentry', heq⟩ := List.mem_map.1 hmem
      rw [← heq]
      exact hnone entry' hentry'
    · rw [bne_iff_ne]
      rintro rfl
      exact hnot hmem
  refine ⟨added ++ [root], by simp [hmade], ?_, ?_, fun r hr => ?_⟩
  · simp only [insertAbsent, habsent, List.map_append, hkeys, List.map_cons, List.map_nil,
      List.append_assoc]
  · refine List.nodup_append.2 ⟨hnodup, List.nodup_singleton root, fun r hr r' hr' => ?_⟩
    rw [List.mem_singleton.1 hr']
    rintro rfl
    exact hnot hr
  · rcases List.mem_append.1 hr with hr | hr
    · obtain ⟨hreached, hvisited⟩ := hall r hr
      exact ⟨.inr hreached, fun name hname => ⟨fun hold =>
        (hvisited name hname).1 (List.mem_append_right _ hold), (hvisited name hname).2⟩⟩
    · rw [List.mem_singleton.1 hr]
      exact ⟨.inl rfl, hnew⟩

section Ends

/-- A class that is not registered has no tree. -/
theorem outcome_tree_of_unknown {e : Engine} (he : Orderly P S e) {name : String}
    (h : name ∉ e.classNames) :
    outcome (tree (.ofClass name)) e = (.error (.unknownClass name), e) := by
  have hnone : e.trees.lookup (.ofClass name) = none := by
    cases ht : e.trees.lookup (.ofClass name) with
    | none => rfl
    | some t => exact absurd (he.registered ht) h
  have hschema : e.schema? name = none := by
    cases hschema : e.schema? name with
    | none => rfl
    | some schema => exact absurd (schema?_isSome.1 ⟨schema, hschema⟩) h
  rw [tree, outcome_get, hnone]
  dsimp only
  rw [outcome_bind, buildTree, outcome_get]
  dsimp only
  rw [hschema]
  rfl

/-- A class that is not registered is refused. -/
theorem follows_compileRoot_of_unknown {name : String} (he : Orderly P S tour.engine)
    (hunknown : name ∉ tour.engine.classNames) (depth : Nat)
    {post : Criterion.On Value × List String → Tour → Prop} :
    Follows (compileWithin (depth + 1) visited (.ofClass name)) tour
      (compileRoot 0 visited (.ofClass name)) post := by
  have hnone : tour.engine.compiled.lookup (.ofClass name) = none := by
    cases hc : tour.engine.compiled.lookup (.ofClass name) with
    | none => rfl
    | some c =>
      obtain ⟨t, ht, -⟩ := he.compiled _ c hc
      exact absurd (he.registered ht) hunknown
  have htree : toured (asked (tree (.ofClass name))) tour =
      some (.error (.unknownClass name), tour) := by
    rw [toured_asked, outcome_tree_of_unknown he hunknown]
  refine ⟨tour.made, ?_, nofun⟩
  rw [compileWithin_succ, toured_bind, toured_asked_get]
  dsimp only
  rw [hnone]
  dsimp only
  rw [toured_bind, htree]
  rfl

/-- The root is compiled in the end, after the classes that the search has compiled before. -/
theorem follows_recorded (hnone : tour.engine.compiled.lookup root = none)
    (hadds : tour.engine.config.eagerCascade = true →
      Adds (Below base root) (root.className?.toList ++ visited) visited₁ tour tour₁)
    (hnew : ∀ name, root = .ofClass name → name ∉ visited)
    (hkept : ∀ name ∈ root.className?.toList ++ visited, name ∈ visited₁) :
    Follows (recorded root t visited₁) tour₁ (record root t visited₁) fun r tour' =>
      tour.engine.config.eagerCascade = true → Adds (UpTo base root) visited r.2 tour tour' := by
  refine follows_bind (follows_asked_lift _) ?_
  rintro c tour₂ - rfl
  refine follows_bind (follows_publish root c) ?_
  rintro - tour₃ - rfl
  refine follows_pure fun heager => (hadds heager).publish (fun name hname => ?_) hnone c
  exact ⟨hnew name hname, hkept name (by simp [hname, Root.className?])⟩

/-- To some depth the search that compiles follows the one with the given fuel. With eager cascades it
compiles what the root reaches, as it is seen from an engine before. -/
def CompilesWithin (P : Constraint → Prop) (S : Kind → Prop) (e₀ base : Engine) (fuel depth : Nat) :
    Prop :=
  ∀ {tour : Tour} {visited : List String} {root : Root}, Ran P S base tour.engine →
    Approaches e₀ tour.engine visited root →
    tour.engine.classes.length + 1 ≤ fuel + (root.className?.toList ++ visited).length →
    Follows (compileWithin depth visited root) tour (compileRoot fuel visited root) fun r tour' =>
      tour.engine.config.eagerCascade = true → Adds (UpTo base root) visited r.2 tour tour'

/-- A step of the search that compiles: what the class reaches the root reaches, too. -/
theorem follows_eagerStep {fuel depth : Nat} (hrest : CompilesWithin P S e₀ base fuel depth)
    (hran : Ran P S base tour.engine) {name : String} (htarget : name ∈ base.targets root)
    (happroaches : name ∉ visited → Approaches e₀ tour.engine visited (.ofClass name))
    (hroom : tour.engine.classes.length + 1 ≤ fuel + (name :: visited).length)
    (heager : tour.engine.config.eagerCascade = true) :
    Follows (eagerStepWithin depth visited name) tour (eagerStep fuel visited name)
      fun visited' tour' => Adds (Below base root) visited visited' tour tour' := by
  rw [eagerStepWithin, eagerStep]
  split
  case isTrue => exact follows_pure (.refl _ visited tour)
  case isFalse hdone =>
    rw [List.contains_iff_mem] at hdone
    refine follows_bind (hrest hran (happroaches hdone) hroom) ?_
    rintro ⟨c, visited'⟩ tour' - hadds
    exact follows_pure ((hadds heager).mono fun _ hroot => hroot.below htarget)

variable (hP : Assembles P S)
include hP

/-- **The search of what a root cascades into ends**, and with eager cascades it compiles what the root
reaches. -/
theorem follows_search {fuel depth : Nat} (hdepth : fuel < depth)
    (hrest : CompilesWithin P S e₀ base fuel depth) (hran : Ran P S base tour.engine)
    (h : Entered e₀ tour.engine root visited t)
    (hroom : tour.engine.classes.length + 1 ≤
      fuel + 1 + (root.className?.toList ++ visited).length) :
    Follows (searchWithin depth (root.className?.toList ++ visited) t) tour
      (search fuel (root.className?.toList ++ visited) t) fun visited' tour' =>
        tour.engine.config.eagerCascade = true →
          Adds (Below base root) (root.className?.toList ++ visited) visited' tour tour' := by
  have he := hran.orderly
  refine follows_get ?_
  split
  case isTrue heager =>
    -- after each class: where the search has come to, and what has been compiled
    let inv : List String → Tour → Prop := fun visited₁ tour₁ =>
      (Ran P S tour.engine tour₁.engine ∧
        Swept e₀ tour₁.engine (root.className?.toList ++ visited) visited₁) ∧
        Adds (Below base root) (root.className?.toList ++ visited) visited₁ tour tour₁
    refine (follows_foldlM inv ?_ ⟨⟨.refl he, h.swept⟩, .refl _ _ tour⟩).imp fun _ _ hinv _ => hinv.2
    rintro name hname visited₁ tour₁ ⟨⟨hran₁, hswept₁⟩, hadds₁⟩
    have htarget : name ∈ base.targets root := by
      rw [← targets_of_ran hran, ← he.mem_cascades hP h.tree]
      exact hname
    have happroaches : name ∉ visited₁ → Approaches e₀ tour₁.engine visited₁ (.ofClass name) :=
      h.approaches hname hran₁.grows hswept₁
    have hroom₁ : tour₁.engine.classes.length + 1 ≤ fuel + (name :: visited₁).length := by
      rw [hran₁.classes]
      exact hswept₁.room h.swept.nodup hroom name
    have heager₁ : tour₁.engine.config.eagerCascade = true := by rw [hran₁.grows.config, heager]
    have hleads := leads_eagerStep (leads_compileRoot hP fuel) hran₁.orderly hswept₁.again
      happroaches hroom₁
    have hstep := (follows_eagerStep hrest (hran.trans hran₁) htarget happroaches hroom₁
      heager₁).of_leads hleads
    refine hstep.imp ?_
    rintro visited₂ tour₂ ⟨hadds₂, hran₂, hswept₂, -⟩
    exact ⟨⟨hran₁.trans hran₂, hswept₁.trans hran₂.grows hswept₂⟩,
      hadds₁.trans hadds₂ hswept₁.kept hswept₂.kept⟩
  case isFalse hlazy =>
    have hsearch := follows_analyse hP fuel hdepth he h (by omega) (Bool.not_eq_true _ ▸ hlazy)
    exact hsearch.imp fun _ _ _ heager => absurd heager hlazy

/-- **The search that compiles ends**, and with eager cascades it compiles what the root reaches. -/
theorem follows_compileRoot (fuel : Nat) : ∀ {depth : Nat}, fuel < depth →
    CompilesWithin P S e₀ base fuel depth := by
  induction fuel with
  | zero =>
    intro depth hdepth tour visited root hbase h hroom
    obtain ⟨depth, rfl⟩ := Nat.exists_eq_succ_of_ne_zero (Nat.ne_of_gt hdepth)
    have hbound : visited.length ≤ tour.engine.classes.length := by
      have hsub : visited.Subperm tour.engine.classNames :=
        List.subperm_of_subset h.swept.nodup h.swept.registered
      simpa [classNames] using hsub.length_le
    cases root with
    | ofType type =>
      have hshort : tour.engine.classes.length + 1 ≤ 0 + visited.length := hroom
      omega
    | ofClass name =>
      -- all registered classes are visited, and this one is not
      have hfull : tour.engine.classes.length ≤ visited.length := by
        simp only [Root.className?, Option.toList_some, List.singleton_append, List.length_cons]
          at hroom
        omega
      have hunknown : name ∉ tour.engine.classNames := fun hname =>
        h.new name rfl (h.swept.exhausted hfull hname)
      exact follows_compileRoot_of_unknown hbase.orderly hunknown depth
  | succ fuel ih =>
    intro depth hdepth tour visited root hbase h hroom
    obtain ⟨depth, rfl⟩ := Nat.exists_eq_succ_of_ne_zero (Nat.ne_of_gt (Nat.zero_lt_of_lt hdepth))
    have hdepth := Nat.lt_of_succ_lt_succ hdepth
    have he := hbase.orderly
    rw [compileWithin_succ, compileRoot_succ]
    refine follows_get ?_
    cases hnone : tour.engine.compiled.lookup root with
    | some c => exact follows_pure fun _ => .refl _ visited tour
    | none =>
      have htree := (follows_asked_of_leads (leads_tree hP he root)).of_leads (leads_enter hP he h)
      refine follows_bind htree ?_
      rintro t tour₁ - ⟨⟨hmade₁, -, -, hcompiled₁, -, -⟩, hran₁, hentered⟩
      have hroom₁ : tour₁.engine.classes.length + 1 ≤
          fuel + 1 + (root.className?.toList ++ visited).length := by rwa [hran₁.classes]
      have hleads := leads_search hP (leads_compileRoot hP fuel) hran₁.orderly hentered hroom₁
      have hsearch := (follows_search hP hdepth (ih hdepth) (hbase.trans hran₁) hentered
        hroom₁).of_leads hleads
      refine follows_bind hsearch ?_
      rintro visited₂ tour₂ - ⟨hadds₂, -, hsearched⟩
      refine follows_recorded hnone (fun heager => ?_) h.new hsearched.swept.kept
      -- making the tree has compiled nothing
      obtain ⟨added, hmade, hkeys, hrest⟩ := hadds₂ (by rw [hran₁.grows.config, heager])
      exact ⟨added, by rw [hmade, hmade₁], by rw [hkeys, hcompiled₁], hrest⟩

end Ends

/-- The validator of a root, by a search to some depth of the recursion. -/
def validatorWithin (depth : Nat) (root : Root) : Touring Validator := do
  let (criterion, _) ← compileWithin depth [] root
  return ⟨root, criterion⟩

section Covers

variable (hP : Assembles P S)
include hP

/-- **Asking for a validator ends.** -/
theorem follows_validator (tour : Tour) (he : Orderly P S tour.engine) (root : Root) {depth : Nat}
    (hdepth : tour.engine.classes.length + 1 < depth) :
    Follows (validatorWithin depth root) tour (validator root) fun _ tour' =>
      tour.engine.config.eagerCascade = true →
        ∃ visited, Adds (UpTo tour.engine root) [] visited tour tour' := by
  suffices hbounded : Follows (validatorWithin depth root) tour (do
      let (criterion, _) ← compileRoot (tour.engine.classes.length + 1) [] root
      return ⟨root, criterion⟩ : Request Validator) fun _ tour' =>
        tour.engine.config.eagerCascade = true →
          ∃ visited, Adds (UpTo tour.engine root) [] visited tour tour' from hbounded
  refine follows_bind (follows_compileRoot hP _ hdepth (.refl he) (.start tour.engine root)
    (Nat.le_add_right _ _)) ?_
  rintro ⟨c, visited⟩ tour' - hadds
  exact follows_pure fun heager => ⟨visited, hadds heager⟩

/-- **No class of the graph is missing** when the first request with eager cascades succeeds. -/
theorem compiled_of_upTo {e e' : Engine} (he : Orderly P S e) (heager : e.config.eagerCascade = true)
    (hfirst : e.compiled = []) {w : Validator} (h : Gives (validator root) e w e') {root' : Root}
    (hroot' : UpTo e root root') : ∃ c, e'.compiled.lookup root' = some c := by
  obtain ⟨hran, -, hcompiled, hcloses⟩ := (leads_validator hP he root).of_gives h
  have he' := hran.orderly
  have heager' : e'.config.eagerCascade = true := by rw [hran.grows.config, heager]
  -- nothing is public at first, and nothing but what is compiled is public with eager cascades
  have hclosed : Closed e := by
    rintro root ((⟨c, hc⟩ | ⟨name, hname, -⟩)) <;> simp_all [he.eager heager]
  have hpublic : ∀ root, Public e' root → ∃ c, e'.compiled.lookup root = some c := by
    rintro root (hc | ⟨name, hname, -⟩)
    · exact hc
    · simp [he'.eager heager'] at hname
  have hstep : ∀ root name, Public e' root → name ∈ e.targets root →
      Public e' (.ofClass name) := by
    intro root name hroot hname
    obtain ⟨t, -, ht, -⟩ := he'.exists_tree hroot
    rw [← targets_of_ran hran, ← he'.mem_cascades hP ht] at hname
    exact hcloses hclosed root hroot t ht name hname
  refine hpublic root' ?_
  rcases hroot' with rfl | ⟨name, rfl, hreaches⟩
  · exact .inl ⟨_, hcompiled⟩
  · induction hreaches with
    | one hname => exact hstep root _ (.inl ⟨_, hcompiled⟩) hname
    | next _ hname ih => exact hstep _ _ ih hname

end Covers

end Validation.Engine

namespace Validation

open Engine Session

/-- **Compiling a graph of classes ends and covers the graph.** After every history of an engine,
whatever classes cascade into which, the search for the validator of a root ends: if it may go two
levels deeper than there are classes, it has an outcome, with the result or error and the engine that
the request comes to. If nothing has been compiled before, cascades are eager and the request succeeds,
then what is compiled is the root and the classes that it cascades into, directly or through others,
and each of them once. -/
theorem compilation_ends_and_covers_the_graph {config : Config} {catalog : Catalog}
    {kinds : List Kind} {extractors : List Extractor} {classes : List ClassSchema} {e e₁ : Engine}
    (hbuild : Engine.build config catalog kinds extractors classes = .ok e) (history : List Action)
    (hafter : ((start e).after history).engine = e₁) (root : Root) {depth : Nat}
    (hdepth : e₁.classes.length + 2 ≤ depth) :
    (∃ made, toured (validatorWithin depth root) ⟨e₁, []⟩ =
        some ((outcome (validator root) e₁).1, ⟨(outcome (validator root) e₁).2, made⟩)) ∧
      (e₁.config.eagerCascade = true → e₁.compiled = [] →
        ∀ w e', Gives (validator root) e₁ w e' →
          ∃ made, toured (validatorWithin depth root) ⟨e₁, []⟩ = some (.ok w, ⟨e', made⟩) ∧
            e'.compiled.map (·.1) = made ∧ made.Nodup ∧
            ∀ root', root' ∈ made ↔
              root' = root ∨ ∃ name, root' = .ofClass name ∧ e₁.CascadesTo root name) := by
  have he : OrderlyAny e₁ := by
    rw [← hafter]
    exact ((OrderlyBy.start (orderlyAny_build hbuild)).after any_assemble history).1.engine
  obtain ⟨made, hrun, hpost⟩ := follows_validator any_assemble ⟨e₁, []⟩ he root hdepth
  refine ⟨⟨made, hrun⟩, fun heager hfirst w e' hgives => ⟨made, ?_⟩⟩
  have houtcome : outcome (validator root) e₁ = (.ok w, e') := hgives
  rw [houtcome] at hrun hpost
  obtain ⟨visited, added, hmade, hkeys, hnodup, hall⟩ := hpost w rfl heager
  rw [List.nil_append] at hmade
  rw [hfirst, List.map_nil, List.nil_append] at hkeys
  dsimp only at hmade hkeys
  subst hmade
  refine ⟨hrun, hkeys, hnodup, fun root' => ⟨fun hroot' => (hall root' hroot').1, fun hroot' => ?_⟩⟩
  obtain ⟨c, hc⟩ := compiled_of_upTo any_assemble he heager hfirst hgives hroot'
  obtain ⟨l₁, l₂, hentries, -⟩ := List.lookup_eq_some_iff.1 hc
  rw [← hkeys, hentries]
  simp

namespace Mutual

/-- Two classes that cascade into each other, and one that they do not reach. -/
def classes : List ClassSchema :=
  [⟨"A", [], [Cycle.cascaded "b" "B"]⟩, ⟨"B", [], [Cycle.cascaded "a" "A"]⟩,
    ⟨"C", [], [Cycle.cascaded "a" "A"]⟩]

/-- A new engine with the classes. -/
def engine : Engine :=
  ⟨{ eagerCascade := true }, .builtin, Extractor.defaults, classes, .empty, [], [], []⟩

end Mutual

/-- The first of two classes that cascade into each other is compiled after the second, and nothing else
is compiled. -/
theorem mutual_classes_are_compiled_once : ∃ w e',
    toured (validatorWithin 5 (.ofClass "A")) ⟨Mutual.engine, []⟩ =
        some (.ok w, ⟨e', [.ofClass "B", .ofClass "A"]⟩) ∧
      e'.compiled.map (·.1) = [.ofClass "B", .ofClass "A"] ∧
      ∀ name, Mutual.engine.CascadesTo (.ofClass "A") name → name = "A" ∨ name = "B" := by
  have hbuild : Engine.build { eagerCascade := true } .builtin [] [] Mutual.classes =
      .ok Mutual.engine := rfl
  have hkeys : (outcome (validator (.ofClass "A")) Mutual.engine).2.compiled.map (·.1) =
      [.ofClass "B", .ofClass "A"] := by cbv
  have hok : (outcome (validator (.ofClass "A")) Mutual.engine).1.toOption.isSome = true := by cbv
  have hdepth : Mutual.engine.classes.length + 2 ≤ 5 := by decide
  rcases houtcome : outcome (validator (.ofClass "A")) Mutual.engine with ⟨error | w, e'⟩
  · rw [houtcome] at hok
    cases hok
  · rw [houtcome] at hkeys
    obtain ⟨made, hrun, hmade, -, hcovers⟩ := (compilation_ends_and_covers_the_graph hbuild
      [] rfl (.ofClass "A") hdepth).2 rfl rfl w e' houtcome
    rw [hkeys] at hmade
    subst hmade
    refine ⟨w, e', hrun, hkeys, fun name hname => ?_⟩
    simpa [or_comm] using (hcovers (.ofClass name)).2 (.inr ⟨name, rfl, hname⟩)

end Validation
