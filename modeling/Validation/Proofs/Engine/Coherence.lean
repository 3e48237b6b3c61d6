import Validation.Proofs.Engine.Requests
import Validation.Proofs.Interning.Replay

/-!
# Caches stay coherent

An engine publishes what it makes: the trees and criteria of roots and the classes found to be free of
errors. Requests fail at any depth, after having published some of this, and evaluations make requests
of their own, when the registry and the interned constraints have grown. Through all of that a
published tree is the one that its root would be built into at the time, for which not one constraint
more is interned; and what is published stays in its place.

* `Engine.Appends`: an engine later, with the same classes, trees and criteria in their places.
* `Engine.Rebuilt`: published trees are what building gives.
* `Engine.Coherent`: what the caches of an engine have in common.
* `caches_stay_coherent`: the engine after every history.
-/

namespace Validation

namespace Engine

variable {e e' e₀ e₁ : Engine} {root : Root} {t : Node}

/-! ### What is published stays -/

/-- **Only added to**: whatever is published in the first engine is published at the same place in the
second one. -/
structure Appends (e e' : Engine) : Prop where
  classes : e.classes <+: e'.classes
  trees : e.trees <+: e'.trees
  compiled : e.compiled <+: e'.compiled
  analysed : e.analysed <+: e'.analysed

theorem Appends.refl (e : Engine) : Appends e e :=
  ⟨List.prefix_rfl, List.prefix_rfl, List.prefix_rfl, List.prefix_rfl⟩

/-- Each root has one tree and one criterion. -/
structure Unambiguous (e : Engine) : Prop where
  trees : (e.trees.map (·.1)).Nodup
  compiled : (e.compiled.map (·.1)).Nodup

theorem keptByRequests_appends (e₀ : Engine) : KeptByRequests (Appends e₀) := by
  refine ⟨keeps_tree_of_publish (fun e constraints h => ?_) fun e root t h => ?_,
    fun e root c h => ?_, fun e name h => ?_⟩
  · exact ⟨h.classes, h.trees, h.compiled, h.analysed⟩
  · exact ⟨h.classes, h.trees.trans (prefix_insertAbsent root t e.trees), h.compiled, h.analysed⟩
  · exact ⟨h.classes, h.trees, h.compiled.trans (prefix_insertAbsent root c e.compiled), h.analysed⟩
  · exact ⟨h.classes, h.trees, h.compiled, h.analysed.trans (List.prefix_append _ _)⟩

theorem keptByRequests_unambiguous : KeptByRequests Unambiguous := by
  refine ⟨keeps_tree_of_publish (fun e constraints h => ?_) fun e root t h => ?_,
    fun e root c h => ?_, fun e name h => ?_⟩
  · exact ⟨h.trees, h.compiled⟩
  · exact ⟨nodup_keys_insertAbsent h.trees, h.compiled⟩
  · exact ⟨h.trees, nodup_keys_insertAbsent h.compiled⟩
  · exact ⟨h.trees, h.compiled⟩

/-- What does not speak of classes other than that there are more is kept by their registration. -/
theorem keeps_register {inv : Engine → Prop}
    (h : ∀ e schema, e.isRegistered schema.name = false → inv e →
      inv { e with classes := e.classes ++ [schema] }) (schema : ClassSchema) :
    Keeps inv (register schema) fun _ => True := by
  intro e he
  refine ⟨?_, fun _ _ => trivial⟩
  rw [engine_register]
  split
  case isTrue => exact he
  case isFalse hnew => exact h e schema (by simpa using hnew) he

/-! ### What building gives -/

/-- The second engine builds as the first one does: it has its settings, all its classes and all its
interned constraints. -/
structure Enlarges (e e' : Engine) : Prop where
  config : e'.config = e.config
  catalog : e'.catalog = e.catalog
  extractors : e'.extractors = e.extractors
  classes : ∀ name schema, e.schema? name = some schema → e'.schema? name = some schema
  constraints : e.constraints.Extends e'.constraints

theorem Enlarges.classNames (h : Enlarges e e') {name : String} (hname : name ∈ e.classNames) :
    name ∈ e'.classNames := classNames_of_classes h.classes hname

theorem Enlarges.analyser (h : Enlarges e e') :
    e'.analyser = { e.analyser with classNames := e'.classNames } := by
  rw [Engine.analyser, h.config, h.catalog, h.extractors]
  rfl

theorem gives_interning {α : Type} {op : Interning α} {a : α} :
    Gives (interning op) e a e' ↔
      ∃ cache, Gives op e.constraints a cache ∧ e' = { e with constraints := cache } := by
  rw [Gives, outcome_interning]
  constructor
  · intro h
    obtain ⟨ha, he'⟩ := Prod.mk.inj h
    exact ⟨_, Prod.ext ha rfl, he'.symm⟩
  · rintro ⟨cache, hop, rfl⟩
    rw [Gives] at hop
    rw [hop]

/-- An operation that replays itself in the larger engine finds there what it has interned. -/
theorem again_interning {α : Type} {op op' : Interning α} (hop : Replays op op') {a : α}
    (h : Gives (interning op) e a e₁) (hlarger : Enlarges e₁ e') : Gives (interning op') e' a e' := by
  obtain ⟨cache, hgives, rfl⟩ := gives_interning.1 h
  have hagain := hop.again hgives hlarger.constraints
  exact gives_interning.2 ⟨e'.constraints, hagain, rfl⟩

/-- **A tree is built once more** in a larger engine: the tree is the same, and nothing is interned. -/
theorem buildTree_again (h : Gives (buildTree root) e t e₁) (hlarger : Enlarges e₁ e') :
    Gives (buildTree root) e' t e' := by
  rw [buildTree, gives_get] at h ⊢
  cases root with
  | ofClass name =>
    dsimp only at h ⊢
    cases hschema : e.schema? name with
    | none =>
      rw [hschema] at h
      exact (gives_throw.1 h).elim
    | some schema =>
      rw [hschema] at h
      obtain ⟨cache, -, rfl⟩ := gives_interning.1 h
      have hschema' : e'.schema? name = some schema := hlarger.classes name schema hschema
      have hnames : ∀ name ∈ e.classNames, name ∈ e'.classNames := fun _ => hlarger.classNames
      -- the analysers differ in the names of classes only
      have hanalyser : e'.analyser = { e.analyser with classNames := e'.classNames } :=
        hlarger.analyser
      rw [hschema', hanalyser]
      exact again_interning (Analyser.replays_buildClass hnames schema) h hlarger
  | ofType type =>
    dsimp only at h ⊢
    obtain ⟨cache, -, rfl⟩ := gives_interning.1 h
    have hnames : ∀ name ∈ e.classNames, name ∈ e'.classNames := fun _ => hlarger.classNames
    have hanalyser : e'.analyser = { e.analyser with classNames := e'.classNames } :=
      hlarger.analyser
    rw [hanalyser]
    exact again_interning (Analyser.replays_buildType hnames type) h hlarger

theorem Enlarges.refl (e : Engine) : Enlarges e e :=
  ⟨rfl, rfl, rfl, fun _ _ h => h, .refl e.constraints⟩

/-- What is published does not matter for building. -/
theorem Enlarges.publish (h : Enlarges e e') (trees : List (Root × Node))
    (compiled : List (Root × Criterion.On Value)) (analysed : List String) :
    Enlarges e { e' with trees := trees, compiled := compiled, analysed := analysed } :=
  ⟨h.config, h.catalog, h.extractors, h.classes, h.constraints⟩

theorem enlarges_register (e : Engine) (schema : ClassSchema) :
    Enlarges e { e with classes := e.classes ++ [schema] } :=
  ⟨rfl, rfl, rfl, fun _ _ hfound => schema?_register hfound schema, .refl e.constraints⟩

/-- To build a tree enlarges the engine, even when it fails. -/
theorem enlarges_buildTree (root : Root) (e : Engine) :
    Enlarges e (outcome (buildTree root) e).2 := by
  have hinterning : ∀ {op op' : Interning Node}, Replays op op' →
      Enlarges e (outcome (interning op) e).2 := by
    intro op op' hop
    rw [outcome_interning]
    exact ⟨rfl, rfl, rfl, fun _ _ h => h, hop.grows e.constraints⟩
  have hnames : ∀ name ∈ e.analyser.classNames, name ∈ e.analyser.classNames := fun _ h => h
  rw [buildTree, outcome_get]
  cases root with
  | ofClass name =>
    dsimp only
    split
    · exact hinterning (Analyser.replays_buildClass hnames _)
    · exact .refl e
  | ofType type => exact hinterning (Analyser.replays_buildType hnames type)

/-- **Published trees are what building gives**: to build the root of one gives the same tree and
leaves the engine as it is. -/
def Rebuilt (e : Engine) : Prop :=
  ∀ root t, e.trees.lookup root = some t → Gives (buildTree root) e t e

theorem Rebuilt.enlarge (h : Rebuilt e) (hlarger : Enlarges e e') (htrees : e'.trees = e.trees) :
    Rebuilt e' := by
  intro root t ht
  rw [htrees] at ht
  exact buildTree_again (h root t ht) hlarger

/-- Asking for a tree: what is published afterwards was published before, or has just been built. -/
theorem keeps_rebuilt_tree (root : Root) : Keeps Rebuilt (tree root) fun _ => True := by
  intro e he
  refine ⟨?_, fun _ _ => trivial⟩
  have hlarger := enlarges_buildTree root e
  have htrees : Keeps (fun e' : Engine => e'.trees = e.trees) (buildTree root) fun _ => True :=
    keeps_buildTree (fun _ _ h => h) root
  obtain ⟨hsame, -⟩ := htrees e rfl
  rw [tree, outcome_get]
  cases hlookup : e.trees.lookup root with
  | some t => exact he
  | none =>
    simp only
    rw [outcome_bind]
    rcases houtcome : outcome (buildTree root) e with ⟨error | t, e₁⟩ <;>
    rw [houtcome] at hlarger hsame
    · exact he.enlarge hlarger hsame
    · have hpublished : Enlarges e { e₁ with trees := insertAbsent root t e₁.trees } :=
        hlarger.publish _ _ _
      have hbuilt : Enlarges e₁ { e₁ with trees := insertAbsent root t e₁.trees } :=
        (Enlarges.refl e₁).publish _ _ _
      intro root' t' ht'
      -- the trees of before, and the one that is published
      rcases lookup_insertAbsent ht' with ht' | ⟨rfl, rfl⟩
      · have hold : e.trees.lookup root' = some t' := hsame ▸ ht'
        exact buildTree_again (he root' t' hold) hpublished
      · exact buildTree_again houtcome hbuilt

theorem keptByRequests_rebuilt : KeptByRequests Rebuilt := by
  refine ⟨keeps_rebuilt_tree, fun e root c h => ?_, fun e name h => ?_⟩
  · exact h.enlarge ((Enlarges.refl e).publish _ _ _) rfl
  · exact h.enlarge ((Enlarges.refl e).publish _ _ _) rfl

/-! ### Coherence -/

/-- **The caches of an engine are coherent**: classes are registered when something of them is
published, criteria and analysed classes come with trees, each root has one of each, and published
trees are what building gives. -/
structure Coherent (e : Engine) : Prop where
  registered : ∀ name, .ofClass name ∈ e.trees.map (·.1) ∨ .ofClass name ∈ e.compiled.map (·.1) ∨
    name ∈ e.analysed → name ∈ e.classNames
  published : ∀ root, (root ∈ e.compiled.map (·.1) ∨ ∃ name ∈ e.analysed, root = .ofClass name) →
    root ∈ e.trees.map (·.1)
  unambiguous : Unambiguous e
  rebuilt : Rebuilt e

theorem Orderly.coherent (he : OrderlyAny e) (hunambiguous : Unambiguous e) (hrebuilt : Rebuilt e) :
    Coherent e := by
  have hpublic : ∀ root, (root ∈ e.compiled.map (·.1) ∨ ∃ name ∈ e.analysed, root = .ofClass name) →
      ∃ t, e.trees.lookup root = some t := by
    intro root hroot
    obtain ⟨t, -, ht, -⟩ := he.exists_tree (hroot.imp_left exists_lookup_of_mem_keys)
    exact ⟨t, ht⟩
  refine ⟨fun name hname => ?_, fun root hroot => ?_, hunambiguous, hrebuilt⟩
  · obtain ⟨t, ht⟩ : ∃ t, e.trees.lookup (.ofClass name) = some t := by
      rcases hname with hmem | hmem | hmem
      · exact exists_lookup_of_mem_keys hmem
      · exact hpublic _ (.inl hmem)
      · exact hpublic _ (.inr ⟨name, hmem, rfl⟩)
    exact he.registered ht
  · obtain ⟨t, ht⟩ := hpublic root hroot
    exact List.mem_map_of_mem (mem_of_lookup ht)

/-- The engine has published the tree as the one with the number, and requests for the root give it
and change nothing. -/
def ServesTree (e : Engine) (n : Nat) (root : Root) (t : Node) : Prop :=
  e.trees[n]? = some (root, t) ∧ Gives (tree root) e t e

/-- The engine has published the criterion as the one with the number, and requests for validators of
the root give it and change nothing. -/
def ServesCriterion (e : Engine) (n : Nat) (root : Root) (c : Criterion.On Value) : Prop :=
  e.compiled[n]? = some (root, c) ∧ Gives (validator root) e ⟨root, c⟩ e

theorem Unambiguous.servesTree (h : Unambiguous e) {n : Nat} (hn : e.trees[n]? = some (root, t)) :
    e.ServesTree n root t :=
  ⟨hn, tree_of_lookup (lookup_of_mem h.trees (List.mem_of_getElem? hn))⟩

theorem Unambiguous.servesCriterion (h : Unambiguous e) {n : Nat} {c : Criterion.On Value}
    (hn : e.compiled[n]? = some (root, c)) : e.ServesCriterion n root c :=
  ⟨hn, validator_of_compiled (lookup_of_mem h.compiled (List.mem_of_getElem? hn))⟩

end Engine

namespace Session

open Engine

variable {s : Session}

/-- **What a session does to its engine.** What is published stays in its place, roots keep one tree
and one criterion, and published trees stay what building gives. -/
theorem appends_after (s : Session) (history : List Action) :
    s.engine.Appends (s.after history).engine := by
  refine keeps_after (keptByRequests_appends s.engine) (keeps_register ?_) (.refl s.engine) history
  intro e schema _ h
  exact ⟨h.classes.trans (List.prefix_append _ _), h.trees, h.compiled, h.analysed⟩

theorem unambiguous_after (h : s.engine.Unambiguous) (history : List Action) :
    (s.after history).engine.Unambiguous := by
  refine keeps_after keptByRequests_unambiguous (keeps_register ?_) h history
  intro e schema _ h
  exact ⟨h.trees, h.compiled⟩

theorem rebuilt_after (h : s.engine.Rebuilt) (history : List Action) :
    (s.after history).engine.Rebuilt := by
  refine keeps_after keptByRequests_rebuilt (keeps_register ?_) h history
  intro e schema _ h
  exact h.enlarge (enlarges_register e schema) rfl

theorem engine_after_tree (s : Session) (root : Root) :
    (s.after [.tree root]).engine = (outcome (tree root) s.engine).2 := rfl

theorem engine_after_validator (s : Session) (name : String) (root : Root) :
    (s.after [.validator name root]).engine = (outcome (validator root) s.engine).2 := by
  have hperform : (s.after [.validator name root]).engine = (s.keepValidator name root).2.engine := rfl
  rw [hperform, keepValidator, ask_eq]
  rcases outcome (validator root) s.engine with ⟨error | w, e⟩ <;> rfl

theorem servesTree_after (h : s.engine.Unambiguous) {n : Nat} {root : Root} {t : Node}
    (hn : s.engine.trees[n]? = some (root, t)) (later : List Action) :
    (s.after later).engine.ServesTree n root t := by
  have hplace := getElem?_of_prefix (appends_after s later).trees hn
  exact (unambiguous_after h later).servesTree hplace

theorem servesCriterion_after (h : s.engine.Unambiguous) {n : Nat} {root : Root}
    {c : Criterion.On Value} (hn : s.engine.compiled[n]? = some (root, c)) (later : List Action) :
    (s.after later).engine.ServesCriterion n root c := by
  have hplace := getElem?_of_prefix (appends_after s later).compiled hn
  exact (unambiguous_after h later).servesCriterion hplace

end Session

open Session Engine in
/-- **Caches stay coherent.** After every history of a new engine, whose requests and evaluations may
have failed:

* something is published of registered classes only, and a tree is published of every root that is
  compiled and of every class that is analysed; the published tree of a root is what building the root
  gives at the time, for which nothing more is interned;
* whatever happens later, classes, trees, criteria and analysed classes stay in their places, and a
  published tree or criterion is what every later request for its root gives;
* a request for a tree or a validator that succeeds gives one that is published from then on. -/
theorem caches_stay_coherent {config : Config} {catalog : Catalog} {kinds : List Kind}
    {extractors : List Extractor} {classes : List ClassSchema} {e : Engine}
    (hbuild : Engine.build config catalog kinds extractors classes = .ok e) (history : List Action) :
    ((start e).after history).engine.Coherent ∧
      (∀ later, ((start e).after history).engine.Appends
        ((start e).after (history ++ later)).engine) ∧
      (∀ n root t, ((start e).after history).engine.trees[n]? = some (root, t) →
        ∀ later, ((start e).after (history ++ later)).engine.ServesTree n root t) ∧
      (∀ n root c, ((start e).after history).engine.compiled[n]? = some (root, c) →
        ∀ later, ((start e).after (history ++ later)).engine.ServesCriterion n root c) ∧
      (∀ root t e', Gives (tree root) ((start e).after history).engine t e' →
        ∃ n, ∀ later, ((start e).after (history ++ .tree root :: later)).engine.ServesTree n root t) ∧
      ∀ name root w e', Gives (validator root) ((start e).after history).engine w e' →
        w.root = root ∧ ∃ n, ∀ later, ((start e).after
          (history ++ .validator name root :: later)).engine.ServesCriterion n root w.criterion := by
  have he : OrderlyAny e := orderlyAny_build hbuild
  obtain ⟨catalog', classes', -, rfl⟩ := build_eq_ok hbuild
  have hnew : Unambiguous ⟨config, catalog', Extractor.defaults ++ extractors, classes', .empty, [],
      [], []⟩ := ⟨List.nodup_nil, List.nodup_nil⟩
  have hbuilt : Rebuilt ⟨config, catalog', Extractor.defaults ++ extractors, classes', .empty, [],
      [], []⟩ := nofun
  obtain ⟨horderly, -⟩ := (OrderlyBy.start he).after any_assemble history
  have hunambiguous := unambiguous_after (s := start _) hnew history
  have hrebuilt := rebuilt_after (s := start _) hbuilt history
  simp only [after_append]
  generalize (start _).after history = s at horderly hunambiguous hrebuilt
  refine ⟨horderly.engine.coherent hunambiguous hrebuilt, appends_after s, fun n root t hn => ?_,
    fun n root c hn => ?_, fun root t e' htree => ?_, fun name root w e' hw => ?_⟩
  · exact servesTree_after hunambiguous hn
  · exact servesCriterion_after hunambiguous hn
  · obtain ⟨-, hlookup, -⟩ := (leads_tree any_assemble horderly.engine root).of_gives htree
    -- as an action the request comes to the same engine
    have hengine : (s.after [.tree root]).engine = e' := by
      rw [engine_after_tree, show outcome (tree root) s.engine = _ from htree]
    rw [← hengine] at hlookup
    obtain ⟨n, hn⟩ := List.getElem?_of_mem (mem_of_lookup hlookup)
    exact ⟨n, servesTree_after (unambiguous_after hunambiguous _) hn⟩
  · obtain ⟨-, hroot, hlookup, -⟩ :=
      (leads_validator any_assemble horderly.engine root).of_gives hw
    have hengine : (s.after [.validator name root]).engine = e' := by
      rw [engine_after_validator, show outcome (validator root) s.engine = _ from hw]
    rw [← hengine] at hlookup
    obtain ⟨n, hn⟩ := List.getElem?_of_mem (mem_of_lookup hlookup)
    exact ⟨hroot, n, servesCriterion_after (unambiguous_after hunambiguous _) hn⟩

namespace Archive

/-- Folders with a name and a file. -/
def folder : ClassSchema :=
  ⟨"Folder", [], [⟨"name", ⟨.text, [.constraint ⟨"not_empty", .empty⟩]⟩, none⟩,
    ⟨"file", Engine.cascadeInto "File", none⟩]⟩

def file : ClassSchema :=
  ⟨"File", [], [⟨"size", ⟨.scalar .long, [.constraint ⟨"positive", .empty⟩]⟩, none⟩]⟩

/-- A class whose only constraint applies nowhere. -/
def broken : ClassSchema :=
  ⟨"Broken", [], [⟨"name", ⟨.text, [.constraint ⟨"positive", .empty⟩]⟩, none⟩]⟩

/-- A new engine that does not know files yet. -/
def engine : Engine := ⟨{}, .builtin, Extractor.defaults, [folder], .empty, [], [], []⟩

/-- The tree of folders is asked for, in vain before files are registered. -/
def history : List Session.Action :=
  [.tree (.ofClass "Folder"), .register file, .tree (.ofClass "Folder")]

/-- Another class is registered and asked for in vain, and a folder is checked. -/
def later : List Session.Action :=
  [.register broken, .validator "broken" (.ofClass "Broken"),
    .check (.object "Folder" [("name", .text "letters"), ("file", .object "File" [("size", .int 9)])])]

/-- The numbers of interned constraints, registered classes, trees and criteria. -/
def counts (s : Session) : List Nat :=
  [s.engine.constraints.size, s.engine.classes.length, s.engine.trees.length,
    s.engine.compiled.length]

end Archive

/-- The tree of folders stays the first one when the caches grow, and is what building gives then. -/
theorem folder_keeps_its_tree :
    Archive.counts ((Session.start Archive.engine).after [.tree (.ofClass "Folder")]) =
        [3, 1, 0, 0] ∧
      Archive.counts ((Session.start Archive.engine).after Archive.history) = [3, 2, 1, 0] ∧
      Archive.counts ((Session.start Archive.engine).after (Archive.history ++ Archive.later)) =
        [4, 3, 2, 2] ∧
      ∃ t, ((Session.start Archive.engine).after Archive.history).engine.trees[0]? =
          some (.ofClass "Folder", t) ∧
        ((Session.start Archive.engine).after (Archive.history ++ Archive.later)).engine.ServesTree 0
          (.ofClass "Folder") t ∧
        Gives (Engine.buildTree (.ofClass "Folder"))
          ((Session.start Archive.engine).after (Archive.history ++ Archive.later)).engine t
          ((Session.start Archive.engine).after (Archive.history ++ Archive.later)).engine := by
  refine ⟨by cbv, by cbv, by cbv, ?_⟩
  have hbuild : Engine.build {} .builtin [] [] [Archive.folder] = .ok Archive.engine := rfl
  have hfirst : (((Session.start Archive.engine).after Archive.history).engine.trees[0]?).map (·.1) =
      some (.ofClass "Folder") := by cbv
  obtain ⟨⟨root, t⟩, ht, rfl⟩ := Option.map_eq_some_iff.1 hfirst
  have hserves := (caches_stay_coherent hbuild Archive.history).2.2.1 0 _ t ht Archive.later
  have hcoherent := (caches_stay_coherent hbuild (Archive.history ++ Archive.later)).1
  have hlookup := lookup_of_mem hcoherent.unambiguous.trees (List.mem_of_getElem? hserves.1)
  exact ⟨t, ht, hserves, hcoherent.rebuilt _ t hlookup⟩

end Validation
