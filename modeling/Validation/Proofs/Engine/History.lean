import Mathlib
import Validation.Proofs.Builtin
import Validation.Proofs.Engine.Open
import Validation.Session

/-!
# Histories of a session

Whatever is asked of an engine, in whatever order, and whether it succeeds or fails: what the engine
holds has been made by it, and the validators that are kept are compiled roots of it. A validator is
clear when every class that its root reaches has been found to be free of errors, and no value that is
validated by a clear validator yields an analysis error, then or later. All validators are clear as
long as the engine is closed, and it is closed unless a request has failed while it searched through a
cycle of cascades.

* `Session.perform`, `Session.after`: actions and histories.
* `OrderlyBy.after`: what holds after every history.
* `validators_are_clear`: when all validators are clear, and what that means for values.
* `cycle_hides_broken_class`: a history after which one is not.
-/

namespace Validation

namespace Engine

variable {P : Constraint → Prop} {S : Kind → Prop} {e e' : Engine}

theorem engine_register (schema : ClassSchema) (e : Engine) :
    (outcome (register schema) e).2 =
      if e.isRegistered schema.name then e else { e with classes := e.classes ++ [schema] } := by
  have hrun : ∀ x : Except AnalysisError Engine, (outcome (do
      set (← (x : Request Engine)) : Request PUnit) e).2 = x.toOption.getD e := by
    intro x
    cases x <;> rfl
  refine (hrun (e.withClass schema)).trans ?_
  unfold withClass
  split_ifs <;> rfl

/-- Registering a class. -/
theorem later_register (he : Orderly P S e) (schema : ClassSchema) :
    Later P S e (outcome (register schema) e).2 := by
  rw [engine_register]
  split_ifs
  · exact .refl he
  · have hgrows : Grows e { e with classes := e.classes ++ [schema] } :=
      ⟨rfl, rfl, rfl, fun _ _ hfound => schema?_register hfound schema, fun _ _ h => h,
        fun _ _ h => h, fun _ h => h⟩
    exact ⟨⟨he.kinds, he.constraints, fun root t ht => (he.trees root t ht).grows hgrows,
      he.compiled, he.analysed, he.eager⟩, hgrows, fun _ hroot hnew => absurd hroot hnew⟩

theorem closed_register (h : Closed e) (schema : ClassSchema) :
    Closed (outcome (register schema) e).2 := by
  rw [engine_register]
  split_ifs <;> exact h

/-- To build a tree keeps what does not speak of the interned constraints, even when it fails. -/
theorem keeps_buildTree {inv : Engine → Prop}
    (h : ∀ e constraints, inv e → inv { e with constraints := constraints }) (root : Root) :
    Keeps inv (buildTree root) fun _ => True := by
  have hinterning : ∀ {α : Type} (op : Interning α), Keeps inv (interning op) fun _ => True := by
    intro α op e he
    rw [outcome_interning]
    exact ⟨h e _ he, fun _ _ => trivial⟩
  refine keeps_bind (keeps_get fun _ h => h) fun e _ => ?_
  cases root with
  | ofClass name =>
    dsimp only
    split
    · exact hinterning _
    · exact keeps_throw
  | ofType type => exact hinterning _

/-- Asking for a tree keeps what building and publishing trees keeps, even when it fails. -/
theorem keeps_tree_of_publish {inv : Engine → Prop}
    (hconstraints : ∀ e constraints, inv e → inv { e with constraints := constraints })
    (htrees : ∀ e root t, inv e → inv { e with trees := insertAbsent root t e.trees })
    (root : Root) : Keeps inv (tree root) fun _ => True := by
  refine keeps_bind (keeps_get fun _ h => h) fun e' _ => ?_
  split
  · exact keeps_pure trivial
  · refine keeps_bind (keeps_buildTree hconstraints root) fun t _ => ?_
    exact keeps_bind (keeps_modify fun e he => htrees e root t he) fun _ _ => keeps_pure trivial

/-- Asking for a tree makes nothing public. -/
theorem keeps_tree (root : Root) (e : Engine) :
    Keeps (fun e' => e'.compiled = e.compiled ∧ e'.analysed = e.analysed) (tree root)
      fun _ => True := keeps_tree_of_publish (fun _ _ h => h) (fun _ _ _ h => h) root

/-- **A new engine** has its settings, its kinds, its extractors and its classes, and nothing else. -/
theorem build_eq_ok {config : Config} {catalog : Catalog} {kinds : List Kind}
    {extractors : List Extractor} {classes : List ClassSchema}
    (h : build config catalog kinds extractors classes = .ok e) :
    ∃ catalog' classes', kinds.foldlM Catalog.register catalog = .ok catalog' ∧
      e = ⟨config, catalog', Extractor.defaults ++ extractors, classes', .empty, [], [], []⟩ := by
  obtain ⟨catalog', hcatalog, h⟩ := bind_eq_ok.1 h
  -- over the classes that are registered so far
  have key : ∀ (classes registered : List ClassSchema),
      classes.foldlM withClass
          ⟨config, catalog', Extractor.defaults ++ extractors, registered, .empty, [], [], []⟩ = .ok e →
        ∃ classes', e =
          ⟨config, catalog', Extractor.defaults ++ extractors, classes', .empty, [], [], []⟩ := by
    intro classes
    induction classes with
    | nil =>
      intro registered h
      cases h
      exact ⟨registered, rfl⟩
    | cons schema classes ih =>
      intro registered h
      obtain ⟨e₁, hone, h⟩ := foldlM_cons_eq_ok.1 h
      unfold withClass at hone
      split_ifs at hone
      cases hone
      exact ih _ h
  obtain ⟨classes', he⟩ := key classes [] h
  exact ⟨catalog', classes', hcatalog, he⟩

/-- A new engine is orderly and closed. -/
theorem orderly_build {config : Config} {catalog : Catalog} {kinds : List Kind}
    {extractors : List Extractor} {classes : List ClassSchema}
    (h : build config catalog kinds extractors classes = .ok e)
    (hkinds : ∀ kind ∈ e.catalog.kinds, kind.Every S) : Orderly P S e ∧ Closed e := by
  obtain ⟨catalog', classes', -, rfl⟩ := build_eq_ok h
  exact ⟨⟨hkinds, ConstraintCache.all_empty, nofun, nofun, nofun, fun _ => rfl⟩, nofun⟩

theorem orderlyAny_build {config : Config} {catalog : Catalog} {kinds : List Kind}
    {extractors : List Extractor} {classes : List ClassSchema}
    (h : build config catalog kinds extractors classes = .ok e) : OrderlyAny e :=
  (orderly_build h fun kind _ => kind.every_of_forall fun _ => trivial).1

end Engine

namespace Session

/-- What can be done with a session. -/
inductive Action where
  | register (schema : ClassSchema)
  | tree (root : Root)
  /-- Makes the validator of a root and keeps it under a name. -/
  | validator (name : String) (root : Root)
  /-- Validates an object by its own class. -/
  | check (v : Value)
  /-- Validates a value by the validator of the name. -/
  | validate (name : String) (v : Value)

/-- What an action comes to: the error of a request, or else the verdict on a value if there is one
and the limit for chains of cascades is not reached. -/
def perform (s : Session) : Action → Except AnalysisError (Option Verdict) × Session
  | .register schema =>
    match s.ask (Engine.register schema) with
    | (result, s) => (result.map fun _ => none, s)
  | .tree root =>
    match s.ask (Engine.tree root) with
    | (result, s) => (result.map fun _ => none, s)
  | .validator name root =>
    match s.keepValidator name root with
    | (result, s) => (result.map fun _ => none, s)
  | .check v =>
    match s.check v with
    | (result, s) => (result.map (·.map (·.1)), s)
  | .validate name v =>
    match s.validators.lookup name with
    | some w =>
      match s.validate w.criterion v with
      | (verdict, s) => (.ok (verdict.map (·.1)), s)
    | none => (.ok none, s)

/-- The session after a history. -/
def after (s : Session) (history : List Action) : Session :=
  history.foldl (fun s a => (s.perform a).2) s

/-- The engine is orderly and there, and the validators that are kept are compiled in it. -/
structure OrderlyBy (P : Constraint → Prop) (S : Kind → Prop) (s : Session) : Prop where
  engine : Engine.Orderly P S s.engine
  kept : ∀ w ∈ s.validators, s.engine.compiled.lookup w.2.root = some w.2.criterion
  held : s.holdsEngine = true

/-- The session is orderly, and its kinds are quiet. -/
abbrev Orderly (s : Session) : Prop := s.OrderlyBy Constraint.IsQuiet Kind.IsQuiet

variable {P : Constraint → Prop} {S : Kind → Prop} {s s' : Session}

/-- Another engine, later. -/
theorem OrderlyBy.later (h : s.OrderlyBy P S) {e : Engine}
    (hlater : Engine.Later P S s.engine e) : OrderlyBy P S { s with engine := e } :=
  ⟨hlater.orderly, fun w hw => hlater.grows.compiled _ _ (h.kept w hw), h.held⟩

theorem validate_eq (h : s.holdsEngine = true) (c : Criterion.On Value) (v : Value) :
    s.validate c v =
      match s.engine.evaluate cascadeLimit c v with
      | some (verdict, state) => (some (verdict, state.notes), { s with engine := state.engine })
      | none => (none, s) := by
  have hengine : s.hasEngine = true := by rw [hasEngine, h, Bool.true_or]
  exact if_pos hengine

/-- Validating a value, whatever the criterion. -/
theorem OrderlyBy.validate (hP : Assembles P S) (h : s.OrderlyBy P S) (c : Criterion.On Value)
    (v : Value) :
    (s.validate c v).2.OrderlyBy P S ∧ Engine.Later P S s.engine (s.validate c v).2.engine := by
  rw [validate_eq h.held]
  split
  case h_1 verdict state heq =>
    have hlater := (Engine.ran_evaluate hP h.engine heq).toLater
    exact ⟨h.later hlater, hlater⟩
  case h_2 => exact ⟨h, .refl h.engine⟩

theorem ask_eq {α : Type} (request : Request α) (s : Session) :
    s.ask request =
      ((outcome request s.engine).1, { s with engine := (outcome request s.engine).2 }) := rfl

theorem later_ask {α : Type} {request : Request α} {post : α → Engine → Prop}
    (h : Engine.Leads P S s.engine request post) :
    Engine.Later P S s.engine (s.ask request).2.engine := h.1.toLater

/-- **What an action leaves.** -/
theorem OrderlyBy.perform (hP : Assembles P S) (h : s.OrderlyBy P S) (a : Action) :
    (s.perform a).2.OrderlyBy P S ∧ Engine.Later P S s.engine (s.perform a).2.engine := by
  cases a with
  | register schema =>
    have hlater := Engine.later_register h.engine schema
    exact ⟨h.later hlater, hlater⟩
  | tree root =>
    have hlater := later_ask (Engine.leads_tree hP h.engine root)
    exact ⟨h.later hlater, hlater⟩
  | validator name root =>
    have hleads := Engine.leads_validator hP h.engine root
    have hlater := hleads.1.toLater
    rw [Session.perform, keepValidator, ask_eq]
    rcases houtcome : outcome (Engine.validator root) s.engine with ⟨error | w, e⟩ <;>
    rw [houtcome] at hlater
    · exact ⟨h.later hlater, hlater⟩
    -- the validators that were kept before, and the new one
    · refine ⟨⟨hlater.orderly, fun kept hkept => ?_, h.held⟩, hlater⟩
      rcases mem_setField hkept with hkept | rfl
      · exact (h.later hlater).kept kept hkept
      · obtain ⟨hroot, hcompiled, -⟩ := hleads.2 w e houtcome
        rw [hroot]
        exact hcompiled
  | check v =>
    rw [Session.perform, check]
    cases v.className? with
    | none => exact ⟨h, .refl h.engine⟩
    | some name =>
      have hlater := (Engine.leads_validator hP h.engine (.ofClass name)).1.toLater
      dsimp only
      rw [ask_eq]
      rcases houtcome : outcome (Engine.validator (.ofClass name)) s.engine with ⟨error | w, e⟩ <;>
      rw [houtcome] at hlater
      · exact ⟨h.later hlater, hlater⟩
      · have hvalidate := (h.later hlater).validate hP w.criterion v
        exact ⟨hvalidate.1, hlater.trans hvalidate.2⟩
  | validate name v =>
    rw [Session.perform]
    cases s.validators.lookup name with
    | some w => exact h.validate hP w.criterion v
    | none => exact ⟨h, .refl h.engine⟩

/-- **What a history leaves.** -/
theorem OrderlyBy.after (hP : Assembles P S) (h : s.OrderlyBy P S) (history : List Action) :
    (s.after history).OrderlyBy P S ∧ Engine.Later P S s.engine (s.after history).engine := by
  induction history generalizing s with
  | nil => exact ⟨h, .refl h.engine⟩
  | cons a history ih =>
    obtain ⟨hone, hlater⟩ := h.perform hP a
    obtain ⟨hrest, hlater'⟩ := ih hone
    exact ⟨hrest, hlater.trans hlater'⟩

/-- Validating a value by a clear criterion. -/
theorem ranSoundly_validate (h : s.Orderly) {root : Root} {c : Criterion.On Value}
    (hc : s.engine.compiled.lookup root = some c) (hclear : s.engine.Clear root) (v : Value) :
    (∀ verdict notes, (s.validate c v).1 = some (verdict, notes) → verdict.Analysed) ∧
      (s.engine.Closed → (s.validate c v).2.engine.Closed) := by
  rw [validate_eq h.held]
  split
  case h_1 verdict state heq =>
    have hsound := Engine.ranSoundly_evaluate h.engine hclear hc heq
    refine ⟨fun verdict' notes h => ?_, hsound.closed⟩
    cases h
    exact hsound.analysed
  case h_2 => exact ⟨nofun, id⟩

/-- Checking an object in a session whose engine is closed. -/
theorem ranSoundly_check (h : s.Orderly) (hclosed : s.engine.Closed) (v : Value) :
    (∀ verdict, (s.perform (.check v)).1 = .ok (some verdict) → verdict.Analysed) ∧
      ∀ r, (s.perform (.check v)).1 = .ok r → (s.perform (.check v)).2.engine.Closed := by
  rw [perform, check]
  cases hname : v.className? with
  | none => exact ⟨nofun, nofun⟩
  | some name =>
    have hleads := Engine.leads_validator Engine.quiet_assemble h.engine (.ofClass name)
    dsimp only
    rw [ask_eq]
    rcases houtcome : outcome (Engine.validator (.ofClass name)) s.engine with ⟨error | w, e⟩
    · exact ⟨nofun, nofun⟩
    · obtain ⟨hran, -, hcompiled, hclosed'⟩ := hleads.of_gives houtcome
      have hclear := Engine.closed_iff.1 (hclosed' hclosed) _ (.inl ⟨_, hcompiled⟩)
      obtain ⟨hanalysed, hsound⟩ :=
        ranSoundly_validate (h.later hran.toLater) hcompiled hclear v
      refine ⟨fun verdict hverdict => ?_, fun _ _ => hsound (hclosed' hclosed)⟩
      obtain ⟨⟨verdict', notes⟩, hsome, rfl⟩ := Option.map_eq_some_iff.1 (Except.ok.inj hverdict)
      exact hanalysed verdict' notes hsome

/-- Whether the action searches through classes. -/
def Action.searches : Action → Bool
  | validator .. | check _ => true
  | _ => false

/-- **An action that does not fail leaves a closed engine closed**, and so does one that searches
through no classes. -/
theorem closed_perform (h : s.Orderly) (hclosed : s.engine.Closed) (a : Action)
    (ha : (∃ r, (s.perform a).1 = .ok r) ∨ a.searches = false) : (s.perform a).2.engine.Closed := by
  cases a with
  | register schema => exact Engine.closed_register hclosed schema
  | tree root =>
    have hlater := (h.perform Engine.quiet_assemble (.tree root)).2
    obtain ⟨⟨hcompiled, hanalysed⟩, -⟩ := Engine.keeps_tree root s.engine s.engine ⟨rfl, rfl⟩
    -- asking for a tree makes no class public
    refine hlater.closed_of_acyclic h.engine hclosed fun name hpublic hnew => absurd ?_ hnew
    have hpublic : Engine.Public (outcome (Engine.tree root) s.engine).2 (.ofClass name) := hpublic
    rwa [Engine.Public, hcompiled, hanalysed] at hpublic
  | validator name root =>
    have hleads := Engine.leads_validator Engine.quiet_assemble h.engine root
    obtain ⟨r, hr⟩ := ha.resolve_right (by simp [Action.searches])
    rw [perform, keepValidator, ask_eq] at hr ⊢
    rcases houtcome : outcome (Engine.validator root) s.engine with ⟨error | w, e⟩
    · rw [houtcome] at hr
      cases hr
    · exact (hleads.2 w e houtcome).2.2 hclosed
  | check v =>
    obtain ⟨r, hr⟩ := ha.resolve_right (by simp [Action.searches])
    exact (ranSoundly_check h hclosed v).2 r hr
  | validate name v =>
    rw [perform]
    cases hlookup : s.validators.lookup name with
    | none => exact hclosed
    | some w =>
      have hcompiled := h.kept (name, w) (mem_of_lookup hlookup)
      have hclear := Engine.closed_iff.1 hclosed w.root (.inl ⟨_, hcompiled⟩)
      exact (ranSoundly_validate h hcompiled hclear v).2 hclosed

theorem after_append (s : Session) (history later : List Action) :
    s.after (history ++ later) = (s.after history).after later := List.foldl_append

/-- **The engine stays closed** unless a request fails that searches through a cycle. -/
theorem closed_after (h : s.Orderly) (hclosed : s.engine.Closed) (history : List Action)
    (hacyclic : ∀ before a rest, history = before ++ a :: rest → a.searches = true →
      ∀ error, ((s.after before).perform a).1 = .error error →
        ∀ name, ¬ (s.after (before ++ [a])).engine.Reaches (.ofClass name) name) :
    (s.after history).engine.Closed := by
  induction history using List.reverseRecOn with
  | nil => exact hclosed
  | append_singleton history a ih =>
    have hbefore : (s.after history).engine.Closed := by
      refine ih fun before b rest heq => hacyclic before b (rest ++ [a]) ?_
      rw [heq, List.append_assoc, List.cons_append]
    obtain ⟨horderly, -⟩ := h.after Engine.quiet_assemble history
    have hlast := hacyclic history a [] rfl
    rw [after_append] at hlast ⊢
    rcases hresult : ((s.after history).perform a).1 with error | r
    · cases hsearches : a.searches with
      | false => exact closed_perform horderly hbefore a (.inr hsearches)
      | true =>
        -- what a failed search has made public is on no cycle
        have hlater := (horderly.perform Engine.quiet_assemble a).2
        exact hlater.closed_of_acyclic horderly.engine hbefore fun name _ _ =>
          hlast hsearches error hresult name
    · exact closed_perform horderly hbefore a (.inl ⟨r, hresult⟩)

theorem OrderlyBy.start {e : Engine} (he : Engine.Orderly P S e) : (start e).OrderlyBy P S :=
  ⟨he, by simp [Session.start], rfl⟩

end Session

open Session in
/-- **When all validators are clear.** After every history of a new engine whose kinds are quiet:

* the classes that the root of a validator reaches have been found to be free of errors, for every
  validator that a request returns, exactly when the engine is closed;
* the engine is closed unless a request has failed that searched through a cycle of cascades;
* as long as the classes that it reaches have been found to be free of errors when it was kept, no
  value that is validated by a validator yields an analysis error, whatever happens later. -/
theorem validators_are_clear {config : Config} {catalog : Catalog} {kinds : List Kind}
    {extractors : List Extractor} {classes : List ClassSchema} {e : Engine}
    (hbuild : Engine.build config catalog kinds extractors classes = .ok e)
    (hquiet : ∀ kind ∈ e.catalog.kinds, kind.Every Kind.IsQuiet) (history : List Action) :
    (((start e).after history).engine.Closed ↔
        ∀ root w e', Gives (Engine.validator root) ((start e).after history).engine w e' →
          e'.Clear root) ∧
      ((∀ before a rest, history = before ++ a :: rest → a.searches = true →
          ∀ error, (((start e).after before).perform a).1 = .error error →
            ∀ name, ¬ ((start e).after (before ++ [a])).engine.Reaches (.ofClass name) name) →
        ((start e).after history).engine.Closed) ∧
      (∀ w ∈ ((start e).after history).validators,
        ((start e).after history).engine.Clear w.2.root → ∀ later v verdict notes,
          (((start e).after (history ++ later)).validate w.2.criterion v).1 = some (verdict, notes) →
            verdict.Analysed) ∧
      (((start e).after history).engine.Closed → ∀ v verdict,
        (((start e).after history).perform (.check v)).1 = .ok (some verdict) →
          verdict.Analysed) := by
  obtain ⟨he, hclosed⟩ := Engine.orderly_build (P := Constraint.IsQuiet) hbuild hquiet
  have hstart : (start e).Orderly := .start he
  obtain ⟨horderly, -⟩ := hstart.after Engine.quiet_assemble history
  refine ⟨Engine.closed_iff_validators_clear Engine.quiet_assemble horderly.engine,
    closed_after hstart hclosed history, fun w hw hclear later v verdict notes => ?_,
    fun h v => (ranSoundly_check horderly h v).1⟩
  obtain ⟨hfinal, hlater⟩ := horderly.after Engine.quiet_assemble later
  rw [after_append]
  exact (ranSoundly_validate hfinal (hlater.grows.compiled _ _ (horderly.kept w hw))
    (hclear.grows horderly.engine hlater.grows) v).1 verdict notes

namespace Cycle

/-- A property of a class, cascaded into. -/
def cascaded (name className : String) : Property := ⟨name, Engine.cascadeInto className, none⟩

/-- Two classes that cascade into each other, the first of them into a broken class as well. -/
def classes : List ClassSchema :=
  [⟨"A", [], [cascaded "b" "B", cascaded "x" "Broken"]⟩, ⟨"B", [], [cascaded "a" "A"]⟩,
    ⟨"Broken", [], [⟨"p", ⟨.text, [.constraint ⟨"positive", .empty⟩]⟩, none⟩]⟩]

/-- A new engine with the classes. -/
def engine (eager : Bool) : Engine :=
  ⟨{ eagerCascade := eager }, .builtin, Extractor.defaults, classes, .empty, [], [], []⟩

/-- The validator of the first class is asked for, and then that of another root. -/
def session (eager : Bool) (root : Root) : Session :=
  (Session.start (engine eager)).after [.validator "a" (.ofClass "A"), .validator "b" root]

/-- The code of the failure of a value under a validator that is kept. -/
def codeOf? (s : Session) (name : String) (v : Value) : Option String :=
  match s.validators.lookup name with
  | none => none
  | some w =>
    match (s.validate w.criterion v).1 with
    | some (.error f, _) => some f.code
    | _ => none

/-- A request for a class that cannot be analysed is answered by an analysis error. -/
theorem yields_of_broken (limit : Nat) (className : String) {v : Value} {s : Evaluation}
    (h : (outcome (Engine.validator (.ofClass className)) s.engine).1.toOption.isSome = false) :
    ∃ f s', (Trial.cascade className v .done).Yields (limit + 1) s (.error f) s' ∧
      f.code = analysisCode := by
  rcases houtcome : outcome (Engine.validator (.ofClass className)) s.engine with ⟨error | w, e⟩
  · refine ⟨Engine.analysisFailure className error v, { s with engine := e }, ?_, ?_⟩
    · refine Trial.yields_cascade.2 ⟨_, _, ?_, Trial.yields_done.2 ⟨rfl, rfl⟩⟩
      rw [Engine.answer_succ, houtcome]
    · rw [Engine.analysisFailure, Failure.code_setParams]
      rfl
  · rw [houtcome] at h
    cases h

/-- The code of a value whose trial comes to an analysis error. -/
theorem codeOf?_of_yields {s : Session} {name : String} {v : Value} {t : Trial Verdict}
    (hs : s.holdsEngine = true)
    (ht : (s.validators.lookup name).map (·.criterion.validate v) = some t)
    (h : ∃ f s', t.Yields Session.cascadeLimit ⟨s.engine, []⟩ (.error f) s' ∧
      f.code = analysisCode) : codeOf? s name v = some analysisCode := by
  obtain ⟨w, hw, rfl⟩ := Option.map_eq_some_iff.1 ht
  obtain ⟨f, s', hyields, hcode⟩ := h
  have hevaluate : s.engine.evaluate Session.cascadeLimit w.criterion v = some (.error f, s') :=
    hyields
  rw [codeOf?, hw]
  dsimp only
  rw [Session.validate_eq hs, hevaluate, ← hcode]

end Cycle

/-- After a failed request for the broken class alone the engine is closed, and all its validators
are clear. -/
theorem broken_class_leaves_engine_closed :
    ((Session.start (Cycle.engine true)).after [.validator "x" (.ofClass "Broken")]).engine.Closed ∧
      ∀ root w e', Gives (Engine.validator root)
          ((Session.start (Cycle.engine true)).after
            [.validator "x" (.ofClass "Broken")]).engine w e' → e'.Clear root := by
  have hbuild : Engine.build { eagerCascade := true } .builtin [] [] Cycle.classes =
      .ok (Cycle.engine true) := rfl
  have h := validators_are_clear hbuild quiet_builtin [.validator "x" (.ofClass "Broken")]
  have htrees : ((Session.start (Cycle.engine true)).after
      [.validator "x" (.ofClass "Broken")]).engine.trees.length = 0 := by cbv
  have hclosed := h.2.1 fun before a rest heq _ _ _ name hreaches => by
    have hbefore : before ++ [a] = [.validator "x" (.ofClass "Broken")] := by
      rcases before with _ | ⟨b, before⟩ <;> simp_all
    rw [hbefore] at hreaches
    have hnone := List.eq_nil_of_length_eq_zero htrees
    cases hreaches with
    | one ht _ => simp [hnone] at ht
    | next _ ht _ => simp [hnone] at ht
  exact ⟨hclosed, h.1.1 hclosed⟩

/-- **A cycle hides a broken class.** The request for the first class fails, that for another root
succeeds in spite of it, and a value validated by its validator yields an analysis error. With eager
cascades the root is the second class of the cycle, with lazy ones a list of it. -/
theorem cycle_hides_broken_class :
    Cycle.codeOf? (Cycle.session true (.ofClass "B")) "b"
        (.object "B" [("a", .object "A" [])]) = some analysisCode ∧
      Cycle.codeOf? (Cycle.session false
          (.ofType ⟨.collection .list (Engine.cascadeInto "B"), []⟩)) "b"
        (.list [.object "B" [("a", .object "A" [])]]) = some analysisCode := by
  constructor
  · have htrial : ((Cycle.session true (.ofClass "B")).validators.lookup "b").map
        (·.criterion.validate (.object "B" [("a", .object "A" [])])) =
        some ((Trial.cascade "A" (.object "A" []) .done).mapFailure (·.within (.property "a"))) := by
      cbv
    obtain ⟨f, s', hyields, hcode⟩ := Cycle.yields_of_broken 99999 "A" (v := .object "A" [])
      (s := ⟨(Cycle.session true (.ofClass "B")).engine, []⟩) (by cbv)
    exact Cycle.codeOf?_of_yields (by cbv) htrial
      ⟨_, s', Trial.yields_mapFailure.2 ⟨.error f, hyields, rfl⟩, hcode⟩
  · have htrial : ((Cycle.session false
          (.ofType ⟨.collection .list (Engine.cascadeInto "B"), []⟩)).validators.lookup "b").map
        (·.criterion.validate (.list [.object "B" [("a", .object "A" [])]])) =
        some (((Trial.cascade "B" (.object "B" [("a", .object "A" [])]) .done).mapFailure
          (·.within (.index 0))).andThen fun _ => .pass) := by
      cbv
    obtain ⟨f, s', hyields, hcode⟩ := Cycle.yields_of_broken 99999 "B"
      (v := .object "B" [("a", .object "A" [])])
      (s := ⟨(Cycle.session false
        (.ofType ⟨.collection .list (Engine.cascadeInto "B"), []⟩)).engine, []⟩) (by cbv)
    exact Cycle.codeOf?_of_yields (by cbv) htrial ⟨_, s', Trial.yields_andThen.2
      (.inl ⟨_, Trial.yields_mapFailure.2 ⟨.error f, hyields, rfl⟩, rfl⟩), hcode⟩

end Validation
