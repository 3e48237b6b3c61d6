import Validation.Proofs.Descent.Parts
import Validation.Proofs.Engine.History
import Validation.Proofs.Engine.Modes

/-!
# Validation of recursive data ends

Classes may cascade into each other and into themselves, so the criteria that an evaluation goes
through form a graph with cycles, tied together by the engine. What goes down along every way through
it is the value: a class whose properties are stored asks for other classes only of what lies properly
inside the value it is applied to. So a chain of cascades is no longer than values lie deep in the
value that is validated.

* `Engine.ReadsStored`: an engine whose classes read their properties from stored fields.
* `asksOf_compiled`: what the criterion of a root asks for.
* `exists_answer`: a request is answered within a limit above the height of its value.
* `Engine.Call`, `Trial.Calls`, `Engine.Call.Opens`: the evaluations of classes within one evaluation.
* `validation_of_stored_data_ends`: every validator comes to a verdict, by ever smaller values.
-/

namespace Validation

namespace Analyser

variable {P : Constraint → Prop} {a : Analyser}

/-- The extractors that lead from a node of the tree lead to nothing that cascades. -/
def BareExtracted (n : Node) : Prop :=
  ∀ m ∈ n.nodes, ∀ k ∈ m.children, ∀ extractor, k.wrapper = .extracted extractor →
    k.node.cascades = []

theorem bareExtracted_of_built {t : AnnotatedType} : ∀ {location : Location} {n : Node},
    a.Built P t location n → BareExtracted n := by
  induction t using AnnotatedType.induction with
  | h t ih =>
    intro location n h
    obtain ⟨placed, cascade, nested, -, -, hnested, rfl⟩ := built_iff.1 h
    have hwrappers : ∀ p ∈ t.type.nested, ∀ extractor, p.1 ≠ .extracted extractor := by
      cases t.type <;> simp [DeclaredType.nested]
    have hbelow : ∀ k ∈ nested, (∀ extractor, k.wrapper ≠ .extracted extractor) ∧
        BareExtracted k.node := hnested.forall_mem fun p hp n hn => ⟨hwrappers p hp, ih p hp hn⟩
    intro m hm k hk extractor hwrapper
    -- the children are those that extractors lead to, and after them those for nested types
    rcases Node.mem_nodes.1 hm with rfl | ⟨k', hk', hm⟩
    · rcases List.mem_append.1 hk with hk | hk
      · obtain ⟨g, -, rfl⟩ := List.mem_map.1 hk
        rfl
      · exact absurd hwrapper ((hbelow k hk).1 extractor)
    · rcases List.mem_append.1 hk' with hk' | hk'
      · obtain ⟨g, -, rfl⟩ := List.mem_map.1 hk'
        rcases Node.mem_nodes.1 hm with rfl | ⟨k'', hk'', -⟩
        · cases hk
        · cases hk''
      · exact (hbelow k' hk').2 m hm k hk extractor hwrapper

end Analyser

namespace Engine

variable {P : Constraint → Prop} {S : Kind → Prop} {e e' : Engine} {root : Root} {t : Node}

/-- The classes of the engine read the properties that count from stored fields. -/
def ReadsStored (e : Engine) : Prop := ∀ className p, e.Declares className p → p.getter = none

theorem ReadsStored.of_ran (h : e.ReadsStored) (hran : Ran P S e e') : e'.ReadsStored := by
  intro className p hp
  refine h className p ?_
  simp only [Declares, schema?, hran.classes, hran.grows.config] at hp
  exact hp

section Tree

variable (hP : Assembles P S)
include hP

theorem bareExtracted_of_tree (he : Orderly P S e) (ht : e.trees.lookup root = some t) :
    Analyser.BareExtracted t := by
  obtain ⟨names, -, hbuilt⟩ := he.isBuilt hP ht
  cases root with
  | ofType type => exact Analyser.bareExtracted_of_built hbuilt
  | ofClass name =>
    obtain ⟨schema, -, hbuilt⟩ := hbuilt
    obtain ⟨constraints, children, -, hchildren, rfl⟩ := Analyser.builtClass_iff.1 hbuilt
    have hkept : ∀ k ∈ children, (∀ extractor, k.wrapper ≠ .extracted extractor) ∧
        Analyser.BareExtracted k.node := by
      refine hchildren.forall_mem fun part hpart m hm => ⟨?_, Analyser.bareExtracted_of_built hm⟩
      obtain ⟨p, -, rfl⟩ := List.mem_map.1 hpart
      exact nofun
    intro m hm k hk extractor hwrapper
    rcases Node.mem_nodes.1 hm with rfl | ⟨k', hk', hm⟩
    · exact absurd hwrapper ((hkept k hk).1 extractor)
    · exact (hkept k' hk').2 m hm k hk extractor hwrapper

/-- **The trees of stored classes descend.** -/
theorem descends_of_tree (he : Orderly P S e) (hstored : e.ReadsStored)
    (ht : e.trees.lookup root = some t) : ∀ m ∈ t.nodes, m.Descends := by
  intro m hm
  obtain ⟨names, -, -, hlaid⟩ := he.laid hP ht
  refine ⟨fun k hk accessor hwrapper => ?_, fun k hk => bareExtracted_of_tree hP he ht m hm k hk⟩
  have hjoins : ∀ type held, (e.analyserOf names).Joins e.Declares (.property accessor) type held →
      accessor.getter = none := by
    rintro - - ⟨hp⟩
    exact hstored _ _ hp
  exact hjoins _ _ (hwrapper ▸ (hlaid m hm).child k hk)

/-- The tree of a class has properties right below. -/
theorem ofProperties_of_tree (he : Orderly P S e) {name : String}
    (ht : e.trees.lookup (.ofClass name) = some t) : t.OfProperties := by
  obtain ⟨names, -, schema, -, hbuilt⟩ := he.isBuilt hP ht
  obtain ⟨constraints, children, -, hchildren, rfl⟩ := Analyser.builtClass_iff.1 hbuilt
  refine ⟨rfl, hchildren.forall_mem fun part hpart m _ => ?_⟩
  obtain ⟨p, -, rfl⟩ := List.mem_map.1 hpart
  exact ⟨_, rfl⟩

end Tree

/-- What the criterion of a root asks for of a value: parts of it that are not null, and if the root
is a class, proper parts. -/
structure Descending (root : Root) (v x : Value) : Prop where
  ne_null : x ≠ .null
  part : x.PartOf v
  proper : ∀ name, root = .ofClass name → x.ProperPartOf v

/-- **What a compiled criterion asks for.** -/
theorem asksOf_compiled (he : AsksOnly e) (hstored : e.ReadsStored) {c : Criterion.On Value}
    (hc : e.compiled.lookup root = some c) (v : Value) :
    (c.validate v).Meets (fun _ x => Descending root v x) (fun _ _ _ => True) fun _ => True := by
  obtain ⟨t, ht, hcompile⟩ := he.compiled root c hc
  obtain ⟨s, hs, rfl⟩ := compile_eq_ok_iff.1 hcompile
  have hheeds : ∀ m ∈ t.nodes, m.Heeds Node.AsksOf (fun _ _ _ => True) (fun _ _ _ => True) linked :=
    fun m hm => Node.heeds_of_descends (descends_of_tree asks_assemble he hstored ht m hm)
      (he.consists asks_assemble ht m hm).1
  have hmeets := Node.meets_finished Node.AsksOf (fun _ _ _ => True) (fun _ _ _ => trivial) hheeds hs v
  refine hmeets.mono (fun name x hasks => ⟨⟨hasks.ne_null, hasks.part, ?_⟩, fun _ h => h⟩) fun _ h => h
  rintro className rfl
  exact hasks.proper (ofProperties_of_tree asks_assemble he ht)

end Engine

/-- A trial comes to a verdict if its requests are answered. -/
theorem Trial.exists_yields (inv : Engine → Prop) {limit : Nat} {asked : String → Value → Prop}
    (hanswer : ∀ className v (s : Evaluation), inv s.engine → asked className v →
      ∃ verdict s', (Engine.answer limit className v).run s = some (verdict, s') ∧ inv s'.engine)
    {t : Trial Verdict} (ht : t.Meets asked (fun _ _ _ => True) fun _ => True) {s : Evaluation}
    (hs : inv s.engine) : ∃ verdict s', t.Yields limit s verdict s' := by
  induction t generalizing s with
  | done result => exact ⟨result, s, yields_done.2 ⟨rfl, rfl⟩⟩
  | note entry next ih =>
    obtain ⟨verdict, s', hrun⟩ := ih ht (s := { s with trail := entry :: s.trail }) hs
    exact ⟨verdict, s', yields_note.2 hrun⟩
  | cascade className v next ih =>
    obtain ⟨hasked, hnext⟩ := ht
    obtain ⟨answered, s₁, hrun, hs₁⟩ := hanswer className v s hs hasked
    obtain ⟨verdict, s', hrest⟩ := ih answered (hnext answered fun _ _ => trivial) hs₁
    exact ⟨verdict, s', yields_cascade.2 ⟨answered, s₁, hrun, hrest⟩⟩

namespace Engine

variable {e e' : Engine} {root : Root}

/-- An engine later whose kinds ask for no class. -/
abbrev RanAsking (e e' : Engine) : Prop := Ran Constraint.AsksNoClass Kind.AsksNoClass e e'

/-- **A request is answered** within every limit above the height of its value. -/
theorem exists_answer (hstored : e.ReadsStored) (limit : Nat) :
    ∀ className v (s : Evaluation), RanAsking e s.engine → v.height < limit →
      ∃ verdict s', (answer limit className v).run s = some (verdict, s') ∧
        RanAsking e s'.engine := by
  induction limit with
  | zero => exact fun _ _ _ _ hheight => absurd hheight (Nat.not_lt_zero _)
  | succ limit ih =>
    intro className v s hs hheight
    suffices hsome : ∃ verdict s', (answer (limit + 1) className v).run s = some (verdict, s') by
      obtain ⟨verdict, s', hrun⟩ := hsome
      exact ⟨verdict, s', hrun, ran_answer asks_assemble _ className v s s' verdict hs hrun⟩
    have hleads := leads_validator asks_assemble hs.orderly (.ofClass className)
    rw [answer_succ]
    -- a class that cannot be analysed is answered at once, by a failure
    rcases houtcome : outcome (validator (.ofClass className)) s.engine with ⟨error | w, e₁⟩
    · exact ⟨_, _, rfl⟩
    · obtain ⟨hran, -, hc, -⟩ := hleads.of_gives houtcome
      have hran₁ : RanAsking e e₁ := hs.trans hran
      -- the class asks for what lies inside the value only, which is less high
      have hasks := asksOf_compiled hran.orderly (hstored.of_ran hran₁) hc v
      refine Trial.exists_yields (RanAsking e) ?_ hasks hran₁
      intro name x s₁ hs₁ hdescends
      have hlower := Value.height_lt (hdescends.proper className rfl)
      exact ih name x s₁ hs₁ (by omega)

/-- **Every value comes to a verdict** within every limit above its height. -/
theorem exists_evaluate (he : AsksOnly e) (hstored : e.ReadsStored) {c : Criterion.On Value}
    (hc : e.compiled.lookup root = some c) {limit : Nat} {v : Value} (hlimit : v.height < limit) :
    ∃ r, e.evaluate limit c v = some r := by
  obtain ⟨verdict, s, hrun⟩ := Trial.exists_yields (RanAsking e) (s := ⟨e, []⟩)
    (fun name x s hs hdescends => exists_answer hstored limit name x s hs
      (Nat.lt_of_le_of_lt (Value.height_le hdescends.part) hlimit))
    (asksOf_compiled he hstored hc v) (.refl he)
  exact ⟨(verdict, s), hrun⟩

/-- A request for the verdict of a class on a value, in a state of the evaluation. -/
structure Call where
  className : String
  value : Value
  state : Evaluation

end Engine

/-- **The run of a trial comes to a request** when those before it are answered, within some limit. -/
inductive Trial.Calls : Trial Verdict → Evaluation → Engine.Call → Prop
  | request {className : String} {v : Value} {next : Verdict → Trial Verdict} {s : Evaluation} :
      Calls (.cascade className v next) s ⟨className, v, s⟩
  | note {entry : String} {next : Trial Verdict} {s : Evaluation} {call : Engine.Call}
      (h : Calls next { s with trail := entry :: s.trail } call) : Calls (.note entry next) s call
  | answered {className : String} {v : Value} {next : Verdict → Trial Verdict} {limit : Nat}
      {s s' : Evaluation} {verdict : Verdict} {call : Engine.Call}
      (hrun : (Engine.answer limit className v).run s = some (verdict, s'))
      (h : Calls (next verdict) s' call) : Calls (.cascade className v next) s call

namespace Engine

variable {e : Engine} {root : Root}

/-- A call leads to another right away: the class is analysed, and the run of its criterion on the
value comes to the other call. -/
def Call.Opens (call inner : Call) : Prop :=
  ∃ w e, Gives (validator (.ofClass call.className)) call.state.engine w e ∧
    (w.criterion.validate call.value).Calls { call.state with engine := e } inner

/-- The other call is made inside the evaluation of the class that the call asks for. -/
def Call.Contains : Call → Call → Prop := Relation.TransGen Call.Opens

/-- A call that is made somewhere in the run of a criterion on a value. -/
def Visits (e : Engine) (c : Criterion.On Value) (v : Value) (call : Call) : Prop :=
  ∃ first, (c.validate v).Calls ⟨e, []⟩ first ∧ Relation.ReflTransGen Call.Opens first call

/-- What a trial asks for when it is run, and where. -/
theorem calls_sound {asked : String → Value → Prop} {t : Trial Verdict} {s : Evaluation}
    {call : Call} (h : t.Calls s call) (hs : RanAsking e s.engine)
    (ht : t.Meets asked (fun _ _ _ => True) fun _ => True) :
    asked call.className call.value ∧ RanAsking e call.state.engine := by
  induction h with
  | request => exact ⟨ht.1, hs⟩
  | note h ih => exact ih hs ht
  | answered hrun h ih =>
    exact ih (ran_answer asks_assemble _ _ _ _ _ _ hs hrun) (ht.2 _ fun _ _ => trivial)

/-- **A call opens calls on proper parts only.** -/
theorem Call.Opens.descends {call inner : Call} (h : call.Opens inner) (hstored : e.ReadsStored)
    (hcall : RanAsking e call.state.engine) :
    inner.value ≠ .null ∧ inner.value.ProperPartOf call.value ∧ RanAsking e inner.state.engine := by
  obtain ⟨w, e₁, hw, hcalls⟩ := h
  obtain ⟨hran, -, hc, -⟩ := (leads_validator asks_assemble hcall.orderly _).of_gives hw
  have hran₁ : RanAsking e e₁ := hcall.trans hran
  have hasks := asksOf_compiled hran.orderly (hstored.of_ran hran₁) hc call.value
  obtain ⟨hdescends, hinner⟩ := calls_sound (e := e) hcalls hran₁ hasks
  exact ⟨hdescends.ne_null, hdescends.proper _ rfl, hinner⟩

/-- All calls inside a call are on proper parts. -/
theorem Call.Contains.descends {call inner : Call} (h : call.Contains inner)
    (hstored : e.ReadsStored) (hcall : RanAsking e call.state.engine) :
    inner.value ≠ .null ∧ inner.value.ProperPartOf call.value ∧ RanAsking e inner.state.engine := by
  induction h with
  | single h => exact h.descends hstored hcall
  | tail _ h ih =>
    obtain ⟨-, hproper, hran⟩ := ih
    obtain ⟨hnull, hproper', hran'⟩ := h.descends hstored hran
    exact ⟨hnull, hproper'.trans hproper, hran'⟩

/-- **A call in the run of a compiled criterion** is on a part of the value that is not null. -/
theorem Visits.descends (he : AsksOnly e) (hstored : e.ReadsStored) {c : Criterion.On Value}
    (hc : e.compiled.lookup root = some c) {v : Value} {call : Call} (h : e.Visits c v call) :
    Descending root v call.value ∧ RanAsking e call.state.engine := by
  obtain ⟨first, hcalls, hinside⟩ := h
  obtain ⟨hfirst, hran⟩ :=
    calls_sound (e := e) hcalls (.refl he) (asksOf_compiled he hstored hc v)
  rcases Relation.reflTransGen_iff_eq_or_transGen.1 hinside with rfl | hinside
  · exact ⟨hfirst, hran⟩
  · obtain ⟨hnull, hproper, hran'⟩ := Call.Contains.descends hinside hstored hran
    refine ⟨⟨hnull, hproper.to_reflTransGen.trans hfirst.part, fun name hname => ?_⟩, hran'⟩
    exact hproper.trans (hfirst.proper name hname)

end Engine

open Session in
/-- **Validation of recursive data ends.** Let a validator be kept after any history of a new engine,
with whatever cascades between the classes, as long as its classes read their properties from stored
fields and its kinds ask for no class themselves. Then every value comes to a verdict, within every
limit for chains of cascades above the height of the value. A class that is evaluated on the way,
through whatever cascades, is applied to a part of the value that is not null, and to a proper part
if the validator is that of a class; and every class that is evaluated inside the evaluation of
another one is applied to a proper part of the value of that one, which is less high. -/
theorem validation_of_stored_data_ends {config : Config} {catalog : Catalog} {kinds : List Kind}
    {extractors : List Extractor} {classes : List ClassSchema} {e : Engine}
    (hbuild : Engine.build config catalog kinds extractors classes = .ok e)
    (hkinds : ∀ kind ∈ e.catalog.kinds, kind.Every Kind.AsksNoClass) (history : List Action)
    (hstored : ((start e).after history).engine.ReadsStored) {name : String} {w : Validator}
    (hkept : (name, w) ∈ ((start e).after history).validators) (v : Value) :
    (∀ limit, v.height < limit →
      ∃ r, ((start e).after history).engine.evaluate limit w.criterion v = some r) ∧
    ∀ call, ((start e).after history).engine.Visits w.criterion v call →
      call.value ≠ .null ∧ call.value.PartOf v ∧
      (∀ className, w.root = .ofClass className → call.value.ProperPartOf v) ∧
      ∀ inner, call.Contains inner → inner.value ≠ .null ∧ inner.value.ProperPartOf call.value ∧
        inner.value.height < call.value.height := by
  obtain ⟨he, -⟩ := Engine.orderly_build (P := Constraint.AsksNoClass) hbuild hkinds
  obtain ⟨hafter, -⟩ := (OrderlyBy.start he).after Engine.asks_assemble history
  have hc := hafter.kept (name, w) hkept
  refine ⟨fun limit hlimit => Engine.exists_evaluate hafter.engine hstored hc hlimit, ?_⟩
  intro call hvisits
  obtain ⟨hcall, hran⟩ := hvisits.descends hafter.engine hstored hc
  refine ⟨hcall.ne_null, hcall.part, hcall.proper, fun inner hinner => ?_⟩
  obtain ⟨hnull, hproper, -⟩ := hinner.descends hstored hran
  exact ⟨hnull, hproper, Value.height_lt hproper⟩

namespace Nest

/-- Folders, which may hold one folder in an optional and others in a list. -/
def classes : List ClassSchema :=
  [⟨"Folder", [], [⟨"label", ⟨.text, [.constraint ⟨"not_null", .empty⟩]⟩, none⟩,
    ⟨"inner", .plain (.optional (Engine.cascadeInto "Folder")), none⟩,
    ⟨"others", .plain (.collection .list (Engine.cascadeInto "Folder")), none⟩]⟩]

/-- A new engine with the class. -/
def engine : Engine := ⟨{}, .builtin, Extractor.defaults, classes, .empty, [], [], []⟩

/-- The session after the validator of folders is asked for. -/
def session : Session := (Session.start engine).after [.validator "folder" (.ofClass "Folder")]

/-- A folder in a folder, as it stands instead of in an optional, with another one in a list. -/
def folder : Value :=
  .object "Folder" [("label", .text "a"),
    ("inner", .object "Folder" [("others", .list [.object "Folder" []])])]

theorem readsStored : session.engine.ReadsStored := by
  have hclasses : session.engine.classes = classes := by cbv
  have hsource : session.engine.config.propertySource = .field := by cbv
  rintro className p ⟨schema, hschema, hp⟩
  have hmem := List.mem_of_find?_eq_some hschema
  rw [hclasses, classes, List.mem_singleton] at hmem
  rw [hmem, hsource] at hp
  change p ∈ [_, _, _] at hp
  simp only [List.mem_cons, List.not_mem_nil, or_false] at hp
  rcases hp with rfl | rfl | rfl <;> rfl

end Nest

/-- Folders in folders are validated, within a limit that their depth sets. -/
theorem nested_folders_are_validated : ∃ w r, ("folder", w) ∈ Nest.session.validators ∧
    Nest.session.engine.evaluate 4 w.criterion Nest.folder = some r := by
  have hbuild : Engine.build {} .builtin [] [] Nest.classes = .ok Nest.engine := rfl
  have hkinds : ∀ kind ∈ Nest.engine.catalog.kinds, kind.Every Kind.AsksNoClass :=
    fun kind hkind => (Catalog.standard_builtin kind hkind).mono fun k hk =>
      (Catalog.probes_builtin k hk).asksNoClass
  have hnames : Nest.session.validators.map (·.1) = ["folder"] := by cbv
  have hheight : Nest.folder.height < 4 := by decide
  obtain ⟨⟨name, w⟩, hw, rfl⟩ := List.mem_map.1 (hnames ▸ List.mem_singleton_self "folder")
  obtain ⟨r, hr⟩ := (validation_of_stored_data_ends hbuild hkinds
    [.validator "folder" (.ofClass "Folder")] Nest.readsStored hw Nest.folder).1 4 hheight
  exact ⟨w, r, hw, hr⟩

end Validation
