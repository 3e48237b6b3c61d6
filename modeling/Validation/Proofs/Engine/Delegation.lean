import Validation.Proofs.Engine.History
import Validation.Proofs.Verdict.Trees

/-!
# Cascading is delegation

A place that cascades into a class and declares nothing else leaves its values to the validator of
the class: null passes, and any other value comes to what that validator makes of it. As the value of
a property it does so under the name of the property. The classes may refer to each other and to
themselves, since all that is asked for is the verdict on one value, and the class is compiled.

* `Engine.Evaluates`: what an evaluation comes to, within whatever limit.
* `Engine.LeavesTo`: a class in which nothing is declared but one cascaded property.
* `evaluates_cascadeCheck`: a cascade into a compiled class.
* `cascading_is_delegation`: types and properties that cascade into a class.
-/

namespace Validation

/-- A trial comes to the same within two limits if the answers to its requests do. -/
theorem Trial.Yields.of_answers {limit limit' : Nat}
    (hanswer : ∀ className v (s : Evaluation) r, (Engine.answer limit className v).run s = some r →
      (Engine.answer limit' className v).run s = some r)
    {t : Trial Verdict} {s s' : Evaluation} {verdict : Verdict} (h : t.Yields limit s verdict s') :
    t.Yields limit' s verdict s' := by
  induction t generalizing s with
  | done result => exact h
  | note entry next ih => exact yields_note.2 (ih (yields_note.1 h))
  | cascade className v next ih =>
    obtain ⟨answered, s₁, hrun, h⟩ := yields_cascade.1 h
    exact yields_cascade.2 ⟨answered, s₁, hanswer className v s _ hrun, ih answered h⟩

namespace Engine

variable {P : Constraint → Prop} {S : Kind → Prop} {e : Engine} {root : Root} {t : Node}

/-- **A higher limit changes nothing** about the answers that are there within a lower one. -/
theorem answer_mono (limit : Nat) : ∀ {limit' : Nat}, limit ≤ limit' →
    ∀ className v (s : Evaluation) r, (answer limit className v).run s = some r →
      (answer limit' className v).run s = some r := by
  induction limit with
  | zero => exact fun _ _ _ _ _ h => nomatch h
  | succ limit ih =>
    intro limit' hle className v s r h
    obtain ⟨limit', rfl⟩ : ∃ n, limit' = n + 1 := Nat.exists_eq_add_one.2 (by omega)
    rw [answer_succ] at h ⊢
    rcases houtcome : outcome (validator (.ofClass className)) s.engine with ⟨error | w, e⟩
    · rw [houtcome] at h
      exact h
    · rw [houtcome] at h
      exact Trial.Yields.of_answers (ih (Nat.le_of_succ_le_succ hle)) h

/-- **What an evaluation comes to**: the verdict, with the notes of the run and the engine after it. -/
def Evaluates (e : Engine) (c : Criterion.On Value) (v : Value) (r : Verdict × Evaluation) : Prop :=
  ∃ limit, e.evaluate limit c v = some r

/-- An evaluation comes to one result, whatever the limit. -/
theorem evaluates_unique {c : Criterion.On Value} {v : Value} {r r' : Verdict × Evaluation}
    (h : e.Evaluates c v r) (h' : e.Evaluates c v r') : r = r' := by
  obtain ⟨limit, h⟩ := h
  obtain ⟨limit', h'⟩ := h'
  have hraise : ∀ {n r}, n ≤ max limit limit' → e.evaluate n c v = some r →
      e.evaluate (max limit limit') c v = some r :=
    fun hle hn => Trial.Yields.of_answers (answer_mono _ hle) hn
  exact Option.some.inj ((hraise (Nat.le_max_left ..) h).symm.trans (hraise (Nat.le_max_right ..) h'))

/-- A request for the verdict of a compiled class is a run of its criterion. -/
theorem answer_of_compiled {className : String} {c : Criterion.On Value}
    (hc : e.compiled.lookup (.ofClass className) = some c) (limit : Nat) (v : Value)
    (trail : List String) :
    (answer (limit + 1) className v).run ⟨e, trail⟩ =
      ((c.validate v).runIn addNote (answer limit)).run ⟨e, trail⟩ := by
  have houtcome : outcome (validator (.ofClass className)) e = (.ok ⟨.ofClass className, c⟩, e) :=
    validator_of_compiled hc
  rw [answer_succ, houtcome]

section Evaluates

variable {c own : Criterion.On Value} {className : String} {v x : Value} {f : Enhancer}

theorem evaluates_pass (h : c.validate v = .pass) {r : Verdict × Evaluation} :
    e.Evaluates c v r ↔ r = (.ok (), ⟨e, []⟩) := by
  constructor
  · rintro ⟨limit, hrun⟩
    rw [evaluate, h] at hrun
    exact (Option.some.inj hrun).symm
  · rintro rfl
    exact ⟨0, by rw [evaluate, h]; rfl⟩

/-- **A cascade into a compiled class**, under a change of failures, comes to what the criterion of the
class comes to. -/
theorem evaluates_cascadeCheck (hown : e.compiled.lookup (.ofClass className) = some own)
    (hc : c.validate v = (cascadeCheck className x).mapFailure f) (hx : x ≠ .null)
    {r : Verdict × Evaluation} :
    e.Evaluates c v r ↔
      ∃ verdict s, e.Evaluates own x (verdict, s) ∧ r = (verdict.mapError f, s) := by
  have hcascade : cascadeCheck className x = .cascade className x .done := by
    unfold cascadeCheck
    cases x <;> first | rfl | exact absurd rfl hx
  rw [hcascade] at hc
  constructor
  · rintro ⟨limit, hrun⟩
    obtain ⟨verdict, s⟩ := r
    have hyields : ((Trial.cascade className x .done).mapFailure f).Yields limit ⟨e, []⟩ verdict s :=
      hc ▸ hrun
    obtain ⟨answered, hcascaded, rfl⟩ := Trial.yields_mapFailure.1 hyields
    obtain ⟨_, _, hanswer, hdone⟩ := Trial.yields_cascade.1 hcascaded
    obtain ⟨rfl, rfl⟩ := Trial.yields_done.1 hdone
    -- an answer takes one from the limit
    cases limit with
    | zero => cases hanswer
    | succ limit =>
      rw [answer_of_compiled hown] at hanswer
      exact ⟨answered, s, ⟨limit, hanswer⟩, rfl⟩
  · rintro ⟨verdict, s, ⟨limit, hrun⟩, rfl⟩
    refine ⟨limit + 1, ?_⟩
    have hanswer := (answer_of_compiled hown limit x []).trans hrun
    have hyields : (c.validate v).Yields (limit + 1) ⟨e, []⟩ (verdict.mapError f) s := by
      rw [hc]
      exact Trial.yields_mapFailure.2 ⟨verdict, Trial.yields_cascade.2
        ⟨verdict, s, hanswer, Trial.yields_done.2 ⟨rfl, rfl⟩⟩, rfl⟩
    exact hyields

/-- A cascade into a compiled class on its own. -/
theorem evaluates_cascade (hown : e.compiled.lookup (.ofClass className) = some own) (hv : v ≠ .null)
    {r : Verdict × Evaluation} :
    e.Evaluates (.leaf (cascadeCheck className)) v r ↔ e.Evaluates own v r := by
  have hplain : (Criterion.leaf (cascadeCheck className)).validate v =
      (cascadeCheck className v).mapFailure id := (Trial.mapFailure_id _).symm
  have hid : ∀ verdict : Verdict, verdict.mapError id = verdict := by
    intro verdict
    cases verdict <;> rfl
  rw [evaluates_cascadeCheck hown hplain hv]
  constructor
  · rintro ⟨verdict, s, hrun, rfl⟩
    rw [hid]
    exact hrun
  · intro hrun
    exact ⟨r.1, r.2, hrun, by rw [hid]⟩

end Evaluates

/-- The node of a place with a cascade into a class and nothing else. -/
def cascadeNode (location : Location) (name : String) : Node :=
  ⟨location, .classOf name, [], some name, []⟩

theorem eq_cascadeNode {a : Analyser} {location : Location} {name : String} {n : Node}
    (h : a.Built P (cascadeInto name) location n) : n = cascadeNode location name := by
  obtain ⟨placed, cascade, nested, hplaced, hcascade, hnested, rfl⟩ := Analyser.built_iff.1 h
  have hnone := Analyser.placed_empty hplaced
  change _ = true at hnone
  rw [Bool.and_eq_true, List.isEmpty_iff, List.isEmpty_iff] at hnone
  obtain ⟨target, htarget, rfl⟩ := hcascade
  obtain ⟨hname, -⟩ := Analyser.cascadeTarget_eq_ok.1 htarget
  cases hname
  obtain rfl := Analyser.ChildrenFor.nil_iff.1 hnested
  rw [hnone.1, hnone.2]
  rfl

theorem finished_cascadeNode (location : Location) (name : String) :
    (cascadeNode location name).finished linked = .ok (.onValues (.leaf (cascadeCheck name))) := by
  have hnone : (cascadeNode location name).contributions linked = [] := by
    simp [cascadeNode, Node.contributions, Node.own, Node.parts, Order.sort]
  refine Node.finished_eq_ok_iff.2 ⟨[.leaf (cascadeCheck name)], ?_, rfl⟩
  rw [hnone]
  exact .cons rfl .nil

/-- The criterion of a type that cascades into a class. -/
theorem compiled_cascadeInto (he : OrderlyAny e) {name : String} {c : Criterion.On Value}
    (hc : e.compiled.lookup (.ofType (cascadeInto name)) = some c) :
    c = .leaf (cascadeCheck name) := by
  obtain ⟨t, ht, hcompile⟩ := he.compiled _ c hc
  obtain ⟨names, -, hbuilt⟩ := he.isBuilt any_assemble ht
  obtain rfl := eq_cascadeNode hbuilt
  obtain ⟨s, hs, rfl⟩ := compile_eq_ok_iff.1 hcompile
  rw [finished_cascadeNode] at hs
  cases hs
  rfl

/-- **A class leaves an object to another class** by one of its properties: the property cascades into
that class, and nothing else is declared of the class. -/
structure LeavesTo (e : Engine) (className : String) (p : Property) (target : String) : Prop where
  type : p.type = cascadeInto target
  declared : ∃ schema, e.schema? className = some schema ∧ schema.declarations = [] ∧
    p ∈ schema.effectiveProperties e.config.propertySource ∧
      ∀ q ∈ schema.effectiveProperties e.config.propertySource, q ≠ p → q.type.declares = false

/-- Its tree has one child. -/
theorem LeavesTo.tree {className : String} {p : Property} {target : String}
    (h : e.LeavesTo className p target) (he : OrderlyAny e)
    (ht : e.trees.lookup (.ofClass className) = some t) :
    ∃ location below, t = ⟨location, .classOf className, [], none,
      [⟨.property p.accessor, cascadeNode below target⟩]⟩ := by
  obtain ⟨schema, hschema, hdeclarations, hp, hother⟩ := h.declared
  obtain ⟨names, -, schema', hschema', constraints, children, hconstraints, hchildren, rfl⟩ :=
    he.isBuilt any_assemble ht
  obtain rfl : schema = schema' := Option.some.inj (hschema.symm.trans hschema')
  have hname : schema.name = className := by simpa using List.find?_some hschema
  rw [hdeclarations] at hconstraints
  cases hconstraints
  have hchildren : children.flatten =
      [⟨.property p.accessor, cascadeNode ((Location.ofRoot schema.name).child (.property p.name))
        target⟩] := by
    -- of all properties only this one has something to check
    refine flatten_of_forall₂ hchildren (schema.nodup_effectiveProperties _).of_map hp ?_ ?_
    · rintro _ ⟨m, hm, rfl⟩
      rw [h.type] at hm
      obtain rfl := eq_cascadeNode hm
      rfl
    · rintro q hq hne _ ⟨m, hm, rfl⟩
      have hempty : m.isEmpty = true := by
        rw [Analyser.isEmpty_built hm, hother q hq hne, Bool.not_false]
      rw [Analyser.keep, if_pos hempty]
  exact ⟨_, _, by rw [hchildren, hname]⟩

/-- What its criterion makes of an object. -/
theorem LeavesTo.validate {className : String} {p : Property} {target : String}
    (h : e.LeavesTo className p target) (he : OrderlyAny e) {c : Criterion.On Value}
    (hc : e.compiled.lookup (.ofClass className) = some c) (name : String)
    (fields : List (String × Value)) :
    c.validate (.object name fields) = (cascadeCheck target
      (p.accessor.read (.object name fields))).mapFailure (·.within (.property p.name)) := by
  obtain ⟨t, ht, hcompile⟩ := he.compiled _ c hc
  obtain ⟨s, hs, rfl⟩ := compile_eq_ok_iff.1 hcompile
  obtain ⟨location, below, rfl⟩ := h.tree he ht
  -- the child is all that the node collects
  have hone : Node.contributions linked ⟨location, .classOf className, [], none,
      [⟨.property p.accessor, cascadeNode below target⟩]⟩ =
        [Node.part linked ⟨.property p.accessor, cascadeNode below target⟩] := by
    simp [Node.contributions, Node.own, Node.parts, Node.part, Order.sort]
  have hpart : (Node.part linked ⟨.property p.accessor, cascadeNode below target⟩).2 () =
      .ok (.onValues (.leaf (Wrapper.checkProperty p.accessor (.leaf (cascadeCheck target))))) := by
    rw [Node.part]
    simp only [finished_cascadeNode, ok_bind]
    rfl
  rw [Node.validate_finished hs, hone, List.map_singleton]
  change (trialOf _ _).andThen (fun _ => .pass) = _
  rw [Trial.andThen_pass, trialOf, hpart]
  rfl

end Engine

open Session in
/-- **Cascading is delegation.** After every history of a new engine, let the validator of a class be
kept.

* A validator of the type that cascades into the class and declares nothing else passes null, and on
  any other value it comes to what the validator of the class comes to.
* Let a validator of a class be kept of which nothing is declared but one property that cascades into
  the first class. On every object it passes where the property is null, and otherwise it comes to
  what the validator of the first class comes to on the property, a failure being reported at the
  property. -/
theorem cascading_is_delegation {config : Config} {catalog : Catalog} {kinds : List Kind}
    {extractors : List Extractor} {classes : List ClassSchema} {e : Engine}
    (hbuild : Engine.build config catalog kinds extractors classes = .ok e) (history : List Action)
    {s : Session} (hs : (start e).after history = s) {own : String × Validator}
    (hown : own ∈ s.validators) {target : String} (htarget : own.2.root = .ofClass target) :
    (∀ w ∈ s.validators, w.2.root = .ofType (Engine.cascadeInto target) →
      (∀ r, s.engine.Evaluates w.2.criterion .null r ↔ r = (.ok (), ⟨s.engine, []⟩)) ∧
      ∀ v r, v ≠ .null →
        (s.engine.Evaluates w.2.criterion v r ↔ s.engine.Evaluates own.2.criterion v r)) ∧
    ∀ w ∈ s.validators, ∀ className p, w.2.root = .ofClass className →
      s.engine.LeavesTo className p target → ∀ name fields,
        (p.accessor.read (.object name fields) = .null → ∀ r,
          (s.engine.Evaluates w.2.criterion (.object name fields) r ↔
            r = (.ok (), ⟨s.engine, []⟩))) ∧
        (p.accessor.read (.object name fields) ≠ .null → ∀ r,
          (s.engine.Evaluates w.2.criterion (.object name fields) r ↔
            ∃ verdict after,
              s.engine.Evaluates own.2.criterion (p.accessor.read (.object name fields))
                (verdict, after) ∧
              r = (verdict.mapError (·.within (.property p.name)), after))) := by
  obtain ⟨hsession, -⟩ :=
    (OrderlyBy.start (Engine.orderlyAny_build hbuild)).after Engine.any_assemble history
  rw [hs] at hsession
  have hcompiled := hsession.kept own hown
  rw [htarget] at hcompiled
  constructor
  · intro w hw hroot
    have hc := hsession.kept w hw
    rw [hroot] at hc
    rw [Engine.compiled_cascadeInto hsession.engine hc]
    exact ⟨fun r => Engine.evaluates_pass rfl, fun v r hv => Engine.evaluates_cascade hcompiled hv⟩
  · intro w hw className p hroot hleaves name fields
    have hc := hsession.kept w hw
    rw [hroot] at hc
    have hvalidate := hleaves.validate hsession.engine hc name fields
    refine ⟨fun hnull r => Engine.evaluates_pass ?_, fun hx r => ?_⟩
    · rw [hvalidate, hnull]
      rfl
    · exact Engine.evaluates_cascadeCheck hcompiled hvalidate hx

namespace Crate

/-- Boxes, each of which may hold another one and is not to weigh nothing, and marked crates of a
box. -/
def classes : List ClassSchema :=
  [⟨"Box", [], [⟨"weight", ⟨.scalar .long, [.constraint ⟨"positive", .empty⟩]⟩, none⟩,
      ⟨"inner", Engine.cascadeInto "Box", none⟩]⟩,
    ⟨"Crate", [], [⟨"mark", .plain .text, none⟩, ⟨"box", Engine.cascadeInto "Box", none⟩]⟩]

/-- A new engine with the classes. -/
def engine : Engine := ⟨{}, .builtin, Extractor.defaults, classes, .empty, [], [], []⟩

/-- A box that weighs nothing. -/
def box : Value := .object "Box" [("weight", .int 0)]

/-- Validators are asked for. -/
def history : List Session.Action :=
  [.validator "crate" (.ofClass "Crate"), .validator "place" (.ofType (Engine.cascadeInto "Box")),
    .validator "box" (.ofClass "Box")]

/-- The session after that. -/
def session : Session := (Session.start engine).after history

/-- Where the validator of boxes reports a failure. -/
def path? (v : Value) : Option (List Step) :=
  (session.validators.lookup "box").bind fun w =>
    (session.engine.evaluate 9 w.criterion v).bind fun r =>
      match r.1 with
      | .error f => some f.path
      | .ok () => none

theorem leavesTo_box :
    session.engine.LeavesTo "Crate" ⟨"box", Engine.cascadeInto "Box", none⟩ "Box" := by
  have hbuild : Engine.build {} .builtin [] [] classes = .ok engine := rfl
  have hlater := ((Session.OrderlyBy.start (Engine.orderlyAny_build hbuild)).after
    Engine.any_assemble history).2
  refine ⟨rfl, _, hlater.grows.classes "Crate" _ rfl, rfl, ?_⟩
  -- no name is declared twice, so all declarations count
  change _ ∈ [_, _] ∧ ∀ q ∈ [_, _], _
  refine ⟨List.mem_cons_of_mem _ List.mem_cons_self, fun q hq hne => ?_⟩
  rcases List.mem_cons.1 hq with rfl | hq
  · rfl
  · exact absurd (List.mem_singleton.1 hq) hne

/-- The validators that are kept. -/
theorem exists_kept (name : String) (root : Root)
    (h : (session.validators.lookup name).map (·.root) = some root) :
    ∃ w, session.validators.lookup name = some w ∧ (name, w) ∈ session.validators ∧
      w.root = root := by
  obtain ⟨w, hw, hroot⟩ := Option.map_eq_some_iff.1 h
  exact ⟨w, hw, mem_of_lookup hw, hroot⟩

end Crate

/-- The validator of crates reports a box that weighs nothing as that of boxes does, at the box. -/
theorem crate_leaves_box_to_its_class : ∃ (crate place box : Validator) (f : Failure)
    (after : Evaluation),
    crate.root = .ofClass "Crate" ∧ place.root = .ofType (Engine.cascadeInto "Box") ∧
      box.root = .ofClass "Box" ∧ f.path = [.property "weight"] ∧
      Crate.session.engine.Evaluates box.criterion Crate.box (.error f, after) ∧
      Crate.session.engine.Evaluates place.criterion Crate.box (.error f, after) ∧
      Crate.session.engine.Evaluates crate.criterion (.object "Crate" [("box", Crate.box)])
        (.error (f.within (.property "box")), after) := by
  have hbuild : Engine.build {} .builtin [] [] Crate.classes = .ok Crate.engine := rfl
  obtain ⟨crate, -, hcrate, hcrateRoot⟩ :=
    Crate.exists_kept "crate" (.ofClass "Crate") (by cbv)
  obtain ⟨place, -, hplace, hplaceRoot⟩ :=
    Crate.exists_kept "place" (.ofType (Engine.cascadeInto "Box")) (by cbv)
  obtain ⟨box, hlookup, hbox, hboxRoot⟩ :=
    Crate.exists_kept "box" (.ofClass "Box") (by cbv)
  have hpath : Crate.path? Crate.box = some [.property "weight"] := by cbv
  rw [Crate.path?, hlookup, Option.bind_some] at hpath
  obtain ⟨⟨verdict, after⟩, hrun, hpath⟩ := Option.bind_eq_some_iff.1 hpath
  cases verdict with
  | ok => cases hpath
  | error f =>
    have hevaluates : Crate.session.engine.Evaluates box.criterion Crate.box (.error f, after) :=
      ⟨9, hrun⟩
    obtain ⟨htype, hclass⟩ := cascading_is_delegation hbuild Crate.history rfl hbox hboxRoot
    have hpresent : Crate.box ≠ .null := by simp [Crate.box]
    have hobject := (hclass _ hcrate "Crate" _ hcrateRoot Crate.leavesTo_box "Crate"
      [("box", Crate.box)]).2 hpresent
    exact ⟨crate, place, box, f, after, hcrateRoot, hplaceRoot, hboxRoot, Option.some.inj hpath,
      hevaluates, ((htype _ hplace hplaceRoot).2 Crate.box _ hpresent).2 hevaluates,
      (hobject _).2 ⟨.error f, after, hevaluates, rfl⟩⟩

end Validation
