import Validation.Proofs.Engine.History
import Validation.Proofs.Verdict.Trees

/-!
# The verdict on a value

Validating a value passes it exactly when it satisfies the declarations of the root. The criterion of
a root decides that as soon as the answers to its requests do, and every answer is given by the
criterion of a class.

* `Trial.ok_iff_of_answers`: a trial in an engine passes when it does with right answers.
* `Engine.verdict_compiled`: what a compiled criterion decides.
* `Engine.answer_ok_iff`: the answers are right.
* `validate_ok_iff_satisfies`: the verdict on a value.
-/

namespace Validation

open Constraint (Sound)
open Catalog (IsStandard)

/-- A trial in an engine passes when it does with answers that pass the same values: it goes on with
answers that pass only, and those are all alike. -/
theorem Trial.ok_iff_of_answers {limit : Nat} {oracle : String → Value → Verdict}
    {inv : Engine → Prop} {names : String → Prop}
    (hanswer : ∀ className v (s s' : Evaluation) verdict, inv s.engine → names className →
      (Engine.answer limit className v).run s = some (verdict, s') →
        inv s'.engine ∧ (verdict = .ok () ↔ oracle className v = .ok ()))
    {t : Trial Verdict} {s s' : Evaluation} {verdict : Verdict} (hs : inv s.engine)
    (ht : t.Contained names) (h : t.Yields limit s verdict s') :
    verdict = .ok () ↔ t.verdict oracle = .ok () := by
  induction t generalizing s with
  | done result =>
    obtain ⟨rfl, -⟩ := yields_done.1 h
    exact Iff.rfl
  | note entry next ih =>
    exact ih (s := { s with trail := entry :: s.trail }) hs ht (yields_note.1 h)
  | cascade className v next ih =>
    obtain ⟨answered, s₁, hrun, h⟩ := yields_cascade.1 h
    obtain ⟨hs₁, hright⟩ := hanswer className v s s₁ answered hs ht.1 hrun
    change verdict = .ok () ↔ (next (oracle className v)).verdict oracle = .ok ()
    cases hanswered : answered with
    | ok =>
      rw [hanswered] at h
      rw [hright.1 hanswered]
      exact ih _ hs₁ ht.2.1 h
    | error f =>
      obtain ⟨g, hfail, -⟩ := ht.2.2 f
      rw [hanswered, hfail] at h
      obtain ⟨rfl, -⟩ := yields_fail.1 h
      -- two failing answers may differ, but either of them ends the trial
      cases horacle : oracle className v with
      | ok => simp [hright.2 horacle] at hanswered
      | error f' =>
        obtain ⟨g', hfail', -⟩ := ht.2.2 f'
        rw [hfail']
        exact iff_of_false nofun nofun

namespace Engine

variable {e e' e₀ : Engine} {root : Root} {accepts : String → Value → Prop}

/-- **What a compiled criterion decides**: what is declared of its root, if the answers to its requests
decide what is declared of the classes. -/
theorem verdict_compiled (he : Orderly Sound IsStandard e) (hcatalog : e.catalog = .builtin)
    (hextractors : e.extractors = Extractor.defaults) {c : Criterion.On Value}
    (hc : e.compiled.lookup root = some c) (answer : String → Value → Verdict) (v : Value) :
    (c.validate v).verdict answer = .ok () ↔
      e.SatisfiedBy (fun name v => answer name v = .ok ()) root v := by
  obtain ⟨t, ht, hcompile⟩ := he.compiled root c hc
  obtain ⟨s, hs, rfl⟩ := compile_eq_ok_iff.1 hcompile
  obtain ⟨names, -, hbuilt⟩ := he.isBuilt sound_assemble ht
  cases root with
  | ofClass name =>
    obtain ⟨schema, hschema, hbuilt⟩ := hbuilt
    rw [Analyser.verdict_builtClass (a := e.analyserOf names) hcatalog hextractors hbuilt hs]
    constructor
    · exact fun hsatisfied => ⟨schema, hschema, hsatisfied⟩
    · rintro ⟨schema', hschema', hsatisfied⟩
      rw [hschema] at hschema'
      cases hschema'
      exact hsatisfied
  | ofType type =>
    exact (Analyser.decides_built (a := e.analyserOf names) hcatalog hextractors hbuilt).verdict s hs v

/-- What is declared does not change with a request. -/
theorem satisfiedBy_of_ran (h : Ran Sound IsStandard e e') :
    e'.SatisfiedBy accepts root = e.SatisfiedBy accepts root := by
  have hschema : ∀ name, e'.schema? name = e.schema? name := by
    intro name
    rw [schema?, schema?, h.classes]
  cases root <;> funext v <;>
    simp only [SatisfiedBy, requires, hschema, h.grows.catalog, h.grows.config]

open Classical in
/-- Answers that pass the values that the classes accept. -/
noncomputable def answersOf (accepts : String → Value → Prop) (name : String) (v : Value) : Verdict :=
  if accepts name v then .ok () else .error (.new "" "" v)

theorem answersOf_ok : (fun name v => answersOf accepts name v = .ok ()) = accepts := by
  funext name v
  unfold answersOf
  by_cases h : accepts name v <;> simp [h]

/-- **A criterion of what is clear decides** what is declared of its root, if the answers to its
requests do. -/
theorem ok_iff_of_clear {limit : Nat} (hcatalog : e.catalog = .builtin)
    (hextractors : e.extractors = Extractor.defaults) (he : Orderly Sound IsStandard e)
    (hroot : Clear e root) {c : Criterion.On Value} (hc : e.compiled.lookup root = some c)
    (hanswer : ∀ className v (s s' : Evaluation) verdict, Ran Sound IsStandard e s.engine →
      Clear s.engine (.ofClass className) →
      (answer limit className v).run s = some (verdict, s') →
        (verdict = .ok () ↔ accepts className v)) {v : Value} {trail : List String} {s' : Evaluation}
    {verdict : Verdict} (h : (c.validate v).Yields limit ⟨e, trail⟩ verdict s') :
    verdict = .ok () ↔ e.SatisfiedBy accepts root v := by
  have hquiet : Orderly Constraint.IsQuiet Kind.IsQuiet e :=
    he.mono (fun _ hsound => hsound.quiet) fun k hk => (Catalog.plain_builtin k hk).isQuiet
  have hright : ∀ className v (s s' : Evaluation) verdict, Ran Sound IsStandard e s.engine →
      Clear e (.ofClass className) → (answer limit className v).run s = some (verdict, s') →
        Ran Sound IsStandard e s'.engine ∧
          (verdict = .ok () ↔ answersOf accepts className v = .ok ()) := by
    intro className v s s' verdict hran hclear h
    refine ⟨ran_answer sound_assemble limit className v s s' verdict hran h, ?_⟩
    rw [hanswer className v s s' verdict hran (hclear.grows he hran.grows) h]
    exact iff_of_eq (congrFun (congrFun answersOf_ok.symm className) v)
  rw [Trial.ok_iff_of_answers hright (.refl he) (contained_of_compiled hquiet hroot hc v) h,
    verdict_compiled he hcatalog hextractors hc, answersOf_ok]

/-- **The answers are right**: a request for the verdict of a class is answered by what is declared of
the class. -/
theorem answer_ok_iff (hcatalog : e₀.catalog = .builtin)
    (hextractors : e₀.extractors = Extractor.defaults)
    (hfix : e₀.requires accepts = accepts) (limit : Nat) :
    ∀ className v (s s' : Evaluation) verdict, Ran Sound IsStandard e₀ s.engine →
      Clear s.engine (.ofClass className) →
      (answer limit className v).run s = some (verdict, s') →
        (verdict = .ok () ↔ accepts className v) := by
  induction limit with
  | zero => exact fun _ _ _ _ _ _ _ h => nomatch h
  | succ limit ih =>
    intro className v s s' verdict hs hclear h
    obtain ⟨w, e, hw⟩ := validator_of_clear hs.orderly hclear
    obtain ⟨hran, -, hcompiled, -⟩ := (leads_validator sound_assemble hs.orderly _).of_gives hw
    have hran₀ := hs.trans hran
    rw [answer_succ, show outcome _ _ = _ from hw] at h
    have hcat : e.catalog = .builtin := hran₀.grows.catalog.trans hcatalog
    have hext : e.extractors = Extractor.defaults := hran₀.grows.extractors.trans hextractors
    rw [ok_iff_of_clear hcat hext hran.orderly (hclear.grows hs.orderly hran.grows) hcompiled
      (fun className v s s' verdict hs' => ih className v s s' verdict (hran₀.trans hs')) h,
      satisfiedBy_of_ran hran₀]
    exact iff_of_eq (congrFun (congrFun hfix className) v)

end Engine

/-- The engine after values have been validated by a criterion, one after another. -/
def Engine.afterAll (limit : Nat) (c : Criterion.On Value) (e : Engine) (vs : List Value) :
    Option Engine :=
  vs.foldlM (fun e v => (·.2.engine) <$> e.evaluate limit c v) e

theorem Engine.Ran.afterAll {P : Constraint → Prop} {S : Kind → Prop} (hP : Assembles P S)
    {e e' : Engine} {limit : Nat} {c : Criterion.On Value} {vs : List Value} (he : Orderly P S e)
    (h : e.afterAll limit c vs = some e') : Ran P S e e' := by
  induction vs generalizing e with
  | nil =>
    cases h
    exact .refl he
  | cons v vs ih =>
    unfold Engine.afterAll at h
    rw [List.foldlM_cons, Option.bind_eq_bind, Option.bind_eq_some_iff] at h
    obtain ⟨e₁, hone, hrest⟩ := h
    obtain ⟨⟨verdict, s⟩, hrun, rfl⟩ := Option.map_eq_some_iff.1 hone
    have hran := ran_evaluate hP he hrun
    exact hran.trans (ih hran.orderly hrest)

theorem Engine.ran_afterAll {e e' : Engine} {limit : Nat} {c : Criterion.On Value} {vs : List Value}
    (he : Orderly Sound IsStandard e) (h : e.afterAll limit c vs = some e') :
    Ran Sound IsStandard e e' := .afterAll sound_assemble he h

/-- **The verdict on a value.** Let an engine be new, with the standard kinds and the default extractors,
and let it give the validator of a root. Whatever values have been validated by it before, a value
on which the evaluation comes to a verdict passes exactly when it satisfies the declarations of the
root. Every way to read the declarations of classes that cascade into each other says the same of
such a value. -/
theorem validate_ok_iff_satisfies {config : Config} {classes : List ClassSchema} {e e₁ e₂ : Engine}
    {root : Root} {w : Validator} {limit : Nat} {before : List Value} {v : Value} {verdict : Verdict}
    {s : Evaluation} (hbuild : Engine.build config .builtin [] [] classes = .ok e)
    (hvalidator : Gives (Engine.validator root) e w e₁)
    (hbefore : e₁.afterAll limit w.criterion before = some e₂)
    (hrun : e₂.evaluate limit w.criterion v = some (verdict, s)) :
    (verdict = .ok () ↔ e.Satisfies root v) ∧
      ∀ accepts, e.requires accepts = accepts →
        (verdict = .ok () ↔ e.SatisfiedBy accepts root v) := by
  obtain ⟨catalog, classes', hkinds, heq⟩ := Engine.build_eq_ok hbuild
  cases hkinds
  have hcatalog : e.catalog = .builtin := by rw [heq]
  have hextractors : e.extractors = Extractor.defaults := by rw [heq]; rfl
  have hstandard : ∀ kind ∈ e.catalog.kinds, kind.Every IsStandard := by
    rw [hcatalog]
    exact Catalog.standard_builtin
  obtain ⟨he, hclosed⟩ := Engine.orderly_build (P := Sound) hbuild hstandard
  obtain ⟨hran, -, hcompiled, hclosed₁⟩ :=
    (Engine.leads_validator sound_assemble he root).of_gives hvalidator
  have hroot : e₁.Clear root := Engine.closed_iff.1 (hclosed₁ hclosed) root (.inl ⟨_, hcompiled⟩)
  have hran₂ := Engine.ran_afterAll hran.orderly hbefore
  have hran₀ := hran.trans hran₂
  have key : ∀ accepts, e.requires accepts = accepts →
      (verdict = .ok () ↔ e.SatisfiedBy accepts root v) := by
    intro accepts hfix
    rw [← Engine.satisfiedBy_of_ran hran₀]
    exact Engine.ok_iff_of_clear (hran₀.grows.catalog.trans hcatalog)
      (hran₀.grows.extractors.trans hextractors) hran₂.orderly (hroot.grows hran.orderly hran₂.grows)
      (hran₂.grows.compiled _ _ hcompiled) (fun className v s s' verdict hs =>
        Engine.answer_ok_iff hcatalog hextractors hfix limit className v s s' verdict
          (hran₀.trans hs)) hrun
  exact ⟨key e.Accepts (Engine.accepts_eq e), key⟩

namespace Chain

/-- A class of labelled objects, each of which may hold another one. -/
def schema : ClassSchema :=
  ⟨"Link", [], [⟨"label", ⟨.text, [.constraint ⟨"not_empty", .empty⟩]⟩, none⟩,
    ⟨"next", Engine.cascadeInto "Link", none⟩]⟩

/-- A new engine with the class. -/
def engine : Engine := ⟨{}, .builtin, Extractor.defaults, [schema], .empty, [], [], []⟩

/-- An object of the class. -/
def link (label : String) (next : Value) : Value :=
  .object "Link" [("label", .text label), ("next", next)]

/-- Whether a value passes after another one has been validated. -/
def passes? (before v : Value) : Option Bool :=
  match outcome (Engine.validator (.ofClass "Link")) engine with
  | (.ok w, e) => (e.afterAll 9 w.criterion [before]).bind fun e =>
      (e.evaluate 9 w.criterion v).map (·.1.toOption.isSome)
  | (.error _, _) => none

end Chain

/-- A chain with an empty label in it does not satisfy the declarations. -/
theorem empty_label_is_not_accepted :
    ¬ Chain.engine.Satisfies (.ofClass "Link") (Chain.link "a" (Chain.link "" .null)) := by
  have hbuild : Engine.build {} .builtin [] [] [Chain.schema] = .ok Chain.engine := rfl
  have hfails : Chain.passes? (Chain.link "b" .null) (Chain.link "a" (Chain.link "" .null)) =
      some false := by cbv
  rw [Chain.passes?] at hfails
  rcases houtcome : outcome (Engine.validator (.ofClass "Link")) Chain.engine with ⟨error | w, e₁⟩
  · rw [houtcome] at hfails
    cases hfails
  · rw [houtcome] at hfails
    obtain ⟨e₂, hbefore, hfails⟩ := Option.bind_eq_some_iff.1 hfails
    obtain ⟨⟨verdict, s⟩, hrun, hverdict⟩ := Option.map_eq_some_iff.1 hfails
    rw [← (validate_ok_iff_satisfies hbuild houtcome hbefore hrun).1]
    rintro rfl
    cases hverdict

end Validation
