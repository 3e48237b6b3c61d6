import Validation.Proofs.Contained
import Validation.Proofs.Engine.Search
import Validation.Proofs.Trial

/-!
# Answers

A request for what is clear succeeds: nothing is left to be searched but what is public already. So
while a clear criterion runs, which asks for classes that its tree cascades into, no answer is an
analysis error.

* `validator_of_clear`: asking for the validator of what is clear.
* `contained_of_compiled`: what a clear criterion asks for.
* `ranSoundly_evaluate`: validating values.
-/

namespace Validation

namespace Engine

variable {P : Constraint → Prop} {S : Kind → Prop} {e e' : Engine} {root : Root} {t : Node}

theorem tree_of_lookup (ht : e.trees.lookup root = some t) : Gives (tree root) e t e := by
  rw [tree]
  refine gives_get.2 ?_
  rw [ht]
  exact gives_pure.2 ⟨rfl, rfl⟩

/-- A class that is compiled needs no inspection. -/
theorem inspect_of_compiled {name : String} {c : Criterion.On Value}
    (hc : e.compiled.lookup (.ofClass name) = some c) (t : Node) : Gives (inspect name t) e () e := by
  rw [inspect]
  refine gives_get.2 ?_
  rw [hc, Option.isNone_some, if_neg Bool.false_ne_true]
  exact gives_pure.2 ⟨rfl, rfl⟩

theorem markAnalysed_gives (name : String) (visited : List String) (e : Engine) :
    Gives (markAnalysed name visited) e visited { e with analysed := e.analysed ++ [name] } :=
  gives_bind.2 ⟨(), _, gives_modify, gives_pure.2 ⟨rfl, rfl⟩⟩

theorem record_gives {visited : List String} {r : Criterion.On Value × List String} :
    Gives (record root t visited) e r e' ↔ ∃ c, compile linked t = .ok c ∧ r = (c, visited) ∧
      e' = { e with compiled := insertAbsent root c e.compiled } := by
  constructor
  · intro h
    obtain ⟨c, _, hlift, hrest⟩ := gives_bind.1 h
    obtain ⟨hc, rfl⟩ := gives_lift.1 hlift
    obtain ⟨⟨⟩, _, hmodify, hreturn⟩ := gives_bind.1 hrest
    cases hmodify
    obtain ⟨rfl, rfl⟩ := gives_pure.1 hreturn
    exact ⟨c, hc, rfl, rfl⟩
  · rintro ⟨c, hc, rfl, rfl⟩
    refine gives_bind.2 ⟨c, e, gives_lift.2 ⟨hc, rfl⟩, ?_⟩
    exact gives_bind.2 ⟨(), _, gives_modify, gives_pure.2 ⟨rfl, rfl⟩⟩

/-- A search through clear classes succeeds. -/
theorem analyse_of_clear (fuel : Nat) : ∀ (visited : List String) {e : Engine} {t : Node},
    Orderly P S e → e.config.eagerCascade = false →
    (∀ name ∈ t.cascades, Clear e (.ofClass name)) →
    ∃ visited' e', Gives (analyse fuel visited t) e visited' e' ∧ Ran P S e e' := by
  induction fuel with
  | zero => exact fun _ _ _ he _ _ => ⟨_, _, gives_pure.2 ⟨rfl, rfl⟩, .refl he⟩
  | succ fuel ih =>
    intro visited e t he hlazy hcascades
    rw [analyse_succ]
    refine exists_gives_foldlM (Ran P S e) ?_ (.refl he)
    intro name hname visited₁ e₁ hran₁
    have he₁ := hran₁.orderly
    have hlazy₁ : e₁.config.eagerCascade = false := by rw [hran₁.grows.config, hlazy]
    have hclear : Clear e₁ (.ofClass name) := (hcascades name hname).grows he hran₁.grows
    by_cases hdone : (e₁.analysed.contains name || visited₁.contains name) = true
    · refine ⟨visited₁, e₁, gives_get.2 ?_, hran₁⟩
      rw [if_pos hdone]
      exact gives_pure.2 ⟨rfl, rfl⟩
    · obtain ⟨target, c, htarget, hc⟩ := he₁.exists_tree hclear.1
      -- a public class that is not analysed is compiled, so its tree is not compiled once more
      have hcompiled : ∃ c, e₁.compiled.lookup (.ofClass name) = some c := by
        refine hclear.1.resolve_right ?_
        rintro ⟨name', hanalysed, heq⟩
        cases heq
        rw [Bool.or_eq_true, not_or, List.contains_iff_mem] at hdone
        exact hdone.1 hanalysed
      obtain ⟨own, hown⟩ := hcompiled
      obtain ⟨visited₂, e₂, hsearch, hran₂⟩ := ih (name :: visited₁) he₁ hlazy₁
        fun name' hname' => hclear.step htarget hname'
      have hran₃ := ran_analysed hran₂.orderly (hran₂.grows.trees _ _ htarget) hc
        (by rw [hran₂.grows.config, hlazy₁]) fun name' hname' =>
          .inl ((hclear.step htarget hname').1.grows hran₂.grows)
      refine ⟨visited₂, { e₂ with analysed := e₂.analysed ++ [name] }, gives_get.2 ?_,
        hran₁.trans (hran₂.trans hran₃)⟩
      rw [if_neg hdone]
      refine gives_bind.2 ⟨target, e₁, tree_of_lookup htarget, ?_⟩
      refine gives_bind.2 ⟨(), e₁, inspect_of_compiled hown target, ?_⟩
      exact gives_bind.2 ⟨visited₂, e₂, hsearch, markAnalysed_gives name visited₂ e₂⟩

/-- A root that is compiled has a validator. -/
theorem validator_of_compiled {c : Criterion.On Value} (hc : e.compiled.lookup root = some c) :
    Gives (validator root) e ⟨root, c⟩ e := by
  refine gives_get.2 (gives_bind.2 ⟨(c, []), e, ?_, gives_pure.2 ⟨rfl, rfl⟩⟩)
  rw [compileRoot_succ]
  refine gives_get.2 ?_
  rw [hc]
  exact gives_pure.2 ⟨rfl, rfl⟩

/-- A root that is not compiled has a validator if the search for errors succeeds. -/
theorem validator_of_analyse {e₁ e₂ : Engine} {visited : List String} {c : Criterion.On Value}
    (hnone : e.compiled.lookup root = none) (htree : Gives (tree root) e t e₁)
    (hlazy : e₁.config.eagerCascade = false)
    (hsearch : Gives (analyse e.classes.length root.className?.toList t) e₁ visited e₂)
    (hc : compile linked t = .ok c) :
    Gives (validator root) e ⟨root, c⟩
      { e₂ with compiled := insertAbsent root c e₂.compiled } := by
  refine gives_get.2 (gives_bind.2 ⟨(c, visited), _, ?_, gives_pure.2 ⟨rfl, rfl⟩⟩)
  rw [compileRoot_succ]
  refine gives_get.2 ?_
  rw [hnone]
  refine gives_bind.2 ⟨t, e₁, htree, gives_bind.2 ⟨visited, e₂, gives_get.2 ?_, ?hrecord⟩⟩
  case hrecord => exact record_gives.2 ⟨c, hc, rfl, rfl⟩
  rw [hlazy, if_neg Bool.false_ne_true, List.append_nil]
  exact hsearch

theorem Orderly.lazy (he : Orderly P S e) {name : String} (hname : name ∈ e.analysed) :
    e.config.eagerCascade = false := by
  cases heager : e.config.eagerCascade with
  | false => rfl
  | true => simp [he.eager heager] at hname

/-- **Asking for the validator of what is clear succeeds.** -/
theorem validator_of_clear (he : Orderly P S e) (hroot : Clear e root) :
    ∃ v e', Gives (validator root) e v e' := by
  cases hlookup : e.compiled.lookup root with
  | some c => exact ⟨_, _, validator_of_compiled hlookup⟩
  | none =>
    obtain ⟨t, c, ht, hc⟩ := he.exists_tree hroot.1
    obtain ⟨name, hname, rfl⟩ := hroot.1.resolve_left fun ⟨c, hc⟩ => by simp [hlookup] at hc
    have hlazy := he.lazy hname
    obtain ⟨visited, e', hsearch, -⟩ := analyse_of_clear e.classes.length [name] he
      hlazy fun name' hname' => hroot.step ht hname'
    exact ⟨_, _, validator_of_analyse hlookup (tree_of_lookup ht) hlazy hsearch hc⟩

theorem contained_cascadeCheck (names : String → Prop) {name : String} (h : names name) :
    (Criterion.leaf (cascadeCheck name)).Contained names := by
  intro v
  rw [Criterion.validate, cascadeCheck]
  split
  · exact Trial.contained_pass
  · exact ⟨h, Trial.contained_pass, fun f => ⟨f, rfl, id⟩⟩

/-- Interned constraints ask for no class if nothing that the kinds make asks for one. -/
theorem quiet_assemble : Assembles Constraint.IsQuiet Kind.IsQuiet :=
  fun _ _ _ hkind hparts => Constraint.isQuiet_of_kind hkind (forall_of_internedParts hparts)

/-- **What a clear criterion asks for** is clear. -/
theorem contained_of_compiled (he : Orderly Constraint.IsQuiet Kind.IsQuiet e) (hroot : Clear e root)
    {c : Criterion.On Value} (hc : e.compiled.lookup root = some c) :
    c.Contained fun name => Clear e (.ofClass name) := by
  obtain ⟨t, ht, hcompile⟩ := he.compiled root c hc
  obtain ⟨s, hs, rfl⟩ := compile_eq_ok_iff.1 hcompile
  refine Node.contained_finished (fun m hm => (he.consists quiet_assemble ht m hm).1) ?_ hs
  intro m hm name hname c hlink
  cases hlink
  exact contained_cascadeCheck _ (hroot.step ht (Node.mem_cascades.2 ⟨m, hm, hname⟩))

/-- The answer to a request for the verdict of a class. -/
theorem answer_succ (limit : Nat) (className : String) (v : Value) (s : Evaluation) :
    (answer (limit + 1) className v).run s =
      match outcome (validator (.ofClass className)) s.engine with
      | (.error error, e) =>
        some (.error (analysisFailure className error v), { s with engine := e })
      | (.ok w, e) =>
        ((w.criterion.validate v).runIn addNote (answer limit)).run { s with engine := e } := by
  have hasking : (asking (validator (.ofClass className))).run s =
      some ((outcome (validator (.ofClass className)) s.engine).1,
        { s with engine := (outcome (validator (.ofClass className)) s.engine).2 }) := rfl
  rw [answer, StateT.run_bind, hasking]
  rcases outcome (validator (.ofClass className)) s.engine with ⟨_ | w, e⟩ <;> rfl

end Engine

open Engine

/-- A trial keeps what the answers keep. -/
theorem Trial.keeps_of_answers {limit : Nat} {inv : Engine → Prop}
    (hanswer : ∀ className v (s s' : Evaluation) verdict, inv s.engine →
      (answer limit className v).run s = some (verdict, s') → inv s'.engine)
    {t : Trial Verdict} {s s' : Evaluation} {verdict : Verdict} (hs : inv s.engine)
    (h : t.Yields limit s verdict s') : inv s'.engine := by
  induction t generalizing s with
  | done result =>
    obtain ⟨-, rfl⟩ := yields_done.1 h
    exact hs
  | note entry next ih => exact ih (s := { s with trail := entry :: s.trail }) hs (yields_note.1 h)
  | cascade className v next ih =>
    obtain ⟨answered, s₁, hrun, h⟩ := yields_cascade.1 h
    exact ih answered (hanswer className v s s₁ answered hs hrun) h

namespace Engine

/-- What an answer leaves of an orderly engine. -/
theorem ran_answer (hP : Assembles P S) (limit : Nat) :
    ∀ className v (s s' : Evaluation) verdict, Ran P S e s.engine →
      (answer limit className v).run s = some (verdict, s') → Ran P S e s'.engine := by
  induction limit with
  | zero => exact fun _ _ _ _ _ _ h => nomatch h
  | succ limit ih =>
    intro className v s s' verdict hs h
    have hran := hs.trans (leads_validator hP hs.orderly (.ofClass className)).1
    rw [answer_succ] at h
    rcases houtcome : outcome (validator (.ofClass className)) s.engine with ⟨error | w, e'⟩ <;>
    rw [houtcome] at h hran
    · cases h
      exact hran
    · exact Trial.keeps_of_answers ih (s := { s with engine := e' }) hran h

/-- What validating a value leaves of an orderly engine. -/
theorem ran_evaluate (hP : Assembles P S) (he : Orderly P S e) {c : Criterion.On Value} {limit : Nat}
    {v : Value} {verdict : Verdict} {s : Evaluation}
    (h : e.evaluate limit c v = some (verdict, s)) : Ran P S e s.engine :=
  Trial.keeps_of_answers (ran_answer hP limit) (s := ⟨e, []⟩) (.refl he) h

/-- The verdict of a run that asks for clear classes, and what the run leaves of a closed engine. -/
structure RanSoundly (e e' : Engine) (verdict : Verdict) : Prop where
  analysed : verdict.Analysed
  closed : Closed e → Closed e'

end Engine

/-- A trial that asks for clear classes runs soundly if the answers do. -/
theorem Trial.ranSoundly_of_answers {limit : Nat}
    (hanswer : ∀ className v (s s' : Evaluation) verdict,
      Orderly Constraint.IsQuiet Kind.IsQuiet s.engine → Clear s.engine (.ofClass className) →
      (answer limit className v).run s = some (verdict, s') →
      RanSoundly s.engine s'.engine verdict) {t : Trial Verdict} {s s' : Evaluation}
    {verdict : Verdict} (hs : Orderly Constraint.IsQuiet Kind.IsQuiet s.engine)
    (ht : t.Contained fun name => Clear s.engine (.ofClass name))
    (h : t.Yields limit s verdict s') : RanSoundly s.engine s'.engine verdict := by
  induction t generalizing s with
  | done result =>
    obtain ⟨rfl, rfl⟩ := yields_done.1 h
    exact ⟨ht, id⟩
  | note entry next ih =>
    exact ih (s := { s with trail := entry :: s.trail }) hs ht (yields_note.1 h)
  | cascade className v next ih =>
    obtain ⟨answered, s₁, hrun, h⟩ := yields_cascade.1 h
    have hran := ran_answer quiet_assemble limit className v s s₁ answered (.refl hs) hrun
    have hfirst := hanswer className v s s₁ answered hs ht.1 hrun
    cases answered with
    | ok =>
      -- the rest asks a larger engine, in which clear classes stay clear
      have hnext := ht.2.1.mono fun _ hname => Clear.grows hname hs hran.grows
      have hrest := ih _ hran.orderly hnext h
      exact ⟨hrest.analysed, fun hclosed => hrest.closed (hfirst.closed hclosed)⟩
    | error f =>
      -- a failing answer ends the trial, which passes its failure on
      obtain ⟨g, hfail, hg⟩ := ht.2.2 f
      rw [hfail] at h
      obtain ⟨rfl, rfl⟩ := yields_fail.1 h
      exact ⟨Verdict.analysed_error (hg (hfirst.analysed f rfl)), hfirst.closed⟩

namespace Engine

/-- **Answers for clear classes** are no analysis errors. -/
theorem ranSoundly_answer (limit : Nat) : ∀ className v (s s' : Evaluation) verdict,
    Orderly Constraint.IsQuiet Kind.IsQuiet s.engine → Clear s.engine (.ofClass className) →
    (answer limit className v).run s = some (verdict, s') →
    RanSoundly s.engine s'.engine verdict := by
  induction limit with
  | zero => exact fun _ _ _ _ _ _ _ h => nomatch h
  | succ limit ih =>
    intro className v s s' verdict hs hclear h
    obtain ⟨w, e, hw⟩ := validator_of_clear hs hclear
    obtain ⟨hran, -, hcompiled, hclosed⟩ := (leads_validator quiet_assemble hs _).of_gives hw
    have hcontained := contained_of_compiled hran.orderly (hclear.grows hs hran.grows) hcompiled
    rw [answer_succ, show outcome _ _ = _ from hw] at h
    have hrest := Trial.ranSoundly_of_answers ih (s := { s with engine := e }) hran.orderly
      (hcontained v) h
    exact ⟨hrest.analysed, fun h => hrest.closed (hclosed h)⟩

/-- **Validating values by a clear criterion.** -/
theorem ranSoundly_evaluate (he : Orderly Constraint.IsQuiet Kind.IsQuiet e) (hroot : Clear e root)
    {c : Criterion.On Value} (hc : e.compiled.lookup root = some c) {limit : Nat} {v : Value}
    {verdict : Verdict} {s : Evaluation} (h : e.evaluate limit c v = some (verdict, s)) :
    RanSoundly e s.engine verdict :=
  Trial.ranSoundly_of_answers (ranSoundly_answer limit) (s := ⟨e, []⟩) he
    (contained_of_compiled he hroot hc v) h

end Engine

end Validation
