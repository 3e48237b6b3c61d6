import Validation.Proofs.Engine.History
import Validation.Proofs.Path.Navigates

/-!
# The path of a failure

A failure that a validator returns says where the value is that a check has refused. Its path is put
together on the way out, by the wrappers that the failure passes, and read on the way in: it leads
from the root to the value that was tested.

The steps of a path belong to trees of several roots. Each tree contributes what leads from its root
to the place of the failure, or to the place of a cascade; a cascade adds no step, and the answer to
it is a failure of the class at the same value. So the trees are dealt with one by one
(`locates_compiled`), and the chain of cascades by induction on its length (`locates_answer`).

* `Trial.reported_of_answers`: what a trial reports in an engine, if the answers are right.
* `failures_locate_what_was_tested`: the path of every failure of every validator.
-/

namespace Validation

/-- A trial in an engine reports what it should as long as the answers do. -/
theorem Trial.reported_of_answers {limit : Nat} {inv : Engine → Prop}
    {asked : String → Value → Prop} {answered : String → Value → Failure → Prop}
    {reported : Failure → Prop}
    (hanswer : ∀ className v (s s' : Evaluation) verdict, inv s.engine → asked className v →
      (Engine.answer limit className v).run s = some (verdict, s') →
        inv s'.engine ∧ ∀ f, verdict = .error f → answered className v f)
    {t : Trial Verdict} {s s' : Evaluation} {verdict : Verdict} (hs : inv s.engine)
    (ht : t.Meets asked answered reported) (h : t.Yields limit s verdict s') :
    ∀ f, verdict = .error f → reported f := by
  induction t generalizing s with
  | done result =>
    obtain ⟨rfl, -⟩ := yields_done.1 h
    exact ht
  | note entry next ih => exact ih (s := { s with trail := entry :: s.trail }) hs ht (yields_note.1 h)
  | cascade className v next ih =>
    obtain ⟨answer, s₁, hrun, h⟩ := yields_cascade.1 h
    obtain ⟨hasked, hnext⟩ := ht
    obtain ⟨hs₁, hright⟩ := hanswer className v s s₁ answer hs hasked hrun
    exact ih answer hs₁ (hnext answer hright) h

namespace Engine

/-- What the constraints report is of the values themselves. -/
abbrev AtValues (e : Engine) : Prop :=
  Orderly (Constraint.Reports Failure.At) (Kind.Reports Failure.At) e

/-- A message does not change what is reported of a value. -/
theorem at_assemble : Assembles (Constraint.Reports Failure.At) (Kind.Reports Failure.At) :=
  Constraint.reports_assemble fun _ _ message params h => h.decorate message params

variable {e e' : Engine} {root : Root}

/-- **The failures of a compiled criterion** locate what was tested, if the answers do. -/
theorem locates_compiled (he : AtValues e) (hextractors : e.extractors = Extractor.defaults)
    {c : Criterion.On Value} (hc : e.compiled.lookup root = some c) (v : Value) :
    (c.validate v).Meets (fun _ _ => True)
      (fun className v f => f.Locates e.Declares (.classOf className) v)
      (fun f => f.Locates e.Declares root.type v) := by
  obtain ⟨t, ht, hcompile⟩ := he.compiled root c hc
  obtain ⟨s, hs, rfl⟩ := compile_eq_ok_iff.1 hcompile
  obtain ⟨names, -, htype, hlaid⟩ := he.laid at_assemble ht
  rw [← htype]
  refine Node.meets_finished (fun _ _ _ _ => True) (fun type v f => f.Locates e.Declares type v)
    (fun type v expected => locates_typeMismatch expected v type) (fun m hm => ?_) hs v
  exact heeds_of_laid (a := e.analyserOf names) hextractors (fun _ h => h) (hlaid m hm)

/-- **The answers locate what was tested**, from the value of the cascade on. -/
theorem locates_answer {e : Engine} (hextractors : e.extractors = Extractor.defaults) (limit : Nat) :
    ∀ className v (s s' : Evaluation) verdict,
      Ran (Constraint.Reports Failure.At) (Kind.Reports Failure.At) e s.engine →
      (answer limit className v).run s = some (verdict, s') →
        ∀ f, verdict = .error f → f.Locates e.Declares (.classOf className) v := by
  induction limit with
  | zero => exact fun _ _ _ _ _ _ h => nomatch h
  | succ limit ih =>
    intro className v s s' verdict hs h
    rw [answer_succ] at h
    rcases houtcome : outcome (validator (.ofClass className)) s.engine with ⟨error | w, e'⟩ <;>
    rw [houtcome] at h
    · -- a class that cannot be analysed is reported of the value that was to be validated by it
      cases h
      intro f hf
      cases hf
      have hat : (analysisFailure className error v).At v := (Failure.at_new _ _ v).setParams _
      exact hat.locates (.inl rfl)
    · obtain ⟨hran, -, hcompiled, -⟩ :=
        (leads_validator at_assemble hs.orderly (.ofClass className)).of_gives houtcome
      have hran' := hs.trans hran
      have hdeclares : e'.Declares = e.Declares := by
        funext name p
        simp only [Declares, schema?, hran'.classes, hran'.grows.config]
      have hmeets := locates_compiled hran'.orderly (hran'.grows.extractors.trans hextractors)
        hcompiled v
      rw [hdeclares] at hmeets
      refine Trial.reported_of_answers (fun name x s₁ s₂ answered hs₁ _ hrun => ?_)
        (s := { s with engine := e' }) hran' hmeets h
      exact ⟨ran_answer at_assemble limit name x s₁ s₂ answered hs₁ hrun,
        ih name x s₁ s₂ answered hs₁ hrun⟩

/-- The failures of an evaluation locate what was tested. -/
theorem locates_evaluate (he : AtValues e) (hextractors : e.extractors = Extractor.defaults)
    {c : Criterion.On Value} (hc : e.compiled.lookup root = some c) {limit : Nat} {v : Value}
    {f : Failure} {s : Evaluation} (h : e.evaluate limit c v = some (.error f, s)) :
    f.Locates e.Declares root.type v := by
  refine Trial.reported_of_answers (fun name x s₁ s₂ answered hs₁ _ hrun => ?_) (s := ⟨e, []⟩)
    (Ran.refl he) (locates_compiled he hextractors hc v) h f rfl
  exact ⟨ran_answer at_assemble limit name x s₁ s₂ answered hs₁ hrun,
    locates_answer hextractors limit name x s₁ s₂ answered hs₁ hrun⟩

end Engine

open Session in
/-- **The path of a failure.** Let a validator be kept after any history of a new engine with the
standard kinds and the default extractors, and let it fail on a value. Then the path of the failure
leads from the value, read at the type of the validator's root, to a value in it; and the value of
the failure is that value, or the scalar that it is converted to for a check of scalars. -/
theorem failures_locate_what_was_tested {config : Config} {classes : List ClassSchema} {e : Engine}
    (hbuild : Engine.build config .builtin [] [] classes = .ok e) (history : List Action)
    {name : String} {w : Validator} (hkept : (name, w) ∈ ((start e).after history).validators)
    {limit : Nat} {v : Value} {f : Failure} {s : Evaluation}
    (hrun : ((start e).after history).engine.evaluate limit w.criterion v = some (.error f, s)) :
    ∃ type reached,
      Navigates ((start e).after history).engine.Declares w.root.type v f.path type reached ∧
        type.Tests reached f.value := by
  obtain ⟨catalog, classes', hkinds, heq⟩ := Engine.build_eq_ok hbuild
  cases hkinds
  have hextractors : e.extractors = Extractor.defaults := by
    rw [heq]
    rfl
  have hreports : ∀ kind ∈ e.catalog.kinds, kind.Every (Kind.Reports Failure.At) := by
    rw [heq]
    intro kind hkind
    refine (Catalog.standard_builtin kind hkind).mono fun k hk => ?_
    exact (Catalog.probes_builtin k hk).reports
  obtain ⟨he, -⟩ := Engine.orderly_build (P := Constraint.Reports Failure.At) hbuild hreports
  obtain ⟨hafter, hlater⟩ := (OrderlyBy.start he).after Engine.at_assemble history
  exact Engine.locates_evaluate hafter.engine (hlater.grows.extractors.trans hextractors)
    (hafter.kept (name, w) hkept) hrun

namespace Shelf

/-- Shelves with boxes in compartments, and boxes, which are not to weigh nothing. -/
def classes : List ClassSchema :=
  [⟨"Shelf", [], [⟨"boxes", .plain (.map (.plain .text) (.plain (.collection .list
      (.plain (.optional (Engine.cascadeInto "Box")))))), none⟩]⟩,
    ⟨"Box", [], [⟨"weight", ⟨.scalar .long, [.constraint ⟨"positive", .empty⟩]⟩, none⟩]⟩]

/-- A new engine with the classes. -/
def engine : Engine := ⟨{}, .builtin, Extractor.defaults, classes, .empty, [], [], []⟩

/-- A shelf with one box. -/
def shelf (weight : Value) : Value :=
  .object "Shelf" [("boxes", .map [(.text "top", .list [.optional (some
    (.object "Box" [("weight", weight)]))])])]

/-- The validator of shelves is asked for. -/
def session : Session := (Session.start engine).after [.validator "shelf" (.ofClass "Shelf")]

/-- The failure of a value under the validator of shelves. -/
def failure? (v : Value) : Option Failure :=
  match session.validators with
  | [(_, w)] =>
    match session.engine.evaluate 9 w.criterion v with
    | some (.error f, _) => some f
    | _ => none
  | _ => none

end Shelf

/-- The weight of a box is found through a map, a list, an optional and a cascade, and was tested as a
scalar of another kind. -/
theorem weight_is_located : ∃ f type reached, Shelf.failure? (Shelf.shelf (.int (-1))) = some f ∧
    (Failure.pathText f.path, f.value.kindName) = ("boxes[top][0].weight", "long") ∧
    Navigates Shelf.session.engine.Declares (.classOf "Shelf") (Shelf.shelf (.int (-1))) f.path
        type reached ∧ type.Tests reached f.value := by
  have hbuild : Engine.build {} .builtin [] [] Shelf.classes = .ok Shelf.engine := rfl
  have hfails : (Shelf.failure? (Shelf.shelf (.int (-1)))).map
      (fun f => (Failure.pathText f.path, f.value.kindName)) =
      some ("boxes[top][0].weight", "long") := by cbv
  have hroots : Shelf.session.validators.map (·.2.root) = [.ofClass "Shelf"] := by cbv
  obtain ⟨f, hf, htexts⟩ := Option.map_eq_some_iff.1 hfails
  have hfailure := hf
  unfold Shelf.failure? at hf
  split at hf
  case h_2 => cases hf
  case h_1 name w hvalidators =>
    split at hf
    case h_2 => cases hf
    case h_1 f' s hrun =>
      cases hf
      rw [hvalidators] at hroots
      have hroot : w.root = .ofClass "Shelf" := List.head_eq_of_cons_eq hroots
      have hkept : (name, w) ∈ Shelf.session.validators := by
        rw [hvalidators]
        exact List.mem_singleton_self _
      have hlocated := failures_locate_what_was_tested hbuild
        [.validator "shelf" (.ofClass "Shelf")] hkept hrun
      rw [hroot] at hlocated
      obtain ⟨type, reached, hpath, htests⟩ := hlocated
      exact ⟨f, type, reached, hfailure, htexts, hpath, htests⟩

end Validation
