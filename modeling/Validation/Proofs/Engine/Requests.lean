import Validation.Proofs.Engine.History

/-!
# What requests keep

Whatever is asked of an engine comes down to trees that are asked for, criteria that are recorded and
classes that are marked as analysed, in some order and up to some failure. So an invariant of engines
that these keep is kept by all requests, by all evaluations, which make requests on their way, and by
all histories, if it is kept by the registration of classes as well.

* `Engine.KeptByRequests`: an invariant that these steps keep.
* `keeps_validator`, `keeps_evaluate`: requests and evaluations.
* `Session.keeps_after`: histories.
-/

namespace Validation

namespace Engine

/-- **An invariant that requests keep**: to ask for a tree keeps it, even when that fails, and so does
to record a criterion or an analysed class. -/
structure KeptByRequests (inv : Engine → Prop) : Prop where
  tree : ∀ root, Keeps inv (tree root) fun _ => True
  compiled : ∀ e root c, inv e → inv { e with compiled := insertAbsent root c e.compiled }
  analysed : ∀ e name, inv e → inv { e with analysed := e.analysed ++ [name] }

variable {inv : Engine → Prop}

/-- An operation under an invariant, of whose result nothing is said. -/
theorem keeps_then {α β : Type} {op : Request α} {f : α → Request β}
    (hop : Keeps inv op fun _ => True) (hf : ∀ a, Keeps inv (f a) fun _ => True) :
    Keeps inv (op >>= f) fun _ => True := keeps_bind hop fun a _ => hf a

theorem keeps_asked {β : Type} {f : Engine → Request β} (hf : ∀ e, Keeps inv (f e) fun _ => True) :
    Keeps inv (do f (← get)) fun _ => True :=
  keeps_then (keeps_get fun _ _ => trivial) hf

theorem keeps_inspect (name : String) (t : Node) : Keeps inv (inspect name t) fun _ => True := by
  refine keeps_asked fun e => ?_
  split
  · exact keeps_map keeps_liftM fun _ _ => trivial
  · exact keeps_pure trivial

theorem keeps_markAnalysed (h : KeptByRequests inv) (name : String) (visited : List String) :
    Keeps inv (markAnalysed name visited) fun _ => True :=
  keeps_then (keeps_modify fun e he => h.analysed e name he) fun _ => keeps_pure trivial

theorem keeps_record (h : KeptByRequests inv) (root : Root) (t : Node) (visited : List String) :
    Keeps inv (record root t visited) fun _ => True := by
  refine keeps_then (keeps_lift fun _ _ => trivial) fun c => ?_
  exact keeps_then (keeps_modify fun e he => h.compiled e root c he) fun _ => keeps_pure trivial

theorem keeps_analyse (h : KeptByRequests inv) (fuel : Nat) : ∀ (visited : List String) (t : Node),
    Keeps inv (analyse fuel visited t) fun _ => True := by
  induction fuel with
  | zero => exact fun _ _ => keeps_pure trivial
  | succ fuel ih =>
    intro visited t
    rw [analyse_succ]
    refine keeps_foldlM (fun _ _ => True) (fun _ name visited _ => ?_) trivial
    refine keeps_asked fun e => ?_
    split
    · exact keeps_pure trivial
    refine keeps_then (h.tree _) fun target => keeps_then (keeps_inspect name target) fun _ => ?_
    exact keeps_then (ih _ _) fun visited => keeps_markAnalysed h name visited

theorem keeps_compileRoot (h : KeptByRequests inv) (fuel : Nat) :
    ∀ (visited : List String) (root : Root),
      Keeps inv (compileRoot fuel visited root) fun _ => True := by
  induction fuel with
  | zero => exact fun _ _ => keeps_throw
  | succ fuel ih =>
    intro visited root
    rw [compileRoot_succ]
    refine keeps_asked fun e => ?_
    split
    · exact keeps_pure trivial
    -- an eager search compiles roots with less fuel, and a lazy one only analyses
    have hsearch : ∀ visited t, Keeps inv (search fuel visited t) fun _ => True := by
      intro visited t
      refine keeps_asked fun e => ?_
      split
      · refine keeps_foldlM (fun _ _ => True) (fun _ name visited _ => ?_) trivial
        rw [eagerStep]
        split
        · exact keeps_pure trivial
        · exact keeps_then (ih _ _) fun _ => keeps_pure trivial
      · exact keeps_analyse h fuel visited t
    refine keeps_then (h.tree root) fun t => keeps_then (hsearch _ t) fun visited => ?_
    exact keeps_record h root t visited

/-- **Requests for validators.** -/
theorem keeps_validator (h : KeptByRequests inv) (root : Root) :
    Keeps inv (validator root) fun _ => True :=
  keeps_asked fun _ => keeps_then (keeps_compileRoot h _ _ root) fun _ => keeps_pure trivial

theorem keeps_answer (h : KeptByRequests inv) (limit : Nat) :
    ∀ className v (s s' : Evaluation) verdict, inv s.engine →
      (answer limit className v).run s = some (verdict, s') → inv s'.engine := by
  induction limit with
  | zero => exact fun _ _ _ _ _ _ h => nomatch h
  | succ limit ih =>
    intro className v s s' verdict hs hrun
    obtain ⟨hkept, -⟩ := keeps_validator h (.ofClass className) s.engine hs
    rw [answer_succ] at hrun
    rcases houtcome : outcome (validator (.ofClass className)) s.engine with ⟨error | w, e⟩ <;>
    rw [houtcome] at hrun hkept
    · cases hrun
      exact hkept
    · exact Trial.keeps_of_answers ih (s := { s with engine := e }) hkept hrun

/-- **Evaluations**, within any limit. -/
theorem keeps_evaluate (h : KeptByRequests inv) {e : Engine} {limit : Nat} {c : Criterion.On Value}
    {v : Value} {verdict : Verdict} {s : Evaluation} (he : inv e)
    (hrun : e.evaluate limit c v = some (verdict, s)) : inv s.engine :=
  Trial.keeps_of_answers (keeps_answer h limit) (s := ⟨e, []⟩) he hrun

end Engine

namespace Session

variable {inv : Engine → Prop} {s : Session}

theorem keeps_validate (h : Engine.KeptByRequests inv) (c : Criterion.On Value) (v : Value)
    (hs : inv s.engine) : inv (s.validate c v).2.engine := by
  unfold validate
  split
  · split
    case h_1 verdict state hrun => exact Engine.keeps_evaluate h hs hrun
    case h_2 => exact hs
  · exact hs

/-- **Actions**, whether they succeed or fail. -/
theorem keeps_perform (h : Engine.KeptByRequests inv)
    (hregister : ∀ schema, Keeps inv (Engine.register schema) fun _ => True) (hs : inv s.engine)
    (a : Action) : inv (s.perform a).2.engine := by
  cases a with
  | register schema => exact (hregister schema s.engine hs).1
  | tree root => exact (h.tree root s.engine hs).1
  | validator name root =>
    obtain ⟨hkept, -⟩ := Engine.keeps_validator h root s.engine hs
    rw [perform, keepValidator, ask_eq]
    rcases houtcome : outcome (Engine.validator root) s.engine with ⟨error | w, e⟩ <;>
    rw [houtcome] at hkept <;> exact hkept
  | check v =>
    rw [perform, check]
    cases v.className? with
    | none => exact hs
    | some name =>
      obtain ⟨hkept, -⟩ := Engine.keeps_validator h (.ofClass name) s.engine hs
      dsimp only
      rw [ask_eq]
      rcases houtcome : outcome (Engine.validator (.ofClass name)) s.engine with ⟨error | w, e⟩ <;>
      rw [houtcome] at hkept
      · exact hkept
      · exact keeps_validate h (s := { s with engine := e }) w.criterion v hkept
  | validate name v =>
    rw [perform]
    cases s.validators.lookup name with
    | none => exact hs
    | some w => exact keeps_validate h w.criterion v hs

/-- **Histories.** -/
theorem keeps_after (h : Engine.KeptByRequests inv)
    (hregister : ∀ schema, Keeps inv (Engine.register schema) fun _ => True) (hs : inv s.engine)
    (history : List Action) : inv (s.after history).engine := by
  induction history generalizing s with
  | nil => exact hs
  | cons a history ih => exact ih (keeps_perform h hregister hs a)

end Session

end Validation
