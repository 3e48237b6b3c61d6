import Mathlib.Logic.Relation
import Validation.Compile.Slots
import Validation.Proofs.Except

/-!
# Compiling step by step

Compiling a tree is two loops, one within the other: over the places in the order of checks, and for
each place first over the constraints and then over the slots that are open. Here it is taken apart
into steps, so that one can say what holds between any two of them, also when a later one fails. An
agenda says what is still to be done, and a log what has been added to which slot.

* `Stage.Step`: a constraint is processed, a slot is visited, or a loop is entered.
* `Stage.Halts`: nothing is left to do, or the next step fails.
* `compile_eq_iff`: what compiling a tree comes to is what the steps from its slots come to.
-/

namespace Validation

/-- What is to be done when a tree is compiled. -/
inductive Task where
  /-- To work off a place in the order of checks. -/
  | bucket (o : Order)
  /-- To process a constraint of a slot. -/
  | process (index : Nat) (c : Constraint)
  /-- To visit the slots that are open. -/
  | sweep
  /-- To hand a slot on if it is ready. -/
  | visit (index : Nat)

/-- What is added to the unit of a slot. -/
inductive Event where
  /-- The criterion of a constraint. -/
  | processed (index : Nat) (c : Constraint)
  /-- The criterion of the slot `index`, wrapped, to that of the slot `above`. -/
  | absorbed (index above : Nat)

/-- The slots between two steps, with what is still to be done and what has been added. -/
structure Stage where
  slots : List Slot
  agenda : List Task
  log : List Event

/-- The slot above a slot, if the slot is to be handed on when it is visited. -/
def handsTo? (slots : List Slot) (index : Nat) : Option Nat := do
  let s ← slots[index]?
  let (above, _) ← s.parent
  if s.isReady then some above else none

/-- The criterion of a tree from its slots when all is done. -/
def criterionOf (link : Linker) : List Slot → Except AnalysisError (Criterion.On Value)
  | [] => return .truth
  | root :: _ => return (← root.finish link).lift

namespace Stage

/-- The stage before any work. -/
def start (n : Node) : Stage := ⟨n.slots, (bucketOrders n).map .bucket, []⟩

/-- One step, which does what is first on the agenda. -/
inductive Step (link : Linker) : Stage → Stage → Prop where
  | bucket (slots : List Slot) (o : Order) (rest : List Task) (log : List Event) :
      Step link ⟨slots, .bucket o :: rest, log⟩
        ⟨slots, ((itemsOf slots o).map fun (index, c) => .process index c) ++ .sweep :: rest, log⟩
  | process {slots slots' : List Slot} {index : Nat} {c : Constraint} (rest : List Task)
      (log : List Event) (h : updateAt slots index (Slot.work c) = .ok slots') :
      Step link ⟨slots, .process index c :: rest, log⟩ ⟨slots', rest, log ++ [.processed index c]⟩
  | sweep (slots : List Slot) (rest : List Task) (log : List Event) :
      Step link ⟨slots, .sweep :: rest, log⟩
        ⟨slots, ((openIndices slots).reverse.map .visit) ++ rest, log⟩
  | pass {slots : List Slot} {index : Nat} (rest : List Task) (log : List Event)
      (h : handsTo? slots index = none) :
      Step link ⟨slots, .visit index :: rest, log⟩ ⟨slots, rest, log⟩
  | handOn {slots slots' : List Slot} {index above : Nat} (rest : List Task) (log : List Event)
      (h : handsTo? slots index = some above) (h' : handOnAt link slots index = .ok slots') :
      Step link ⟨slots, .visit index :: rest, log⟩ ⟨slots', rest, log ++ [.absorbed index above]⟩

/-- Some steps, or none. -/
abbrev Reaches (link : Linker) : Stage → Stage → Prop := Relation.ReflTransGen (Step link)

/-- There is no further step, and this is what compiling comes to. -/
inductive Halts (link : Linker) : Stage → Except AnalysisError (Criterion.On Value) → Prop where
  | process {slots : List Slot} {index : Nat} {c : Constraint} {e : AnalysisError}
      (rest : List Task) (log : List Event)
      (h : updateAt slots index (Slot.work c) = .error e) :
      Halts link ⟨slots, .process index c :: rest, log⟩ (.error e)
  | visit {slots : List Slot} {index : Nat} {e : AnalysisError} (rest : List Task)
      (log : List Event) (h : handOnAt link slots index = .error e) :
      Halts link ⟨slots, .visit index :: rest, log⟩ (.error e)
  | done (slots : List Slot) (log : List Event) :
      Halts link ⟨slots, [], log⟩ (criterionOf link slots)

end Stage

variable {link : Linker} {stage stage' : Stage} {slots slots' : List Slot} {index above : Nat}

theorem handsTo?_eq_some : handsTo? slots index = some above ↔
    ∃ s w, slots[index]? = some s ∧ s.parent = some (above, w) ∧ s.isReady = true := by
  simp only [handsTo?, Option.bind_eq_bind, Option.bind_eq_some_iff, Option.ite_none_right_eq_some,
    Option.some.injEq, Prod.exists]
  constructor
  · rintro ⟨s, hs, _, w, hparent, hready, rfl⟩
    exact ⟨s, w, hs, hparent, hready⟩
  · rintro ⟨s, w, hs, hparent, hready⟩
    exact ⟨s, hs, above, w, hparent, hready, rfl⟩

/-- A slot that is not to be handed on is left alone. -/
theorem handOnAt_of_pass (h : handsTo? slots index = none) : handOnAt link slots index = .ok slots := by
  unfold handOnAt
  cases hs : slots[index]? with
  | none => rfl
  | some s =>
    cases hparent : s.parent with
    | none => simp only [hparent]
    | some p =>
      obtain ⟨above, w⟩ := p
      have hready : ¬s.isReady = true := fun hready => by
        rw [handsTo?_eq_some.2 ⟨s, w, hs, hparent, hready⟩] at h
        cases h
      simp only [hparent, if_neg hready]

/-! ### The steps come to what compiling comes to -/

/-- A task done at once. -/
def Task.run (link : Linker) (slots : List Slot) : Task → Except AnalysisError (List Slot)
  | bucket o => Validation.bucket link slots o
  | process index c => updateAt slots index (Slot.work c)
  | sweep => Validation.sweep link slots
  | visit index => handOnAt link slots index

/-- The slots when all that is left is done. -/
def Stage.finalSlots (link : Linker) (stage : Stage) : Except AnalysisError (List Slot) :=
  stage.agenda.foldlM (Task.run link) stage.slots

theorem finalSlots_start (link : Linker) (n : Node) :
    (Stage.start n).finalSlots link = (bucketOrders n).foldlM (bucket link) n.slots := by
  rw [Stage.finalSlots, Stage.start, List.foldlM_map]
  rfl

theorem compile_eq_finalSlots (link : Linker) (n : Node) :
    compile link n = (Stage.start n).finalSlots link >>= criterionOf link := by
  rw [finalSlots_start]
  rfl

/-- What is left to do comes to the same before and after a step. -/
theorem finalSlots_of_step (h : stage.Step link stage') :
    stage'.finalSlots link = stage.finalSlots link := by
  cases h with
  | bucket slots o rest log =>
    -- a bucket is its constraints one after another, and a sweep behind them
    have hrun : Task.run link slots (.bucket o) = ((itemsOf slots o).map fun (index, c) =>
        Task.process index c).foldlM (Task.run link) slots >>= fun worked =>
          Task.run link worked .sweep := by
      rw [List.foldlM_map]
      rfl
    simp only [Stage.finalSlots, List.foldlM_append, List.foldlM_cons, hrun, bind_assoc]
  | process rest log h =>
    rw [Stage.finalSlots, Stage.finalSlots, List.foldlM_cons, Task.run, h, ok_bind]
  | sweep slots rest log =>
    -- a sweep is the visits to the open slots
    have hrun : Task.run link slots .sweep =
        ((openIndices slots).reverse.map Task.visit).foldlM (Task.run link) slots := by
      rw [List.foldlM_map]
      rfl
    simp only [Stage.finalSlots, List.foldlM_append, List.foldlM_cons, hrun]
  | pass rest log h =>
    rw [Stage.finalSlots, Stage.finalSlots, List.foldlM_cons, Task.run, handOnAt_of_pass h, ok_bind]
  | handOn rest log h h' =>
    rw [Stage.finalSlots, Stage.finalSlots, List.foldlM_cons, Task.run, h', ok_bind]

theorem finalSlots_of_reaches (h : stage.Reaches link stage') :
    stage'.finalSlots link = stage.finalSlots link := by
  induction h with
  | refl => rfl
  | tail _ hstep ih => exact (finalSlots_of_step hstep).trans ih

theorem criterionOf_of_halts {r : Except AnalysisError (Criterion.On Value)}
    (h : stage.Halts link r) : stage.finalSlots link >>= criterionOf link = r := by
  cases h with
  | process rest log h =>
    rw [Stage.finalSlots, List.foldlM_cons, Task.run, h]
    rfl
  | visit rest log h =>
    rw [Stage.finalSlots, List.foldlM_cons, Task.run, h]
    rfl
  | done => rfl

/-- Whatever else is on the agenda, these tasks are done in some steps, or one of the steps fails. -/
def Completes (link : Linker) (tasks : List Task) : Prop :=
  ∀ (slots : List Slot) (rest : List Task) (log : List Event),
    ∃ stage, Stage.Reaches link ⟨slots, tasks ++ rest, log⟩ stage ∧
      ((∃ r, stage.Halts link r) ∨ stage.agenda = rest)

theorem completes_append {tasks tasks' : List Task} (h : Completes link tasks)
    (h' : Completes link tasks') : Completes link (tasks ++ tasks') := by
  intro slots rest log
  obtain ⟨⟨slots₁, agenda, log₁⟩, hreaches, hend⟩ := h slots (tasks' ++ rest) log
  rw [List.append_assoc]
  rcases hend with hhalts | hagenda
  · exact ⟨_, hreaches, .inl hhalts⟩
  · obtain rfl : agenda = tasks' ++ rest := hagenda
    obtain ⟨stage, hreaches', hend⟩ := h' slots₁ rest log₁
    exact ⟨stage, hreaches.trans hreaches', hend⟩

theorem completes_of_forall {tasks : List Task} (h : ∀ t ∈ tasks, Completes link [t]) :
    Completes link tasks := by
  induction tasks with
  | nil => exact fun slots rest log => ⟨_, .refl, .inr rfl⟩
  | cons t tasks ih =>
    have hrest := ih fun t' ht' => h t' (List.mem_cons_of_mem _ ht')
    exact completes_append (h t List.mem_cons_self) hrest

/-- A task that is replaced by others is done when they are. -/
theorem completes_of_step {t : Task} (tasks : List Slot → List Task)
    (h : ∀ slots, Completes link (tasks slots))
    (hstep : ∀ slots rest log,
      Stage.Step link ⟨slots, t :: rest, log⟩ ⟨slots, tasks slots ++ rest, log⟩) :
    Completes link [t] := by
  intro slots rest log
  obtain ⟨stage, hreaches, hend⟩ := h slots slots rest log
  exact ⟨stage, .head (hstep slots rest log) hreaches, hend⟩

theorem completes_process (index : Nat) (c : Constraint) : Completes link [.process index c] := by
  intro slots rest log
  cases h : updateAt slots index (Slot.work c) with
  | error e => exact ⟨_, .refl, .inl ⟨_, .process rest log h⟩⟩
  | ok slots' => exact ⟨_, .single (.process rest log h), .inr rfl⟩

theorem completes_visit (index : Nat) : Completes link [.visit index] := by
  intro slots rest log
  cases h : handsTo? slots index with
  | none => exact ⟨_, .single (.pass rest log h), .inr rfl⟩
  | some above =>
    cases h' : handOnAt link slots index with
    | error e => exact ⟨_, .refl, .inl ⟨_, .visit rest log h'⟩⟩
    | ok slots' => exact ⟨_, .single (.handOn rest log h h'), .inr rfl⟩

theorem completes_sweep : Completes link [.sweep] := by
  refine completes_of_step (fun slots => (openIndices slots).reverse.map .visit) (fun slots => ?_)
    Stage.Step.sweep
  refine completes_of_forall fun t ht => ?_
  obtain ⟨index, -, rfl⟩ := List.mem_map.1 ht
  exact completes_visit index

theorem completes_bucket (o : Order) : Completes link [.bucket o] := by
  refine completes_of_step
    (fun slots => ((itemsOf slots o).map fun (index, c) => .process index c) ++ [.sweep])
    (fun slots => completes_append (completes_of_forall fun t ht => ?_) completes_sweep)
    fun slots rest log => ?_
  · obtain ⟨⟨index, c⟩, -, rfl⟩ := List.mem_map.1 ht
    exact completes_process index c
  · rw [List.append_assoc, List.singleton_append]
    exact .bucket slots o rest log

/-- **What compiling a tree comes to** is what the steps from its slots come to. -/
theorem compile_eq_iff {n : Node} {r : Except AnalysisError (Criterion.On Value)} :
    compile link n = r ↔ ∃ stage, (Stage.start n).Reaches link stage ∧ stage.Halts link r := by
  -- there is an end, and at any end it is what compiling comes to
  have hend : ∃ stage r, (Stage.start n).Reaches link stage ∧ stage.Halts link r := by
    have hall : Completes link ((bucketOrders n).map .bucket) := completes_of_forall fun t ht => by
      obtain ⟨o, -, rfl⟩ := List.mem_map.1 ht
      exact completes_bucket o
    obtain ⟨⟨slots, agenda, log⟩, hreaches, hend⟩ := hall n.slots [] []
    rw [List.append_nil] at hreaches
    rcases hend with ⟨r, hhalts⟩ | hagenda
    · exact ⟨_, r, hreaches, hhalts⟩
    · obtain rfl : agenda = [] := hagenda
      exact ⟨_, _, hreaches, .done slots log⟩
  have hsame : ∀ {stage r}, (Stage.start n).Reaches link stage → stage.Halts link r →
      compile link n = r := fun hreaches hhalts => by
    rw [compile_eq_finalSlots, ← finalSlots_of_reaches hreaches, criterionOf_of_halts hhalts]
  constructor
  · rintro rfl
    obtain ⟨stage, r, hreaches, hhalts⟩ := hend
    rw [hsame hreaches hhalts]
    exact ⟨stage, hreaches, hhalts⟩
  · rintro ⟨stage, hreaches, hhalts⟩
    exact hsame hreaches hhalts

end Validation
