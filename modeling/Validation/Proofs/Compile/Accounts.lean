import Validation.Proofs.Compile.Parents
import Validation.Proofs.Compile.Steps

/-!
# Accounts of the slots

Between any two steps the counters of a slot can be accounted for by the agenda and the log: the
constraints of its node are those that have been processed and those still on the agenda, and the
slots right below it that are not absorbed are as many as it waits for. A slot that is absorbed waits
for nothing, and from there on nothing happens to it.

* `Counted`: the accounts of all slots.
* `Counted.process_cases`, `Counted.handOn_cases`: what a step does to the slots.
* `Counted.step`: a step keeps the accounts.
* `counted_of_reaches`: they are right at every stage that is reached.
-/

namespace Validation

/-! ### What is done and what is left -/

/-- The constraints whose criteria have been added to the slot `index`. -/
def processedAt (index : Nat) (log : List Event) : List Constraint :=
  log.filterMap fun
    | .processed i c => if i = index then some c else none
    | .absorbed _ _ => none

/-- The constraints of the slot `index`, which is that of the node, that a task processes. -/
def Task.constraintsAt (index : Nat) (n : Node) : Task → List Constraint
  | bucket o => n.constraints.filter (·.order == o)
  | process i c => if i = index then [c] else []
  | sweep => []
  | visit _ => []

/-- The constraints of the slot `index`, which is that of the node, that are still to be processed. -/
def leftAt (index : Nat) (n : Node) (agenda : List Task) : List Constraint :=
  agenda.flatMap (Task.constraintsAt index n)

/-- The number of slots right below the slot `index` that are not absorbed. -/
def openBelow (slots : List Slot) (index : Nat) : Nat :=
  slots.countP fun s => s.isBelow index && !s.absorbed

/-- The slot whose unit the event changes. -/
def Event.receiver : Event → Nat
  | processed index _ => index
  | absorbed _ above => above

/-- Whether an event may come after another: what was absorbed gets nothing and is not absorbed again. -/
def Event.Admits (e e' : Event) : Prop :=
  ∀ index above, e = .absorbed index above →
    e'.receiver ≠ index ∧ ∀ above', e' ≠ .absorbed index above'

/-- What is known of a slot between two steps. -/
structure Slot.Accounted (stage : Stage) (index : Nat) (s : Slot) : Prop where
  processed : (processedAt index stage.log ++ leftAt index s.node stage.agenda).Perm s.node.constraints
  items : s.pendingItems = (leftAt index s.node stage.agenda).length
  children : s.pendingChildren = openBelow stage.slots index
  settled : s.absorbed = true → s.pendingItems = 0 ∧ s.pendingChildren = 0
  logged : s.absorbed = true ↔ ∃ above, .absorbed index above ∈ stage.log

/-- What is known between two steps of a run for a tree. -/
structure Counted (n : Node) (stage : Stage) : Prop where
  frame : frameOf stage.slots = frameOf n.slots
  listed : ∀ index c, .process index c ∈ stage.agenda → index < stage.slots.length
  slots : ∀ index s, stage.slots[index]? = some s → Slot.Accounted stage index s
  once : stage.log.Pairwise Event.Admits

variable {link : Linker} {n : Node} {slots slots' : List Slot} {agenda rest : List Task}
  {log : List Event} {index above : Nat} {c : Constraint}

theorem processedAt_concat_processed (i index : Nat) (c : Constraint) (log : List Event) :
    processedAt i (log ++ [.processed index c]) =
      processedAt i log ++ if index = i then [c] else [] := by
  rw [processedAt, List.filterMap_append]
  split_ifs with hi <;> simp [processedAt, hi]

theorem processedAt_concat_absorbed (i index above : Nat) (log : List Event) :
    processedAt i (log ++ [.absorbed index above]) = processedAt i log := by
  rw [processedAt, List.filterMap_append]
  exact List.append_nil _

theorem leftAt_process (i index : Nat) (c : Constraint) (n : Node) (rest : List Task) :
    leftAt i n (.process index c :: rest) = (if index = i then [c] else []) ++ leftAt i n rest :=
  rfl

/-! ### Replacing one slot -/

theorem openBelow_set {i : Nat} {s s' : Slot} (hs : slots[i]? = some s)
    (hparent : s'.parent = s.parent) (index : Nat) :
    openBelow (slots.set i s') index + (if s.isBelow index && !s.absorbed then 1 else 0) =
      openBelow slots index + if s.isBelow index && !s'.absorbed then 1 else 0 := by
  obtain ⟨hlt, rfl⟩ := List.getElem?_eq_some_iff.1 hs
  have hpos : (if slots[i].isBelow index && !slots[i].absorbed then 1 else 0) ≤
      openBelow slots index := by
    split_ifs with h
    · exact List.countP_pos_iff.2 ⟨slots[i], List.getElem_mem hlt, h⟩
    · exact Nat.zero_le _
  have hset := List.countP_set (p := fun s => s.isBelow index && !s.absorbed) (l := slots) (a := s') hlt
  simp only [Slot.isBelow_congr hparent] at hset
  unfold openBelow at hpos ⊢
  omega

theorem openBelow_set_same {i : Nat} {s s' : Slot} (hs : slots[i]? = some s)
    (hparent : s'.parent = s.parent) (habsorbed : s'.absorbed = s.absorbed) (index : Nat) :
    openBelow (slots.set i s') index = openBelow slots index := by
  have hset := openBelow_set hs hparent index
  rw [habsorbed] at hset
  omega

namespace Slot

theorem isReady_iff {s : Slot} :
    s.isReady = true ↔ s.absorbed = false ∧ s.pendingItems = 0 ∧ s.pendingChildren = 0 := by
  simp [isReady, and_assoc]

/-- What processing a constraint does to a slot, apart from the unit. -/
structure Worked (s s' : Slot) : Prop where
  node : s'.node = s.node
  parent : s'.parent = s.parent
  absorbed : s'.absorbed = s.absorbed
  items : s'.pendingItems = s.pendingItems - 1
  children : s'.pendingChildren = s.pendingChildren

/-- What adding a part does to a slot, apart from the unit. -/
structure Extended (s s' : Slot) : Prop where
  node : s'.node = s.node
  parent : s'.parent = s.parent
  absorbed : s'.absorbed = s.absorbed
  items : s'.pendingItems = s.pendingItems
  children : s'.pendingChildren = s.pendingChildren - 1

theorem worked_of_work {s s' : Slot} (h : s.work c = .ok s') : s.Worked s' := by
  obtain ⟨_, -, h⟩ := bind_eq_ok.1 h
  obtain ⟨_, -, h⟩ := bind_eq_ok.1 h
  obtain rfl := pure_eq_ok.1 h
  exact ⟨rfl, rfl, rfl, rfl, rfl⟩

theorem extended_of_absorb {s s' : Slot} {part : Criterion.On Value} (h : s.absorb part = .ok s') :
    s.Extended s' := by
  obtain ⟨_, -, h⟩ := bind_eq_ok.1 h
  obtain rfl := pure_eq_ok.1 h
  exact ⟨rfl, rfl, rfl, rfl, rfl⟩

end Slot

/-- Slots of the frame of a tree are the slots of the tree, with what has been done of them. -/
theorem exists_of_frame (h : frameOf slots = frameOf n.slots) {s : Slot}
    (hs : slots[index]? = some s) :
    ∃ s₀, n.slots[index]? = some s₀ ∧ s₀.node = s.node ∧ s₀.parent = s.parent := by
  have hframe : (frameOf n.slots)[index]? = some (s.node, s.parent) := by
    rw [← h, frameOf, List.getElem?_map, hs]
    rfl
  rw [frameOf, List.getElem?_map, Option.map_eq_some_iff] at hframe
  obtain ⟨s₀, hs₀, heq⟩ := hframe
  exact ⟨s₀, hs₀, (Prod.mk.inj heq).1, (Prod.mk.inj heq).2⟩

/-- The slot above a slot is there, and comes before it. -/
theorem exists_above (h : frameOf slots = frameOf n.slots) {s : Slot} (hs : slots[index]? = some s)
    {w : Wrapper} (hparent : s.parent = some (above, w)) :
    above < index ∧ ∃ p, slots[above]? = some p := by
  -- what is above is read off the slots before any work
  obtain ⟨s₀, hs₀, -, hparent₀⟩ := exists_of_frame h hs
  rcases Node.parent_slots hs₀ with ⟨-, hnone⟩ | ⟨above', w', hsome, hlt⟩
  · rw [hparent₀, hparent] at hnone
    cases hnone
  · rw [hparent₀, hparent] at hsome
    cases hsome
    have hlength := (List.getElem?_eq_some_iff.1 hs).1
    exact ⟨hlt, _, List.getElem?_eq_getElem (Nat.lt_trans hlt hlength)⟩

/-! ### What the agenda holds for a slot -/

/-- The constraints of a place that are put on the agenda for a slot are those of its node. -/
theorem leftAt_items {s : Slot} (hs : slots[index]? = some s) (o : Order) :
    leftAt index s.node ((itemsOf slots o).map fun (i, c) => .process i c) =
      s.node.constraints.filter (·.order == o) := by
  have hone : ∀ e ∈ slots.zipIdx,
      ((e.1.node.constraints.filter (·.order == o)).map (e.2, ·)).flatMap
          (fun (i, c) => Task.constraintsAt index s.node (.process i c)) =
        if e.2 = 0 + index then e.1.node.constraints.filter (·.order == o) else [] := by
    intro e _
    rw [Nat.zero_add, List.flatMap_map]
    by_cases he : e.2 = index <;> simp [Task.constraintsAt, he]
  have hall := flatMap_zipIdx_at (fun s : Slot => s.node.constraints.filter (·.order == o)) slots 0
    index
  rw [hs, ← List.flatMap_congr hone] at hall
  rw [leftAt, List.flatMap_map, itemsOf, List.flatMap_assoc]
  exact hall

/-- Before any work, all constraints of a node are on the agenda. -/
theorem leftAt_start {m : Node} (hm : m ∈ n.nodes) (index : Nat) :
    (leftAt index m (Stage.start n).agenda).Perm m.constraints := by
  rw [leftAt, Stage.start, List.flatMap_map]
  exact perm_flatMap_filter Constraint.order (Order.ascending_bucketOrders n).nodup fun c hc =>
    Order.mem_bucketOrders.2 (.inr ⟨m, hm, c, hc, rfl⟩)

/-! ### One step -/

/-- Before any work. -/
theorem counted_start (n : Node) : Counted n (Stage.start n) := by
  have hopen : ∀ s ∈ n.slots, s.absorbed = false := by
    intro s hs
    obtain ⟨m, -, p, rfl⟩ := Node.mem_slotsFrom hs
    rfl
  refine ⟨rfl, fun index c hmem => ?_, fun index s hs => ?_, .nil⟩
  · obtain ⟨o, -, ho⟩ := List.mem_map.1 hmem
    cases ho
  · -- no slot is absorbed yet, so all children count
    have hparts : openBelow n.slots index = s.node.children.length := by
      rw [← Node.parts_slots hs, List.length_filterMap_eq_countP]
      refine List.countP_congr fun t ht => ?_
      rw [hopen t ht, Bool.not_false, Bool.and_true]
      rfl
    obtain ⟨m, hm, p, rfl⟩ := Node.mem_slotsFrom (List.mem_of_getElem? hs)
    have hleft : (leftAt index m (Stage.start n).agenda).Perm m.constraints := leftAt_start hm index
    refine ⟨hleft, hleft.length_eq.symm, hparts.symm, fun h => (nomatch h), ?_⟩
    exact iff_of_false (fun h => nomatch h) fun ⟨_, h⟩ => nomatch h

/-- The agenda is changed, but not what it holds for each slot. -/
theorem Counted.reschedule {agenda' : List Task} (h : Counted n ⟨slots, agenda, log⟩)
    (hlisted : ∀ index c, .process index c ∈ agenda' → index < slots.length)
    (hleft : ∀ index s, slots[index]? = some s →
      leftAt index s.node agenda' = leftAt index s.node agenda) :
    Counted n ⟨slots, agenda', log⟩ := by
  refine ⟨h.frame, hlisted, fun index s hs => ?_, h.once⟩
  have hs' := h.slots index s hs
  have heq := hleft index s hs
  exact ⟨heq ▸ hs'.processed, heq ▸ hs'.items, hs'.children, hs'.settled, hs'.logged⟩

/-- **A constraint is processed** only where there is one left to process. -/
theorem Counted.process_safe (h : Counted n ⟨slots, .process index c :: rest, log⟩) :
    ∃ s, slots[index]? = some s ∧ c ∈ s.node.constraints ∧ s.absorbed = false ∧
      0 < s.pendingItems := by
  have hlt := h.listed index c List.mem_cons_self
  have hs := List.getElem?_eq_getElem hlt
  obtain ⟨hprocessed, hitems, -, hsettled, -⟩ := h.slots index slots[index] hs
  rw [leftAt_process, if_pos rfl, List.singleton_append] at hprocessed hitems
  have hpos : 0 < slots[index].pendingItems := by
    rw [hitems]
    exact Nat.succ_pos _
  refine ⟨_, hs, ?_, ?_, hpos⟩
  · exact hprocessed.subset (List.mem_append_right _ List.mem_cons_self)
  · refine Bool.eq_false_iff.2 fun habsorbed => ?_
    have hzero := (hsettled habsorbed).1
    omega

/-- **A slot is handed on** only to one that is not absorbed and waits for it. -/
theorem Counted.handOn_safe {stage : Stage} (h : Counted n stage)
    (hands : handsTo? stage.slots index = some above) :
    ∃ s w p, stage.slots[index]? = some s ∧ s.parent = some (above, w) ∧ s.isReady = true ∧
      above < index ∧ stage.slots[above]? = some p ∧ p.absorbed = false ∧ 0 < p.pendingChildren := by
  obtain ⟨s, w, hs, hparent, hready⟩ := handsTo?_eq_some.1 hands
  obtain ⟨hlt, p, hp⟩ := exists_above h.frame hs hparent
  obtain ⟨-, -, hchildren, hsettled, -⟩ := h.slots above p hp
  have hpos : 0 < p.pendingChildren := by
    -- the slot itself is one that is counted
    rw [hchildren]
    refine List.countP_pos_iff.2 ⟨s, List.mem_of_getElem? hs, ?_⟩
    rw [Slot.isBelow_iff.2 ⟨w, hparent⟩, (Slot.isReady_iff.1 hready).1]
    rfl
  refine ⟨s, w, p, hs, hparent, hready, hlt, hp, ?_, hpos⟩
  refine Bool.eq_false_iff.2 fun habsorbed => ?_
  have hzero := (hsettled habsorbed).2
  omega

theorem Counted.process_cases (h : Counted n ⟨slots, .process index c :: rest, log⟩)
    (hstep : updateAt slots index (Slot.work c) = .ok slots') :
    ∃ s s', slots[index]? = some s ∧ s.absorbed = false ∧ s.Worked s' ∧
      slots.set index s' = slots' := by
  obtain ⟨s, hs, -, hopen, -⟩ := h.process_safe
  obtain ⟨s', hwork, hset⟩ := (updateAt_eq_ok hs).1 hstep
  exact ⟨s, s', hs, hopen, Slot.worked_of_work hwork, hset⟩

theorem Counted.handOn_cases {stage : Stage} (h : Counted n stage)
    (hands : handsTo? stage.slots index = some above)
    (hstep : handOnAt link stage.slots index = .ok slots') :
    ∃ s w p p', stage.slots[index]? = some s ∧ s.parent = some (above, w) ∧ s.isReady = true ∧
      above < index ∧ stage.slots[above]? = some p ∧ p.absorbed = false ∧ p.Extended p' ∧
      (stage.slots.set index s.handOn).set above p' = slots' := by
  obtain ⟨s, w, p, hs, hparent, hready, hlt, hp, hopen, -⟩ := h.handOn_safe hands
  simp only [handOnAt, hs, hparent, if_pos hready, bind_eq_ok] at hstep
  obtain ⟨_, -, part, -, hstep⟩ := hstep
  have hp' : (stage.slots.set index s.handOn)[above]? = some p := by
    rw [List.getElem?_set_ne (Nat.ne_of_gt hlt), hp]
  obtain ⟨p', habsorb, hset⟩ := (updateAt_eq_ok hp').1 hstep
  exact ⟨s, w, p, p', hs, hparent, hready, hlt, hp, hopen, Slot.extended_of_absorb habsorb, hset⟩

/-- An event is added of slots that are not absorbed. -/
theorem Counted.admits {stage : Stage} (h : Counted n stage) {e : Event}
    (hreceiver : ∃ s, stage.slots[e.receiver]? = some s ∧ s.absorbed = false)
    (habsorbs : ∀ i above, e = .absorbed i above →
      ∃ s, stage.slots[i]? = some s ∧ s.absorbed = false) :
    (stage.log ++ [e]).Pairwise Event.Admits := by
  have hnot : ∀ i, (∃ s, stage.slots[i]? = some s ∧ s.absorbed = false) →
      ∀ above, .absorbed i above ∉ stage.log := by
    rintro i ⟨s, hs, hopen⟩ above hmem
    rw [(h.slots i s hs).logged.2 ⟨above, hmem⟩] at hopen
    cases hopen
  refine List.pairwise_append.2 ⟨h.once, List.pairwise_singleton _ _, fun e₀ he₀ e₁ he₁ => ?_⟩
  obtain rfl := List.mem_singleton.1 he₁
  rintro i above rfl
  refine ⟨?_, fun above' heq => hnot i (habsorbs i above' heq) above he₀⟩
  rintro rfl
  exact hnot _ hreceiver above he₀

/-- Processing a constraint keeps the accounts. -/
theorem Counted.process (h : Counted n ⟨slots, .process index c :: rest, log⟩)
    (hstep : updateAt slots index (Slot.work c) = .ok slots') :
    Counted n ⟨slots', rest, log ++ [.processed index c]⟩ := by
  obtain ⟨s, s', hs, hopen, hworked, rfl⟩ := h.process_cases hstep
  have hlogged : ∀ i, (∃ above, .absorbed i above ∈ log ++ [.processed index c]) ↔
      ∃ above, .absorbed i above ∈ log := by
    simp
  refine ⟨(frameOf_set hs hworked.node hworked.parent).trans h.frame, fun i c' hmem => ?_,
    fun i t ht => ?_, h.admits ⟨s, hs, hopen⟩ nofun⟩
  · rw [List.length_set]
    exact h.listed i c' (List.mem_cons_of_mem _ hmem)
  -- what has been processed and what is left are the same constraints as before
  have hmoved : ∀ m, processedAt i log ++ leftAt i m (.process index c :: rest) =
      processedAt i (log ++ [.processed index c]) ++ leftAt i m rest := by
    intro m
    rw [leftAt_process, processedAt_concat_processed, List.append_assoc]
  have hcounted := openBelow_set_same hs hworked.parent hworked.absorbed i
  rcases getElem?_set_cases ht with ⟨rfl, rfl⟩ | ⟨hne, ht⟩
  · obtain ⟨hperm, hitems, hchildren, -, hlog⟩ := h.slots i s hs
    rw [hmoved, ← hworked.node] at hperm
    rw [leftAt_process, if_pos rfl, ← hworked.node] at hitems
    refine ⟨hperm, ?_, ?_, fun habsorbed => ?_, ?_⟩
    · rw [hworked.items]
      exact Nat.sub_eq_of_eq_add hitems
    · rw [hworked.children, hcounted]
      exact hchildren
    · rw [hworked.absorbed, hopen] at habsorbed
      cases habsorbed
    · rw [hworked.absorbed, hlogged]
      exact hlog
  · obtain ⟨hperm, hitems, hchildren, hsettled, hlog⟩ := h.slots i t ht
    rw [hmoved] at hperm
    rw [leftAt_process, if_neg (Ne.symm hne)] at hitems
    exact ⟨hperm, hitems, hchildren.trans hcounted.symm, hsettled, hlog.trans (hlogged i).symm⟩

/-- Handing on a slot takes one off the slots below the slot above, and off no others. -/
theorem openBelow_handOn {s p p' : Slot} {w : Wrapper} (hs : slots[index]? = some s)
    (hopen : s.absorbed = false) (hparent : s.parent = some (above, w))
    (hp : (slots.set index s.handOn)[above]? = some p) (hextended : p.Extended p') (i : Nat) :
    openBelow ((slots.set index s.handOn).set above p') i =
      openBelow slots i - if i = above then 1 else 0 := by
  have hhandOn : s.handOn.parent = s.parent ∧ s.handOn.absorbed = true := ⟨rfl, rfl⟩
  have hset := openBelow_set hs hhandOn.1 i
  rw [hopen, hhandOn.2, Bool.not_false, Bool.and_true, Bool.not_true, Bool.and_false] at hset
  have hbelow : s.isBelow i = true ↔ i = above := by
    rw [Slot.isBelow_iff, hparent]
    constructor
    · rintro ⟨w', heq⟩
      cases heq
      rfl
    · rintro rfl
      exact ⟨w, rfl⟩
  rw [if_congr hbelow rfl rfl] at hset
  rw [openBelow_set_same hp hextended.parent hextended.absorbed]
  exact (Nat.sub_eq_of_eq_add hset.symm).symm

/-- Handing on a slot keeps the accounts. -/
theorem Counted.handOn (h : Counted n ⟨slots, .visit index :: rest, log⟩)
    (hands : handsTo? slots index = some above) (hstep : handOnAt link slots index = .ok slots') :
    Counted n ⟨slots', rest, log ++ [.absorbed index above]⟩ := by
  obtain ⟨s, w, p, p', hs, hparent, hready, hlt, hp, hopen, hextended, rfl⟩ :=
    h.handOn_cases hands hstep
  obtain ⟨hopen', hnoItems, hnoChildren⟩ := Slot.isReady_iff.1 hready
  have hp' : (slots.set index s.handOn)[above]? = some p := by
    rw [List.getElem?_set_ne (Nat.ne_of_gt hlt)]
    exact hp
  have hcounted := openBelow_handOn hs hopen' hparent hp' hextended
  have hframe : frameOf (slots.set index s.handOn) = frameOf slots := frameOf_set hs rfl rfl
  have hprocessed := fun i => processedAt_concat_absorbed i index above log
  have hlogged : ∀ i, (∃ a, .absorbed i a ∈ log ++ [.absorbed index above]) ↔
      (∃ a, .absorbed i a ∈ log) ∨ i = index := by
    intro i
    simp [exists_or]
  refine ⟨(frameOf_set hp' hextended.node hextended.parent).trans (hframe.trans h.frame),
    fun i c hmem => ?_, fun i t ht => ?_, h.admits ⟨p, hp, hopen⟩ ?_⟩
  · rw [List.length_set, List.length_set]
    exact h.listed i c (List.mem_cons_of_mem _ hmem)
  · -- the slot above, the slot itself, and the others
    rcases getElem?_set_cases ht with ⟨rfl, rfl⟩ | ⟨hne, ht⟩
    · obtain ⟨hperm, hitems, hchildren, -, hlog⟩ := h.slots i p hp
      refine ⟨?_, ?_, ?_, fun habsorbed => ?_, ?_⟩
      · rw [hprocessed, hextended.node]
        exact hperm
      · rw [hextended.items, hextended.node]
        exact hitems
      · rw [hcounted, if_pos rfl, hextended.children, hchildren]
      · rw [hextended.absorbed, hopen] at habsorbed
        cases habsorbed
      · rw [hlogged, or_iff_left (Nat.ne_of_lt hlt), hextended.absorbed]
        exact hlog
    rcases getElem?_set_cases ht with ⟨rfl, rfl⟩ | ⟨hne', ht⟩
    · obtain ⟨hperm, hitems, hchildren, -, -⟩ := h.slots i s hs
      refine ⟨(hprocessed i).symm ▸ hperm, hitems, ?_, fun _ => ⟨hnoItems, hnoChildren⟩, ?_⟩
      · rw [hcounted, if_neg hne]
        exact hchildren
      · rw [hlogged]
        exact iff_of_true rfl (.inr rfl)
    · obtain ⟨hperm, hitems, hchildren, hsettled, hlog⟩ := h.slots i t ht
      refine ⟨(hprocessed i).symm ▸ hperm, hitems, ?_, hsettled, ?_⟩
      · rw [hcounted, if_neg hne]
        exact hchildren
      · rw [hlogged, or_iff_left hne']
        exact hlog
  · rintro i a heq
    cases heq
    exact ⟨s, hs, hopen'⟩

/-- **One step** keeps the accounts. -/
theorem Counted.step {stage stage' : Stage} (h : Counted n stage) (hstep : stage.Step link stage') :
    Counted n stage' := by
  cases hstep with
  | bucket slots o rest log =>
    -- the constraints of the place are now on the agenda one by one
    refine h.reschedule (fun i c hmem => ?_) fun i s hs => ?_
    · rcases List.mem_append.1 hmem with hmem | hmem
      · obtain ⟨⟨i', c'⟩, hitem, heq⟩ := List.mem_map.1 hmem
        cases heq
        obtain ⟨⟨s, i'⟩, hs, hitem⟩ := List.mem_flatMap.1 hitem
        obtain ⟨c', -, heq⟩ := List.mem_map.1 hitem
        cases heq
        exact (List.getElem?_eq_some_iff.1 (List.mem_zipIdx_iff_getElem?.1 hs)).1
      · exact h.listed i c (by simpa using hmem)
    · have hitems := leftAt_items hs o
      rw [leftAt] at hitems
      rw [leftAt, List.flatMap_append, hitems]
      rfl
  | process rest log hstep => exact h.process hstep
  | sweep slots rest log =>
    refine h.reschedule (fun i c hmem => ?_) fun i s _ => ?_
    · refine h.listed i c (List.mem_cons_of_mem _ ?_)
      simpa using hmem
    · have hvisits : (((openIndices slots).reverse.map Task.visit).flatMap
          (Task.constraintsAt i s.node)) = [] := by
        rw [List.flatMap_map]
        exact List.flatMap_eq_nil_iff.2 fun _ _ => rfl
      rw [leftAt, List.flatMap_append, hvisits]
      rfl
  | pass rest log _ =>
    exact h.reschedule (fun i c hmem => h.listed i c (List.mem_cons_of_mem _ hmem)) fun _ _ _ => rfl
  | handOn rest log hands hstep => exact h.handOn hands hstep

/-- **At every stage** that is reached the accounts are right. -/
theorem counted_of_reaches {stage : Stage} (h : (Stage.start n).Reaches link stage) :
    Counted n stage := by
  induction h with
  | refl => exact counted_start n
  | tail _ hstep ih => exact ih.step hstep

end Validation
