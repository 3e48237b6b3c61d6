import Mathlib
import Validation.Proofs.Builtin
import Validation.Proofs.Compile.Accounts

/-!
# The counters of the slots are exact

What the accounts of the slots come to in a whole run, be it successful or not: the counters count
what is left, nothing is taken from a counter that is zero, and a slot that has been absorbed stays as
it is. A run that comes to its end has absorbed every slot but the first, so the criterion of the
first is that of the whole tree.

* `absorbed_of_under`: below an absorbed slot all slots are absorbed.
* `absorbed_stays`: an absorbed slot stays as it is.
* `closed_of_reaches`: what is left at the end.
* `counters_are_exact`: all of it, of every run.
-/

namespace Validation

variable {link : Linker} {n : Node} {stage later : Stage} {slots : List Slot} {log : List Event}
  {index : Nat} {s : Slot}

/-- A slot lies somewhere below another. -/
abbrev Under (slots : List Slot) : Nat → Nat → Prop :=
  Relation.TransGen fun above index => ∃ s, slots[index]? = some s ∧ s.isBelow above = true

/-- **Below an absorbed slot** all slots are absorbed. -/
theorem absorbed_of_under (h : Counted n stage) (hs : stage.slots[index]? = some s)
    (habsorbed : s.absorbed = true) {j : Nat} (hj : Under stage.slots index j) :
    ∀ t, stage.slots[j]? = some t → t.absorbed = true := by
  -- an absorbed slot waits for none right below it
  have hdirect : ∀ {i p t}, stage.slots[i]? = some p → p.absorbed = true →
      t ∈ stage.slots → t.isBelow i = true → t.absorbed = true := by
    intro i p t hp habsorbed ht hbelow
    obtain ⟨-, -, hchildren, hsettled, -⟩ := h.slots i p hp
    rw [(hsettled habsorbed).2, eq_comm, openBelow, List.countP_eq_zero] at hchildren
    have hnot := hchildren t ht
    rw [hbelow, Bool.true_and, Bool.not_eq_true', Bool.not_eq_false] at hnot
    exact hnot
  induction hj with
  | single hbelow =>
    obtain ⟨t, ht, hbelow⟩ := hbelow
    intro t' ht'
    obtain rfl := Option.some.inj (ht.symm.trans ht')
    exact hdirect hs habsorbed (List.mem_of_getElem? ht) hbelow
  | tail _ hbelow ih =>
    obtain ⟨t, ht, hbelow⟩ := hbelow
    intro t' ht'
    obtain rfl := Option.some.inj (ht.symm.trans ht')
    obtain ⟨w, hparent⟩ := Slot.isBelow_iff.1 hbelow
    obtain ⟨-, p, hp⟩ := exists_above h.frame ht hparent
    exact hdirect hp (ih p hp) (List.mem_of_getElem? ht) hbelow

theorem absorbed_stays_of_step (h : Counted n stage) (hstep : stage.Step link later)
    (hs : stage.slots[index]? = some s) (habsorbed : s.absorbed = true) :
    later.slots[index]? = some s := by
  -- what a step changes is not absorbed
  have hne : ∀ {i t}, stage.slots[i]? = some t → t.absorbed = false → i ≠ index := by
    rintro i t ht hopen rfl
    rw [Option.some.inj (ht.symm.trans hs), habsorbed] at hopen
    cases hopen
  cases hstep with
  | bucket | sweep | pass => exact hs
  | process rest log hstep =>
    obtain ⟨t, t', ht, hopen, -, rfl⟩ := h.process_cases hstep
    exact (List.getElem?_set_ne (hne ht hopen)).trans hs
  | handOn rest log hands hstep =>
    obtain ⟨t, w, p, p', ht, -, hready, -, hp, hopen, -, rfl⟩ := h.handOn_cases hands hstep
    rw [List.getElem?_set_ne (hne hp hopen),
      List.getElem?_set_ne (hne ht (Slot.isReady_iff.1 hready).1)]
    exact hs

/-- **An absorbed slot stays as it is.** -/
theorem absorbed_stays (h : Counted n stage) (hlater : stage.Reaches link later)
    (hs : stage.slots[index]? = some s) (habsorbed : s.absorbed = true) :
    later.slots[index]? = some s := by
  have hboth : Counted n later ∧ later.slots[index]? = some s := by
    induction hlater with
    | refl => exact ⟨h, hs⟩
    | tail _ hstep ih =>
      exact ⟨ih.1.step hstep, absorbed_stays_of_step ih.1 hstep ih.2 habsorbed⟩
  exact hboth.2

/-! ### The end of a run -/

/-- Nothing is left to do in the slots: the first waits for nothing, and the others are absorbed. -/
def Closed (slots : List Slot) : Prop :=
  ∃ root rest, slots = root :: rest ∧ root.pendingItems = 0 ∧ root.pendingChildren = 0 ∧
    ∀ s ∈ rest, s.absorbed = true

/-- When all places are done, a slot with one above it is absorbed. -/
theorem Slot.absorbed_of_all {s₀ : Slot} (hparent : s₀.parent.isSome = true)
    (hs : s₀.reached link (fun _ => true) = .ok s) : s.absorbed = true := by
  rw [reached, isHandedOn, hparent, Bool.and_true, if_pos rfl] at hs
  obtain ⟨_, -, hs⟩ := bind_eq_ok.1 hs
  obtain rfl := pure_eq_ok.1 hs
  rfl

/-- When all places are done, the first slot waits for nothing. -/
theorem Slot.settled_of_all {s₀ : Slot} (hparent : s₀.parent = none)
    (hs : s₀.reached link (fun _ => true) = .ok s) :
    s.pendingItems = 0 ∧ s.pendingChildren = 0 := by
  rw [reached, isHandedOn, hparent, Option.isSome_none, Bool.false_and,
    if_neg Bool.false_ne_true] at hs
  obtain ⟨_, -, hs⟩ := bind_eq_ok.1 hs
  obtain rfl := pure_eq_ok.1 hs
  simp

/-- **What is left at the end** of the loops: nothing. -/
theorem closed_of_reaches (h : (Stage.start n).Reaches link ⟨slots, [], log⟩) : Closed slots := by
  have hfinal : (bucketOrders n).foldlM (bucket link) n.slots = .ok slots := by
    rw [← finalSlots_start, ← finalSlots_of_reaches h]
    rfl
  have hall := (foldlM_bucket_eq_ok (List.nil_append _).symm (Slots.initial link n)).1 hfinal
  have hbelow : ∀ s₀ ∈ Node.slotsOf 0 1 n.children, s₀.parent.isSome = true := by
    intro s₀ hs₀
    obtain ⟨j, hj⟩ := List.mem_iff_getElem?.1 hs₀
    have hslots : n.slots[j + 1]? = some s₀ := by
      rw [Node.slots, Node.slotsFrom_eq, List.getElem?_cons_succ]
      exact hj
    rcases Node.parent_slots hslots with ⟨hzero, -⟩ | ⟨above, w, hparent, -⟩
    · cases hzero
    · rw [hparent]
      rfl
  rw [Node.slots, Node.slotsFrom_eq, Slots, List.forall₂_cons_left_iff] at hall
  obtain ⟨root, rest, hroot, hrest, rfl⟩ := hall
  obtain ⟨hitems, hchildren⟩ := Slot.settled_of_all rfl hroot
  refine ⟨root, rest, rfl, hitems, hchildren, fun s hs => ?_⟩
  obtain ⟨s₀, hs₀, hreached⟩ := exists_mem_of_forall₂ hrest s hs
  exact Slot.absorbed_of_all (hbelow s₀ hs₀) hreached

/-! ### All of it -/

/-- The slots right below a slot are told by the frame alone. -/
theorem parts_of_frame {slots' : List Slot} (h : frameOf slots = frameOf slots') (index : Nat) :
    slots.filterMap (Slot.part? index) = slots'.filterMap (Slot.part? index) := by
  have hpart : ∀ l : List Slot, l.filterMap (Slot.part? index) =
      (frameOf l).filterMap fun p => p.2.bind fun at_ =>
        if at_.1 = index then some ⟨at_.2, p.1⟩ else none := by
    intro l
    rw [frameOf, List.filterMap_map]
    rfl
  rw [hpart, hpart, h]

/-- The counters of a slot count what is left, and what is absorbed is done with. -/
structure Slot.Exact (link : Linker) (stage : Stage) (index : Nat) (s : Slot) : Prop where
  /-- The constraints that have been processed, and as many more as are pending. -/
  items : ∃ left, (processedAt index stage.log ++ left).Perm s.node.constraints ∧
    s.pendingItems = left.length
  /-- The slots right below are those of the children. -/
  parts : stage.slots.filterMap (Slot.part? index) = s.node.children
  /-- Of them, as many as are pending are not absorbed. -/
  children : s.pendingChildren = openBelow stage.slots index
  /-- It is absorbed when its criterion has been added to that of the slot above. -/
  logged : s.absorbed = true ↔ ∃ above, .absorbed index above ∈ stage.log
  settled : s.absorbed = true → s.pendingItems = 0 ∧
    ∀ j t, Under stage.slots index j → stage.slots[j]? = some t → t.absorbed = true
  stays : s.absorbed = true → ∀ later, stage.Reaches link later → later.slots[index]? = some s

/-- What the next step adds to is not absorbed, and what it takes one off is not zero. -/
structure Stage.Safe (stage : Stage) : Prop where
  process : ∀ index c rest, stage.agenda = .process index c :: rest →
    ∃ s, stage.slots[index]? = some s ∧ s.absorbed = false ∧ 0 < s.pendingItems
  handOn : ∀ index above rest, stage.agenda = .visit index :: rest →
    handsTo? stage.slots index = some above →
      (∃ s, stage.slots[index]? = some s ∧ s.absorbed = false) ∧
      ∃ p, stage.slots[above]? = some p ∧ p.absorbed = false ∧ 0 < p.pendingChildren

theorem exact_of_counted (h : Counted n stage) (hs : stage.slots[index]? = some s) :
    Slot.Exact link stage index s := by
  obtain ⟨hperm, hitems, hchildren, hsettled, hlogged⟩ := h.slots index s hs
  have hparts : stage.slots.filterMap (Slot.part? index) = s.node.children := by
    obtain ⟨s₀, hs₀, hnode, -⟩ := exists_of_frame h.frame hs
    rw [parts_of_frame h.frame, Node.parts_slots hs₀, hnode]
  exact ⟨⟨_, hperm, hitems⟩, hparts, hchildren, hlogged,
    fun habsorbed => ⟨(hsettled habsorbed).1, fun j t hj => absorbed_of_under h hs habsorbed hj t⟩,
    fun habsorbed later hlater => absorbed_stays h hlater hs habsorbed⟩

theorem safe_of_counted (h : Counted n stage) : stage.Safe := by
  obtain ⟨slots, agenda, log⟩ := stage
  refine ⟨fun index c rest hagenda => ?_, fun index above rest _ hands => ?_⟩
  · obtain rfl : agenda = .process index c :: rest := hagenda
    obtain ⟨s, hs, -, hopen, hpos⟩ := h.process_safe
    exact ⟨s, hs, hopen, hpos⟩
  · obtain ⟨s, w, p, hs, -, hready, -, hp, hopen, hpos⟩ := h.handOn_safe hands
    exact ⟨⟨s, hs, (Slot.isReady_iff.1 hready).1⟩, p, hp, hopen, hpos⟩

/-- **The counters of the slots are exact** at every stage that is reached when a tree is compiled,
whatever it comes to. No step takes one off a counter that is zero or adds to a slot that is absorbed,
no slot is absorbed twice, and at the end of the loops all slots but the first are absorbed and the
first waits for nothing. -/
theorem counters_are_exact (link : Linker) (n : Node) :
    (∀ r, compile link n = r ↔
      ∃ stage, (Stage.start n).Reaches link stage ∧ stage.Halts link r) ∧
    ∀ stage, (Stage.start n).Reaches link stage →
      frameOf stage.slots = frameOf n.slots ∧
      (∀ index s, stage.slots[index]? = some s → Slot.Exact link stage index s) ∧
      stage.Safe ∧ stage.log.Pairwise Event.Admits ∧
      (stage.agenda = [] → Closed stage.slots) := by
  refine ⟨fun r => compile_eq_iff, fun stage hreaches => ?_⟩
  have hcounted := counted_of_reaches hreaches
  refine ⟨hcounted.frame, fun index s hs => exact_of_counted hcounted hs, safe_of_counted hcounted,
    hcounted.once, fun hagenda => ?_⟩
  obtain ⟨slots, agenda, log⟩ := stage
  obtain rfl : agenda = [] := hagenda
  exact closed_of_reaches hreaches

/-- The tree of maps of texts, where neither the map nor a key may be null. -/
def presentKeys : Node :=
  let notNull : Constraint := .assemble Builtin.notNull .empty []
  ⟨.ofRoot "Map", .map ⟨.text, []⟩ ⟨.text, []⟩, [notNull], none,
    [⟨.mapKey, ⟨⟨"Map", [.mapKey]⟩, .text, [notNull], none, []⟩⟩]⟩

/-- When the tree is compiled, the constraint of the keys is processed and their slot absorbed. -/
theorem keys_are_absorbed :
    ∃ stage, (Stage.start presentKeys).Reaches Engine.linked stage ∧ stage.agenda = [] ∧
      Closed stage.slots ∧ ∃ keys, stage.slots[1]? = some keys ∧ keys.absorbed = true ∧
        (processedAt 1 stage.log).Perm keys.node.constraints := by
  obtain ⟨c, hc⟩ : ∃ c, compile Engine.linked presentKeys = .ok c := exists_of_isOk (by cbv)
  obtain ⟨stage, hreaches, hhalts⟩ := ((counters_are_exact Engine.linked presentKeys).1 _).1 hc
  obtain ⟨hframe, hexact, -, -, hclosed⟩ :=
    (counters_are_exact Engine.linked presentKeys).2 stage hreaches
  have hagenda : stage.agenda = [] := by
    generalize hr : Except.ok c = r at hhalts
    cases hhalts with
    | process | visit => cases hr
    | done => rfl
  have hslots := hclosed hagenda
  refine ⟨stage, hreaches, hagenda, hslots, ?_⟩
  obtain ⟨root, rest, heq, -, -, habsorbed⟩ := hslots
  -- there is one slot below the root
  have hlength : rest.length = 1 := by
    have hsame := congrArg List.length hframe
    rw [frameOf, frameOf, List.length_map, List.length_map, heq] at hsame
    exact Nat.succ.inj hsame
  obtain ⟨keys, rfl⟩ := List.length_eq_one_iff.1 hlength
  have hkeys : stage.slots[1]? = some keys := by
    rw [heq]
    rfl
  -- nothing is pending in an absorbed slot, so all its constraints have been processed
  specialize habsorbed keys List.mem_cons_self
  obtain ⟨⟨left, hperm, hpending⟩, -, -, -, hsettled, -⟩ := hexact 1 keys hkeys
  rw [(hsettled habsorbed).1, eq_comm, List.length_eq_zero_iff] at hpending
  rw [hpending, List.append_nil] at hperm
  exact ⟨keys, hkeys, habsorbed, hperm⟩

end Validation
