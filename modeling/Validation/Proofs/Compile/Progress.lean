import Validation.Proofs.Compile.Finished

/-!
# What is done of a slot

The state of every slot between two buckets, told by the place that has been reached and the node
of the slot alone. A slot that is not handed on holds what its node has collected so far and counts
what is still to come; it is handed on in the bucket of its last place, neither sooner nor later.

* `Slot.reached`: the state of a slot when some places are done.
* `Slot.worked`: its state within a bucket, before the sweep.
* `foldlM_itemsOf_eq_ok`: working off the constraints of a place takes every slot from the one to
  the other.
-/

namespace Validation

open Constraint (Deferred)

/-- A list of slots in the states that a function gives them. -/
abbrev Slots (state : Slot → Except AnalysisError Slot) (initial slots : List Slot) : Prop :=
  List.Forall₂ (fun s₀ s => state s₀ = .ok s) initial slots

namespace Slot

variable {link : Linker} {d : Order → Bool} {o : Order}

/-- Whether the slot is handed on when the places `d` are done. -/
def isHandedOn (d : Order → Bool) (s : Slot) : Bool := s.parent.isSome && d s.node.last

/-- The slot when it is handed on, which needs the criterion of its node. -/
def handedOn (link : Linker) (s : Slot) : Except AnalysisError Slot := do
  let _ ← s.node.finished link
  return ⟨s.node, s.parent, .empty s.node.type.shape, 0, 0, true⟩

/-- The slot when the places `d` are done. -/
def reached (link : Linker) (d : Order → Bool) (s : Slot) : Except AnalysisError Slot :=
  if s.isHandedOn d then s.handedOn link
  else do
    return ⟨s.node, s.parent, ← s.node.unit link d, s.node.constraints.countP (!d ·.order),
      s.node.children.countP (!d ·.node.last), false⟩

/-- The slot when the constraints of the place `o` are done, and of the parts only those of places
before it. -/
def worked (link : Linker) (o : Order) (s : Slot) : Except AnalysisError Slot :=
  if s.isHandedOn (Order.before o) then s.handedOn link
  else do
    let unit ← s.node.unit link (Order.before o)
    return ⟨s.node, s.parent, ← unit.pushAll ((s.node.own.filter (·.1 == o)).map (·.2)),
      s.node.constraints.countP (!Order.upTo o ·.order),
      s.node.children.countP (!Order.before o ·.node.last), false⟩

/-- The slot with all constraints of its node at a place done. -/
def workAll (o : Order) (s : Slot) : Except AnalysisError Slot :=
  (s.node.constraints.filter (·.order == o)).foldlM (fun s c => s.work c) s

theorem foldlM_work_eq_ok {cs : List Constraint} {s w : Slot} :
    cs.foldlM (fun s c => s.work c) s = .ok w ↔
      ∃ u, s.unit.pushAll (cs.map fun c _ => c.process s.node.position) = .ok u ∧
        { s with unit := u, pendingItems := s.pendingItems - cs.length } = w := by
  induction cs generalizing s with
  | nil =>
    simp only [List.foldlM_nil, pure_eq_ok, List.map_nil, ShapedCriteria.pushAll_nil,
      List.length_nil, Nat.sub_zero]
    constructor
    · rintro rfl; exact ⟨s.unit, rfl, rfl⟩
    · rintro ⟨u, rfl, rfl⟩; rfl
  | cons c rest ih =>
    simp only [foldlM_cons_eq_ok, work, bind_eq_ok, pure_eq_ok, List.map_cons,
      ShapedCriteria.pushAll_cons_eq_ok]
    constructor
    · rintro ⟨_, ⟨t, ht, u₁, hu₁, rfl⟩, h⟩
      obtain ⟨u, hu, rfl⟩ := ih.1 h
      refine ⟨u, ⟨t, ht, u₁, hu₁, hu⟩, ?_⟩
      simp only [List.length_cons, Nat.sub_sub, Nat.add_comm]
    · rintro ⟨u, ⟨t, ht, u₁, hu₁, hu⟩, rfl⟩
      refine ⟨_, ⟨t, ht, u₁, hu₁, rfl⟩, ih.2 ⟨u, hu, ?_⟩⟩
      simp only [List.length_cons, Nat.sub_sub, Nat.add_comm]

theorem own_at (n : Node) (o : Order) :
    (n.own.filter (·.1 == o)).map (·.2) =
      (n.constraints.filter (·.order == o)).map fun c _ => c.process n.position := by
  rw [Node.own, List.filter_map, List.map_map]
  rfl

/-- **Work on one slot.** Doing the constraints of a place takes the slot from its state before the
place to its state within the bucket. -/
theorem workAll_eq_ok {s₀ s w : Slot} (hs : s₀.reached link (Order.before o) = .ok s) :
    s.workAll o = .ok w ↔ s₀.worked link o = .ok w := by
  unfold reached at hs
  unfold workAll worked
  split at hs
  case isTrue hon =>
    -- all places of the node are before this one, so there is nothing to do
    obtain ⟨t, ht, hs⟩ := bind_eq_ok.1 hs
    rw [pure_eq_ok] at hs
    subst hs
    have hlast := (Bool.and_eq_true_iff.1 hon).2
    rw [Node.done_last (Order.before_downClosed o), Bool.and_eq_true, Bool.and_eq_true,
      List.all_eq_true] at hlast
    have hnone : s₀.node.constraints.filter (·.order == o) = [] := by
      rw [List.filter_eq_nil_iff]
      intro c hc
      rw [Order.before_ne (hlast.1.2 c hc)]
      exact Bool.false_ne_true
    rw [if_pos hon, handedOn, ht, hnone]
    rfl
  case isFalse hon =>
    obtain ⟨u₀, hu₀, hs⟩ := bind_eq_ok.1 hs
    rw [pure_eq_ok] at hs
    subst hs
    rw [if_neg hon, hu₀, ok_bind, foldlM_work_eq_ok, ← own_at]
    have hcount : s₀.node.constraints.countP (!Order.before o ·.order) -
        (s₀.node.constraints.filter (·.order == o)).length =
          s₀.node.constraints.countP (!Order.upTo o ·.order) := by
      rw [Order.countP_not_before, ← List.countP_eq_length_filter, Nat.add_sub_cancel]
    simp only [hcount, bind_eq_ok, pure_eq_ok]

end Slot

theorem updateAt_eq_ok {α ε : Type} {l l' : List α} {i : Nat} {a : α} {f : α → Except ε α}
    (ha : l[i]? = some a) : updateAt l i f = .ok l' ↔ ∃ a', f a = .ok a' ∧ l.set i a' = l' := by
  simp only [updateAt, ha, bind_eq_ok, pure_eq_ok]

theorem updateAt_append {α ε : Type} (pre post : List α) (a : α) (f : α → Except ε α) :
    updateAt (pre ++ a :: post) pre.length f = do return pre ++ (← f a) :: post := by
  have hget : (pre ++ a :: post)[pre.length]? = some a := by simp
  unfold updateAt
  rw [hget]
  simp only [List.set_append_right _ _ (Nat.le_refl _), Nat.sub_self, List.set_cons_zero]

/-- Updates at one place of a list, one after another, are those of the member there. -/
theorem foldlM_updateAt_eq_ok {α β ε : Type} {f : β → α → Except ε α} {pre post : List α} {a : α}
    {bs : List β} {out : List α} :
    (bs.map (pre.length, ·)).foldlM (fun l (i, b) => updateAt l i (f b)) (pre ++ a :: post) =
        .ok out ↔
      ∃ a', bs.foldlM (fun a b => f b a) a = .ok a' ∧ pre ++ a' :: post = out := by
  induction bs generalizing a with
  | nil => simp
  | cons b rest ih =>
    simp only [List.map_cons, foldlM_cons_eq_ok, updateAt_append, bind_eq_ok, pure_eq_ok]
    constructor
    · rintro ⟨_, ⟨a₁, ha₁, rfl⟩, h⟩
      obtain ⟨a', ha', rfl⟩ := ih.1 h
      exact ⟨a', ⟨a₁, ha₁, ha'⟩, rfl⟩
    · rintro ⟨a', ⟨a₁, ha₁, ha'⟩, rfl⟩
      exact ⟨_, ⟨a₁, ha₁, rfl⟩, ih.2 ⟨a', ha', rfl⟩⟩

/-- The constraints of a place, with the numbers of their slots counted from `index` on. -/
def itemsFrom (index : Nat) (o : Order) (slots : List Slot) : List (Nat × Constraint) :=
  (slots.zipIdx index).flatMap fun (s, index) =>
    (s.node.constraints.filter (·.order == o)).map (index, ·)

/-- Working off the constraints of a place works them off slot by slot. -/
theorem foldlM_items_eq_ok (o : Order) (pre slots out : List Slot) :
    (itemsFrom pre.length o slots).foldlM
        (fun slots (index, c) => updateAt slots index (Slot.work c)) (pre ++ slots) = .ok out ↔
      ∃ ws, Slots (Slot.workAll o) slots ws ∧ pre ++ ws = out := by
  induction slots generalizing pre with
  | nil => simp [itemsFrom]
  | cons s rest ih =>
    have hitems : itemsFrom pre.length o (s :: rest) =
        (s.node.constraints.filter (·.order == o)).map (pre.length, ·) ++
          itemsFrom (pre ++ [s]).length o rest := by
      simp [itemsFrom, List.zipIdx_cons]
    rw [hitems, foldlM_append_eq_ok]
    simp only [foldlM_updateAt_eq_ok]
    constructor
    · rintro ⟨_, ⟨w, hw, rfl⟩, h⟩
      -- the slot that is worked off joins those before
      rw [show pre ++ w :: rest = (pre ++ [w]) ++ rest by simp,
        show (pre ++ [s]).length = (pre ++ [w]).length by simp] at h
      obtain ⟨ws, hws, rfl⟩ := (ih _).1 h
      exact ⟨w :: ws, .cons hw hws, by simp⟩
    · rintro ⟨_, hall, rfl⟩
      obtain ⟨w, ws, hw, hws, rfl⟩ := List.forall₂_cons_left_iff.1 hall
      refine ⟨pre ++ w :: rest, ⟨w, hw, rfl⟩, ?_⟩
      rw [show pre ++ w :: rest = (pre ++ [w]) ++ rest by simp,
        show (pre ++ [s]).length = (pre ++ [w]).length by simp]
      exact (ih _).2 ⟨ws, hws, by simp⟩

/-- **Work on all slots.** It succeeds with the states of all slots within the bucket. -/
theorem foldlM_itemsOf_eq_ok {link : Linker} {o : Order} {initial slots out : List Slot}
    (hs : Slots (Slot.reached link (Order.before o)) initial slots) :
    (itemsOf slots o).foldlM (fun slots (index, c) => updateAt slots index (Slot.work c)) slots =
        .ok out ↔ Slots (Slot.worked link o) initial out := by
  have h := foldlM_items_eq_ok o [] slots out
  simp only [List.nil_append, exists_eq_right] at h
  refine Iff.trans h ?_
  clear h
  induction hs generalizing out with
  | nil => simp
  | cons hs hrest ih =>
    simp only [Slots, List.forall₂_cons_left_iff, Slot.workAll_eq_ok hs] at ih ⊢
    simp only [ih]

end Validation
