import Validation.Proofs.Compile.Progress

/-!
# The sweep hands on whole subtrees

The slots of a subtree lie together, the subtree's own slot first. A sweep from the last slot to the
first goes through the subtrees of a node's children, the latest declared first, and then comes to
the node itself: all parts that become ready in the bucket have been added by then. So a sweep over
the slots of a subtree changes these slots and, at most, the slot of the node above.

* `absorbParts`: what a sweep over the subtrees of children does to the slot above them.
* `sweep_subtree`: a sweep over the slots of a subtree.
* `sweep_eq_ok`: the sweep of a bucket takes every slot to its state after the bucket.
-/

namespace Validation

open Constraint (Deferred)

variable {link : Linker} {o : Order}

/-- The numbers of the open slots, counted from `index` on. -/
def openFrom (index : Nat) (slots : List Slot) : List Nat :=
  (slots.zipIdx index).filterMap fun (s, index) =>
    if !s.absorbed && s.pendingItems == 0 then some index else none

theorem openFrom_append (index : Nat) (a b : List Slot) :
    openFrom index (a ++ b) = openFrom index a ++ openFrom (index + a.length) b := by
  rw [openFrom, List.zipIdx_append, List.filterMap_append]
  rfl

/-- The slot of a node with the part of a child added, if this is the part's last place. -/
def absorbPart (link : Linker) (o : Order) (k : Child Node) (s : Slot) :
    Except AnalysisError Slot :=
  if k.node.last == o then do
    s.absorb (← k.wrapper.wrap (← k.node.finished link))
  else .ok s

/-- The slot of a node with the parts of children added whose last place this is, the latest
declared first. -/
def absorbParts (link : Linker) (o : Order) : List (Child Node) → Slot → Except AnalysisError Slot
  | [], s => .ok s
  | k :: rest, s => do absorbPart link o k (← absorbParts link o rest s)

theorem absorbPart_eq_ok {k : Child Node} {s s' : Slot} (hk : (k.node.last == o) = true) :
    absorbPart link o k s = .ok s' ↔ ∃ t, (Node.part link k).2 () = .ok t ∧
      ∃ u, s.unit.push t = .ok u ∧
        { s with unit := u, pendingChildren := s.pendingChildren - 1 } = s' := by
  rw [absorbPart, if_pos hk]
  simp only [Slot.absorb, bind_eq_ok, pure_eq_ok, Node.part_eq_ok]
  constructor
  · rintro ⟨t, ht, c, hc, u, hu, rfl⟩
    exact ⟨_, ⟨t, ht, c, hc, rfl⟩, u, hu, rfl⟩
  · rintro ⟨_, ⟨t, ht, c, hc, rfl⟩, u, hu, rfl⟩
    exact ⟨t, ht, c, hc, u, hu, rfl⟩

/-- Adding parts one after another pushes their criteria and counts them off. -/
theorem absorbParts_eq_ok {children : List (Child Node)} {s s' : Slot} :
    absorbParts link o children s = .ok s' ↔
      ∃ u, s.unit.pushAll (((Node.parts link children).filter (·.1 == o)).map (·.2)) = .ok u ∧
        { s with unit := u
                 pendingChildren := s.pendingChildren -
                   children.countP (·.node.last == o) } = s' := by
  induction children generalizing s' with
  | nil => simp [absorbParts, Node.parts]
  | cons k rest ih =>
    -- the parts are in reverse, so that of the first child is added last
    have hparts : Node.parts link (k :: rest) = Node.parts link rest ++ [Node.part link k] := rfl
    simp only [absorbParts, bind_eq_ok, hparts, List.filter_append, List.map_append,
      ShapedCriteria.pushAll_append_eq_ok, List.countP_cons, ih]
    cases hk : k.node.last == o with
    | false =>
      have hplace : ((Node.part link k).1 == o) = false := hk
      simp only [absorbPart, hk, Bool.false_eq_true, if_false, Except.ok.injEq, List.filter_cons,
        hplace, List.filter_nil, List.map_nil, ShapedCriteria.pushAll_nil, Nat.add_zero]
      constructor
      · rintro ⟨_, ⟨u, hu, rfl⟩, rfl⟩
        exact ⟨u, ⟨u, hu, rfl⟩, rfl⟩
      · rintro ⟨u, ⟨_, hu, rfl⟩, rfl⟩
        exact ⟨_, ⟨_, hu, rfl⟩, rfl⟩
    | true =>
      have hplace : ((Node.part link k).1 == o) = true := hk
      simp only [absorbPart_eq_ok hk, List.filter_cons, hplace, if_true, List.filter_nil,
        List.map_cons, List.map_nil, ShapedCriteria.pushAll_cons_eq_ok,
        ShapedCriteria.pushAll_nil]
      constructor
      · rintro ⟨_, ⟨u₁, hu₁, rfl⟩, t, ht, u, hu, rfl⟩
        exact ⟨u, ⟨u₁, hu₁, t, ht, u, hu, rfl⟩, rfl⟩
      · rintro ⟨u, ⟨u₁, hu₁, t, ht, _, hu, rfl⟩, rfl⟩
        exact ⟨_, ⟨u₁, hu₁, rfl⟩, t, ht, _, hu, rfl⟩

namespace Node

/-- The slot of a node before any work. -/
def slot (parent : Option (Nat × Wrapper)) (n : Node) : Slot :=
  ⟨n, parent, .empty n.type.shape, n.constraints.length, n.children.length, false⟩

theorem slotsFrom_eq (parent : Option (Nat × Wrapper)) (index : Nat) (n : Node) :
    n.slotsFrom parent index = n.slot parent :: slotsOf index (index + 1) n.children := by
  obtain ⟨location, type, constraints, cascade, children⟩ := n
  rw [slotsFrom]
  rfl

theorem count_eq (n : Node) : n.count = 1 + countAll n.children := by
  obtain ⟨location, type, constraints, cascade, children⟩ := n
  rw [count]

theorem length_slotsFrom (parent : Option (Nat × Wrapper)) (index : Nat) (n : Node) :
    (n.slotsFrom parent index).length = n.count := by
  induction n using Node.induction generalizing parent index with
  | _ n ih =>
    have key : ∀ (children : List (Child Node)), (∀ k ∈ children, k ∈ n.children) →
        ∀ start, (slotsOf index start children).length = countAll children := by
      intro children
      induction children with
      | nil => intro _ _; rfl
      | cons k rest ihrest =>
        intro hsub start
        rw [slotsOf, countAll, List.length_append, ih k (hsub k List.mem_cons_self),
          ihrest fun k' hk' => hsub k' (List.mem_cons_of_mem _ hk')]
    rw [slotsFrom_eq, count_eq, List.length_cons, key n.children fun _ h => h, Nat.add_comm]

end Node

theorem set_self_of_getElem? {α : Type} {l : List α} {i : Nat} {a : α} (h : l[i]? = some a) :
    l.set i a = l := by
  obtain ⟨_, rfl⟩ := List.getElem?_eq_some_iff.1 h
  exact List.set_getElem_self _

/-- What a sweep over the slots of a subtree does: the slots reach their states after the bucket,
and the slot `s` above them gets the subtree's part if this is its last place. -/
def SweepsSubtree (link : Linker) (o : Order) (n : Node) : Prop :=
  ∀ (pre post seg out : List Slot) (above : Nat) (w : Wrapper) (s : Slot),
    pre[above]? = some s →
    Slots (Slot.worked link o) (n.slotsFrom (some (above, w)) pre.length) seg →
      ((openFrom pre.length seg).reverse.foldlM (handOnAt link) (pre ++ seg ++ post) = .ok out ↔
        ∃ s' seg', absorbPart link o ⟨w, n⟩ s = .ok s' ∧
          Slots (Slot.reached link (Order.upTo o)) (n.slotsFrom (some (above, w)) pre.length) seg' ∧
          pre.set above s' ++ seg' ++ post = out)

/-- The sweep over the subtrees of children goes from the last to the first. -/
theorem sweep_children {children : List (Child Node)}
    (hsub : ∀ k ∈ children, SweepsSubtree link o k.node) (pre post out : List Slot)
    {seg : List Slot} {above : Nat} {s : Slot} (hs : pre[above]? = some s)
    (hseg : Slots (Slot.worked link o) (Node.slotsOf above pre.length children) seg) :
    (openFrom pre.length seg).reverse.foldlM (handOnAt link) (pre ++ seg ++ post) = .ok out ↔
      ∃ s' seg', absorbParts link o children s = .ok s' ∧
        Slots (Slot.reached link (Order.upTo o)) (Node.slotsOf above pre.length children) seg' ∧
        pre.set above s' ++ seg' ++ post = out := by
  have habove : above < pre.length := (List.getElem?_eq_some_iff.1 hs).1
  induction children generalizing pre post seg out s with
  | nil =>
    rw [Node.slotsOf, Slots, List.forall₂_nil_left_iff] at hseg
    subst hseg
    simp [absorbParts, Node.slotsOf, openFrom, set_self_of_getElem? hs]
  | cons k rest ih =>
    obtain ⟨w, n⟩ := k
    rw [Node.slotsOf, Slots, forall₂_append_iff] at hseg
    obtain ⟨seg₁, seg₂, hseg₁, hseg₂, rfl⟩ := hseg
    have hlen : seg₁.length = n.count := by
      rw [← hseg₁.length_eq, Node.length_slotsFrom]
    have hpre₁ : (pre ++ seg₁)[above]? = some s := by
      rw [List.getElem?_append_left habove, hs]
    have hlen₁ : pre.length + seg₁.length = (pre ++ seg₁).length := List.length_append.symm
    have hrest : Slots (Slot.worked link o) (Node.slotsOf above (pre ++ seg₁).length rest) seg₂ := by
      rw [← hlen₁, hlen]; exact hseg₂
    rw [openFrom_append, List.reverse_append, foldlM_append_eq_ok, hlen₁,
      show pre ++ (seg₁ ++ seg₂) ++ post = (pre ++ seg₁) ++ seg₂ ++ post by simp]
    simp only [ih (fun k hk => hsub k (List.mem_cons_of_mem _ hk)) _ post _ hpre₁ hrest
      (Nat.lt_of_lt_of_le habove (by simp)), List.set_append_left _ _ habove]
    -- the first subtree, with the slot above it as the later ones have left it
    have hfirst : ∀ (s₁ : Slot) (seg₂' : List Slot),
        (openFrom pre.length seg₁).reverse.foldlM (handOnAt link)
            (pre.set above s₁ ++ seg₁ ++ seg₂' ++ post) = .ok out ↔
          ∃ s' seg₁', absorbPart link o ⟨w, n⟩ s₁ = .ok s' ∧
            Slots (Slot.reached link (Order.upTo o)) (n.slotsFrom (some (above, w)) pre.length)
              seg₁' ∧
            pre.set above s' ++ seg₁' ++ (seg₂' ++ post) = out := by
      intro s₁ seg₂'
      have h := hsub ⟨w, n⟩ List.mem_cons_self (pre.set above s₁) (seg₂' ++ post) seg₁ out above w
        s₁ (List.getElem?_set_self habove)
      rw [List.length_set] at h
      simpa only [List.set_set, List.append_assoc] using h hseg₁
    simp only [absorbParts, bind_eq_ok, Node.slotsOf, Slots, forall₂_append_iff]
    constructor
    · rintro ⟨_, ⟨s₁, seg₂', hs₁, hseg₂', rfl⟩, h⟩
      obtain ⟨s', seg₁', hs', hseg₁', rfl⟩ := (hfirst s₁ seg₂').1 h
      rw [← hlen₁, hlen] at hseg₂'
      exact ⟨s', _, ⟨s₁, hs₁, hs'⟩, ⟨seg₁', seg₂', hseg₁', hseg₂', rfl⟩, by simp⟩
    · rintro ⟨s', _, ⟨s₁, hs₁, hs'⟩, ⟨seg₁', seg₂', hseg₁', hseg₂', rfl⟩, rfl⟩
      rw [← hlen, hlen₁] at hseg₂'
      exact ⟨_, ⟨s₁, seg₂', hs₁, hseg₂', rfl⟩,
        (hfirst s₁ seg₂').2 ⟨s', seg₁', hs', hseg₁', by simp⟩⟩

namespace Slot

/-- The slot with all of its node collected up to a place, not handed on. -/
def collected (o : Order) (unit : ShapedCriteria) (s : Slot) : Slot :=
  ⟨s.node, s.parent, unit, s.node.constraints.countP (!Order.upTo o ·.order),
    s.node.children.countP (!Order.upTo o ·.node.last), false⟩

/-- A collected slot is ready exactly when the last place of its node is reached. -/
theorem isReady_collected (o : Order) (u : ShapedCriteria) (s : Slot) :
    (s.collected o u).isReady = Order.upTo o s.node.last := by
  rw [Node.done_last (Order.upTo_downClosed o), Bool.eq_iff_iff]
  simp [isReady, collected, List.countP_eq_zero]

/-- A collected slot has nothing left to count when it is handed on. -/
theorem handOn_collected {s : Slot} (hlast : Order.upTo o s.node.last = true) (u : ShapedCriteria) :
    (s.collected o u).handOn = ⟨s.node, s.parent, .empty s.node.type.shape, 0, 0, true⟩ := by
  rw [← isReady_collected o u] at hlast
  simp only [isReady, Bool.and_eq_true, beq_iff_eq] at hlast
  obtain ⟨⟨-, hitems⟩, hchildren⟩ := hlast
  rw [handOn, hitems, hchildren]
  rfl

theorem finish_eq_ok {s : Slot} {t : ShapedCriterion} :
    s.finish link = .ok t ↔
      ∃ u, s.unit.pushAll (s.node.linked link) = .ok u ∧ u.simplify = t := by
  unfold finish Node.linked
  cases s.node.cascade with
  | none => simp
  | some name =>
    simp only [bind_eq_ok, pure_eq_ok, Option.toList_some, List.map_cons, List.map_nil,
      ShapedCriteria.pushAll_cons_eq_ok, ShapedCriteria.pushAll_nil, map_eq_ok]
    constructor
    · rintro ⟨c, hc, u, hu, rfl⟩
      exact ⟨u, ⟨_, ⟨c, hc, rfl⟩, u, hu, rfl⟩, rfl⟩
    · rintro ⟨u, ⟨_, ⟨c, hc, rfl⟩, _, hu, rfl⟩, rfl⟩
      exact ⟨c, hc, _, hu, rfl⟩

/-- The criterion of a collected slot is that of its node once all places of the node are done. -/
theorem finish_collected {s : Slot} {u : ShapedCriteria} (hu : s.node.unit link (Order.upTo o) = .ok u)
    (hlast : Order.upTo o s.node.last = true) {t : ShapedCriterion} :
    (s.collected o u).finish link = .ok t ↔ s.node.finished link = .ok t := by
  rw [finish_eq_ok, Node.finished_eq_ok (Order.upTo_downClosed o) hlast, hu]
  simp only [Except.ok.injEq, exists_eq_left', collected]

/-- A slot that is handed on before a place is left alone in the bucket of the place. -/
theorem worked_handedOn {s₀ s : Slot} (hs : s₀.worked link o = .ok s)
    (hon : s₀.isHandedOn (Order.before o) = true) :
    s₀.reached link (Order.upTo o) = .ok s ∧ s.absorbed = true ∧
      absorbParts link o s₀.node.children s = .ok s := by
  rw [worked, if_pos hon] at hs
  rw [isHandedOn, Bool.and_eq_true] at hon
  have hupTo : s₀.isHandedOn (Order.upTo o) = true := by
    rw [isHandedOn, hon.1, Order.upTo_eq, hon.2]; rfl
  rw [reached, if_pos hupTo]
  refine ⟨hs, ?_, ?_⟩
  · obtain ⟨t, -, hs⟩ := bind_eq_ok.1 hs
    rw [pure_eq_ok] at hs
    rw [← hs]
  -- the last place of the node is past, and so are those of its children
  · have hlast := hon.2
    rw [Node.done_last (Order.before_downClosed o), Bool.and_eq_true, List.all_eq_true] at hlast
    have hnone : s₀.node.children.countP (·.node.last == o) = 0 := by
      rw [List.countP_eq_zero]
      intro k hk
      rw [Order.before_ne (hlast.2 k hk)]
      exact Bool.false_ne_true
    have hfree : (Node.parts link s₀.node.children).filter (·.1 == o) = [] := by
      rw [List.filter_eq_nil_iff]
      intro e he
      obtain ⟨k, hk, rfl⟩ := Node.mem_parts.1 he
      rw [show (Node.part link k).1 = k.node.last from rfl, Order.before_ne (hlast.2 k hk)]
      exact Bool.false_ne_true
    rw [absorbParts_eq_ok, hfree, hnone]
    exact ⟨s.unit, rfl, rfl⟩

/-- A slot that is not handed on has collected all up to the place when its parts are added. -/
theorem absorbParts_worked {s₀ s s' : Slot} (hs : s₀.worked link o = .ok s)
    (hon : ¬s₀.isHandedOn (Order.before o) = true) :
    absorbParts link o s₀.node.children s = .ok s' ↔
      ∃ u, s₀.node.unit link (Order.upTo o) = .ok u ∧ s₀.collected o u = s' := by
  rw [worked, if_neg hon] at hs
  obtain ⟨u₀, hu₀, hs⟩ := bind_eq_ok.1 hs
  obtain ⟨u₁, hu₁, hs⟩ := bind_eq_ok.1 hs
  rw [pure_eq_ok] at hs
  subst hs
  rw [absorbParts_eq_ok]
  simp only [Node.unit_upTo_eq_ok, hu₀, Except.ok.injEq, exists_eq_left', hu₁, collected,
    Order.countP_not_before, Nat.add_sub_cancel]

/-- The constraints still to come in a slot that is not handed on are those of later places. -/
theorem worked_open {s₀ s : Slot} (hs : s₀.worked link o = .ok s)
    (hon : ¬s₀.isHandedOn (Order.before o) = true) :
    s.absorbed = false ∧
      s.pendingItems = s₀.node.constraints.countP (!Order.upTo o ·.order) := by
  rw [worked, if_neg hon] at hs
  obtain ⟨_, -, hs⟩ := bind_eq_ok.1 hs
  obtain ⟨_, -, hs⟩ := bind_eq_ok.1 hs
  rw [pure_eq_ok] at hs
  subst hs
  exact ⟨rfl, rfl⟩

/-- A slot that is not handed on in a bucket has collected all up to its place. -/
theorem reached_open {s : Slot} {u : ShapedCriteria} (hu : s.node.unit link (Order.upTo o) = .ok u)
    (hon : s.isHandedOn (Order.upTo o) = false) :
    s.reached link (Order.upTo o) = .ok (s.collected o u) := by
  rw [reached, hon, if_neg Bool.false_ne_true, hu]
  rfl

/-- What a slot holds after a bucket it holds, or has handed on, within the bucket. -/
theorem unit_of_reached {s₀ s : Slot} (hs : s₀.reached link (Order.upTo o) = .ok s) :
    ∃ u, s₀.node.unit link (Order.upTo o) = .ok u := by
  unfold reached at hs
  split at hs
  · obtain ⟨t, ht, -⟩ := bind_eq_ok.1 hs
    exact Node.unit_of_finished ht (Order.upTo_downClosed o)
  · obtain ⟨u, hu, -⟩ := bind_eq_ok.1 hs
    exact ⟨u, hu⟩

theorem absorbParts_of_reached {s₀ s s' : Slot} (hs : s₀.worked link o = .ok s)
    (hs' : s₀.reached link (Order.upTo o) = .ok s') :
    ∃ s₁, absorbParts link o s₀.node.children s = .ok s₁ := by
  by_cases hon : s₀.isHandedOn (Order.before o) = true
  · exact ⟨s, (worked_handedOn hs hon).2.2⟩
  · obtain ⟨u, hu⟩ := unit_of_reached hs'
    exact ⟨_, (absorbParts_worked hs hon).2 ⟨u, hu, rfl⟩⟩

end Slot

/-- The number of a slot if the slot is open. -/
def openAt (index : Nat) (s : Slot) : List Nat :=
  if !s.absorbed && s.pendingItems == 0 then [index] else []

theorem openAt_reverse (index : Nat) (s : Slot) :
    (openAt index s).reverse = openAt index s := by
  unfold openAt
  split <;> rfl

theorem openFrom_cons (index : Nat) (s : Slot) (rest : List Slot) :
    openFrom index (s :: rest) = openAt index s ++ openFrom (index + 1) rest := by
  rw [openFrom, List.zipIdx_cons, List.filterMap_cons, openAt]
  split_ifs with h <;> simp [h, openFrom]

/-- A slot that is not ready, or has nothing above it, is left alone. -/
theorem handOnAt_of_not (pre tail : List Slot) {s : Slot} (h : s.parent = none ∨ s.isReady = false) :
    handOnAt link (pre ++ s :: tail) pre.length = .ok (pre ++ s :: tail) := by
  have hget : (pre ++ s :: tail)[pre.length]? = some s := by simp
  rw [handOnAt, hget]
  cases hp : s.parent with
  | none => simp only [hp]
  | some above =>
    have hnot := h.resolve_left (by simp [hp])
    simp only [hp, hnot, Bool.false_eq_true, if_false]

/-- A ready slot is handed on to the slot above. -/
theorem handOnAt_eq_ok {pre tail out : List Slot} {s q : Slot} {above : Nat} {w : Wrapper}
    (hq : pre[above]? = some q) (hp : s.parent = some (above, w)) (hready : s.isReady = true) :
    handOnAt link (pre ++ s :: tail) pre.length = .ok out ↔
      ∃ t, s.finish link = .ok t ∧ ∃ c, w.wrap t = .ok c ∧ ∃ q', q.absorb c = .ok q' ∧
        pre.set above q' ++ s.handOn :: tail = out := by
  have habove : above < pre.length := (List.getElem?_eq_some_iff.1 hq).1
  have hget : (pre ++ s :: tail)[pre.length]? = some s := by simp
  have hset : (pre ++ s :: tail).set pre.length s.handOn = pre ++ s.handOn :: tail := by
    rw [List.set_append_right _ _ (Nat.le_refl _), Nat.sub_self, List.set_cons_zero]
  have hgetAbove : (pre ++ s.handOn :: tail)[above]? = some q := by
    rw [List.getElem?_append_left habove, hq]
  rw [handOnAt, hget]
  simp only [hp, hready, if_true, bind_eq_ok, hset, updateAt, hgetAbove, pure_eq_ok,
    List.set_append_left _ _ habove]

/-- A slot that was open at the start of the sweep, and is not ready when the sweep comes to it, is
left alone. -/
theorem foldlM_openAt_of_not (pre tail : List Slot) (w₀ : Slot) {s : Slot}
    (h : s.parent = none ∨ s.isReady = false) :
    (openAt pre.length w₀).foldlM (handOnAt link) (pre ++ s :: tail) = .ok (pre ++ s :: tail) := by
  unfold openAt
  split
  · rw [List.foldlM_cons]
    exact bind_eq_ok.2 ⟨_, handOnAt_of_not pre tail h, rfl⟩
  · rfl

section Own

variable {n : Node} {pre tail out : List Slot} {q w₀ : Slot} {above : Nat} {w : Wrapper}
  {u : ShapedCriteria}

/-- At the last place of a node nothing is pending in its slot, so the slot is handed on with the
criterion of the node. -/
theorem sweep_last (hq : pre[above]? = some q) (hopen : openAt pre.length w₀ = [pre.length])
    (hu : n.unit link (Order.upTo o) = .ok u) (hbefore : Order.before o n.last = false)
    (hlast : Order.upTo o n.last = true) :
    (openAt pre.length w₀).foldlM (handOnAt link)
        (pre ++ (n.slot (some (above, w))).collected o u :: tail) = .ok out ↔
      ∃ q' w', absorbPart link o ⟨w, n⟩ q = .ok q' ∧
        (n.slot (some (above, w))).reached link (Order.upTo o) = .ok w' ∧
        pre.set above q' ++ w' :: tail = out := by
  -- the place of the bucket is the last one of the node
  have hnow : (n.last == o) = true := by simpa [Order.upTo_eq, hbefore] using hlast
  have hon : (n.slot (some (above, w))).isHandedOn (Order.upTo o) = true := by
    simpa [Slot.isHandedOn, Node.slot] using hlast
  have hready := Slot.isReady_collected o u (n.slot (some (above, w)))
  have hhandOn := Slot.handOn_collected (s := n.slot (some (above, w))) hlast u
  have hfinish : ∀ {t}, ((n.slot (some (above, w))).collected o u).finish link = .ok t ↔
      n.finished link = .ok t := Slot.finish_collected (s := n.slot (some (above, w))) hu hlast
  rw [hopen, List.foldlM_cons, bind_eq_ok]
  simp only [List.foldlM_nil, pure_eq_ok, exists_eq_right,
    handOnAt_eq_ok hq rfl (hready.trans hlast), hfinish, absorbPart, hnow, if_true, bind_eq_ok,
    Slot.reached, hon, Slot.handedOn]
  rw [hhandOn]
  constructor
  · rintro ⟨t, ht, c, hc, q', hq', rfl⟩
    exact ⟨q', _, ⟨t, ht, c, hc, hq'⟩, ⟨t, ht, rfl⟩, rfl⟩
  · rintro ⟨q', _, ⟨t, ht, c, hc, hq'⟩, ⟨_, _, rfl⟩, rfl⟩
    exact ⟨t, ht, c, hc, q', hq', rfl⟩

/-- Before the last place of a node its slot stays where it is. -/
theorem sweep_early (hq : pre[above]? = some q) (hu : n.unit link (Order.upTo o) = .ok u)
    (hlast : Order.upTo o n.last = false) :
    (openAt pre.length w₀).foldlM (handOnAt link)
        (pre ++ (n.slot (some (above, w))).collected o u :: tail) = .ok out ↔
      ∃ q' w', absorbPart link o ⟨w, n⟩ q = .ok q' ∧
        (n.slot (some (above, w))).reached link (Order.upTo o) = .ok w' ∧
        pre.set above q' ++ w' :: tail = out := by
  have hnow : (n.last == o) = false := by
    rw [Order.upTo_eq, Bool.or_eq_false_iff] at hlast
    exact hlast.2
  have hon : (n.slot (some (above, w))).isHandedOn (Order.upTo o) = false := by
    simpa [Slot.isHandedOn, Node.slot] using hlast
  have hready := Slot.isReady_collected o u (n.slot (some (above, w)))
  rw [foldlM_openAt_of_not pre tail w₀ (.inr (hready.trans hlast)), Slot.reached_open hu hon]
  simp [absorbPart, hnow, set_self_of_getElem? hq]

/-- **The slot of a node in the sweep**, when its parts are added: it is handed on exactly if this
is the last place of the node. -/
theorem sweep_own {w₁ : Slot} (hq : pre[above]? = some q)
    (hw₀ : (n.slot (some (above, w))).worked link o = .ok w₀)
    (hw₁ : absorbParts link o n.children w₀ = .ok w₁) :
    (openAt pre.length w₀).foldlM (handOnAt link) (pre ++ w₁ :: tail) = .ok out ↔
      ∃ q' w', absorbPart link o ⟨w, n⟩ q = .ok q' ∧
        (n.slot (some (above, w))).reached link (Order.upTo o) = .ok w' ∧
        pre.set above q' ++ w' :: tail = out := by
  by_cases hon : (n.slot (some (above, w))).isHandedOn (Order.before o) = true
  · -- handed on in an earlier bucket: the slot is not open, and no part of it is left
    obtain ⟨hreached, habsorbed, hkeep⟩ := Slot.worked_handedOn hw₀ hon
    rw [show (n.slot (some (above, w))).node.children = n.children from rfl, hw₁] at hkeep
    cases hkeep
    have hlast : (n.last == o) = false := Order.before_ne hon
    simp [openAt, habsorbed, absorbPart, hlast, hreached, set_self_of_getElem? hq]
  · obtain ⟨u, hu, rfl⟩ := (Slot.absorbParts_worked hw₀ hon).1 hw₁
    cases hlast : Order.upTo o n.last with
    | true =>
      have hbefore : Order.before o n.last = false := by
        simpa [Slot.isHandedOn, Node.slot] using hon
      obtain ⟨habsorbed, hpending⟩ := Slot.worked_open hw₀ hon
      have hitems : w₀.pendingItems = 0 := hpending.trans
        (congrArg Slot.pendingItems
          (Slot.handOn_collected (s := n.slot (some (above, w))) hlast u))
      exact sweep_last hq (by simp [openAt, habsorbed, hitems]) hu hbefore hlast
    | false => exact sweep_early hq hu hlast

end Own

/-- **A sweep over a subtree.** -/
theorem sweep_subtree (n : Node) : SweepsSubtree link o n := by
  induction n using Node.induction with
  | _ n ih =>
    intro pre post seg out above w q hq hseg
    rw [Node.slotsFrom_eq, Slots, List.forall₂_cons_left_iff] at hseg
    obtain ⟨w₀, segs, hw₀, hsegs, rfl⟩ := hseg
    -- the sweep over the subtrees of the children, with the node's own slot above them
    have hget : (pre ++ [w₀])[pre.length]? = some w₀ := by simp
    have hset : ∀ w₁, (pre ++ [w₀]).set pre.length w₁ = pre ++ [w₁] := by simp
    have hbelow := fun mid => sweep_children ih _ post mid hget
      (by simpa using hsegs)
    simp only [List.length_append, List.length_cons, List.length_nil, Nat.zero_add, hset,
      List.append_assoc, List.cons_append, List.nil_append] at hbelow
    rw [openFrom_cons, List.reverse_append, foldlM_append_eq_ok]
    simp only [openAt_reverse, Node.slotsFrom_eq, Slots, List.forall₂_cons_left_iff, List.append_assoc,
      List.cons_append, hbelow]
    constructor
    · rintro ⟨_, ⟨w₁, segs', hw₁, hsegs', rfl⟩, h⟩
      obtain ⟨q', w', hq', hw', rfl⟩ := (sweep_own hq hw₀ hw₁).1 h
      exact ⟨q', w' :: segs', hq', ⟨w', segs', hw', hsegs', rfl⟩, by simp⟩
    · rintro ⟨q', _, hq', ⟨w', segs', hw', hsegs', rfl⟩, rfl⟩
      obtain ⟨w₁, hw₁⟩ := Slot.absorbParts_of_reached hw₀ hw'
      exact ⟨_, ⟨w₁, segs', hw₁, hsegs', rfl⟩,
        (sweep_own hq hw₀ hw₁).2 ⟨q', w', hq', hw', by simp⟩⟩

/-- **The sweep of a bucket** takes every slot of a tree to its state after the bucket. -/
theorem sweep_eq_ok {n : Node} {ws out : List Slot}
    (hws : Slots (Slot.worked link o) n.slots ws) :
    sweep link ws = .ok out ↔ Slots (Slot.reached link (Order.upTo o)) n.slots out := by
  rw [Node.slots, Node.slotsFrom_eq, Slots, List.forall₂_cons_left_iff] at hws
  obtain ⟨w₀, segs, hw₀, hsegs, rfl⟩ := hws
  have hbelow := fun mid => sweep_children (fun k _ => sweep_subtree k.node) [w₀] [] mid rfl hsegs
  simp only [List.length_cons, List.length_nil, Nat.zero_add, List.set_cons_zero,
    List.append_nil, List.cons_append, List.nil_append] at hbelow
  -- nothing is above the root, so it is never handed on
  have hnever : ∀ d, (n.slot none).isHandedOn d = false := fun _ => rfl
  have hroot : ∀ w₁ seg, absorbParts link o n.children w₀ = .ok w₁ →
      (openAt 0 w₀).foldlM (handOnAt link) (w₁ :: seg) = .ok (w₁ :: seg) ∧
        (n.slot none).reached link (Order.upTo o) = .ok w₁ := by
    intro w₁ seg hw₁
    obtain ⟨u, hu, hcollected⟩ := (Slot.absorbParts_worked hw₀ (by simp [hnever])).1 hw₁
    subst hcollected
    exact ⟨foldlM_openAt_of_not [] seg w₀ (.inl rfl), Slot.reached_open hu (hnever _)⟩
  have hsweep : sweep link (w₀ :: segs) =
      (openFrom 0 (w₀ :: segs)).reverse.foldlM (handOnAt link) (w₀ :: segs) := rfl
  rw [hsweep, openFrom_cons, List.reverse_append, foldlM_append_eq_ok,
    openAt_reverse]
  simp only [hbelow, Node.slots, Node.slotsFrom_eq, Slots, List.forall₂_cons_left_iff]
  constructor
  · rintro ⟨_, ⟨w₁, segs', hw₁, hsegs', rfl⟩, h⟩
    rw [(hroot w₁ segs' hw₁).1] at h
    cases h
    exact ⟨w₁, segs', (hroot w₁ segs' hw₁).2, hsegs', rfl⟩
  · rintro ⟨w', segs', hw', hsegs', rfl⟩
    obtain ⟨w₁, hw₁⟩ := Slot.absorbParts_of_reached hw₀ hw'
    obtain ⟨hleft, hreached⟩ := hroot w₁ segs' hw₁
    rw [hreached] at hw'
    cases hw'
    exact ⟨_, ⟨_, segs', hw₁, hsegs', rfl⟩, hleft⟩

end Validation
