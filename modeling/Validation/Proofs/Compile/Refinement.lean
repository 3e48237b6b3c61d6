import Validation.Proofs.Compile.Sweep

/-!
# Compiling by order is compiling by recursion

A tree is compiled bucket after bucket over all its slots at once. Between two buckets every slot is
in the state that the places done give it, so what the root holds at the end is what the recursion
of `Node.finished` collects: no constraint, part or cascade is lost, used twice or moved.

* `Slots.initial`: before any work, no place is done.
* `bucket_eq_ok`: a bucket takes every slot from its state before the place to its state after.
* `foldlM_bucket_eq_ok`: so do the buckets that are left, one after another.
* `compile_eq_ok_iff`: the criterion of a tree, by recursion over the tree.
* `compile_refines_finished`: with it, what every node of the tree collects and in which order.
-/

namespace Validation

variable {link : Linker} {o : Order} {n : Node}

namespace Slot

/-- The state of a slot is told by the places of its node that are done. -/
theorem reached_congr {d d' : Order → Bool} {s : Slot}
    (h : ∀ o ∈ bucketOrders s.node, d o = d' o) : s.reached link d = s.reached link d' := by
  have hown : ∀ c ∈ s.node.constraints, d c.order = d' c.order := fun c hc =>
    h _ (Order.mem_bucketOrders.2 (.inr ⟨_, Node.mem_nodes_self _, c, hc, rfl⟩))
  have hparts : ∀ k ∈ s.node.children, d k.node.last = d' k.node.last := fun k hk =>
    h _ (Node.parts_place (Node.mem_parts.2 ⟨k, hk, rfl⟩) : (Node.part link k).1 ∈ _)
  have hlast : d s.node.last = d' s.node.last :=
    h _ (Order.mem_bucketOrders.2 (Node.last_mem s.node))
  have hunit : s.node.unit link d = s.node.unit link d' := by
    rw [Node.unit, Node.unit, List.filter_congr]
    intro e he
    exact h _ ((Node.mem_contributions.1 he).elim Node.own_place Node.parts_place)
  have hitems : s.node.constraints.countP (!d ·.order) =
      s.node.constraints.countP (!d' ·.order) :=
    List.countP_congr fun c hc => by rw [hown c hc]
  have hchildren : s.node.children.countP (!d ·.node.last) =
      s.node.children.countP (!d' ·.node.last) :=
    List.countP_congr fun k hk => by rw [hparts k hk]
  have hon : s.isHandedOn d = s.isHandedOn d' := by rw [isHandedOn, isHandedOn, hlast]
  rw [reached, reached, hon, hunit, hitems, hchildren]

/-- A slot whose node gets its criterion has a state at any time. -/
theorem reached_of_finished {d : Order → Bool} {s : Slot} {c : ShapedCriterion}
    (h : s.node.finished link = .ok c) (hd : Order.DownClosed d) :
    ∃ t, s.reached link d = .ok t := by
  unfold reached
  split
  · exact ⟨_, by rw [handedOn, h]; rfl⟩
  · obtain ⟨u, hu⟩ := Node.unit_of_finished h hd
    exact ⟨_, by rw [hu]; rfl⟩

/-- A slot that has its state when all is done has one at any time before. -/
theorem reached_of_all {d : Order → Bool} (hd : Order.DownClosed d) {s t : Slot}
    (h : s.reached link (fun _ => true) = .ok t) : ∃ t, s.reached link d = .ok t := by
  unfold reached at h
  split at h
  · obtain ⟨c, hc, -⟩ := bind_eq_ok.1 h
    exact reached_of_finished hc hd
  case isFalse hroot =>
    -- only the root is never handed on
    have hon : s.isHandedOn d = false := by
      simp only [isHandedOn, Bool.and_true] at hroot
      rw [isHandedOn, Bool.eq_false_iff.2 hroot, Bool.false_and]
    obtain ⟨u, hu, -⟩ := bind_eq_ok.1 h
    obtain ⟨u₀, hu₀⟩ := Node.unit_of_all hu hd
    exact ⟨_, by rw [reached, hon, if_neg Bool.false_ne_true, hu₀]; rfl⟩

/-- A slot that has its state after a bucket has one within it. -/
theorem worked_of_reached {s t : Slot} (h : s.reached link (Order.upTo o) = .ok t) :
    ∃ w, s.worked link o = .ok w := by
  by_cases hon : s.isHandedOn (Order.before o) = true
  · have hupTo : s.isHandedOn (Order.upTo o) = true := by
      rw [isHandedOn, Bool.and_eq_true] at hon ⊢
      rw [Order.upTo_eq, hon.2]
      exact ⟨hon.1, rfl⟩
    rw [reached, if_pos hupTo] at h
    exact ⟨t, by rw [worked, if_pos hon, h]⟩
  · obtain ⟨u, hu⟩ := unit_of_reached h
    obtain ⟨u₀, hu₀, u₁, hu₁, -⟩ := (Node.unit_upTo_eq_ok o).1 hu
    exact ⟨_, by rw [worked, if_neg hon, hu₀, ok_bind, hu₁]; rfl⟩

end Slot

namespace Slots

/-- Slots in some state exist when each slot has that state. -/
theorem exists_of_forall {state : Slot → Except AnalysisError Slot} {initial : List Slot}
    (h : ∀ s ∈ initial, ∃ t, state s = .ok t) : ∃ slots, Slots state initial slots := by
  induction initial with
  | nil => exact ⟨[], .nil⟩
  | cons s rest ih =>
    obtain ⟨t, ht⟩ := h s List.mem_cons_self
    obtain ⟨ts, hts⟩ := ih fun s' hs' => h s' (List.mem_cons_of_mem _ hs')
    exact ⟨t :: ts, .cons ht hts⟩

/-- From slots in one state to slots in another that each of them has. -/
theorem exists_of_slots {state state' : Slot → Except AnalysisError Slot} {initial slots : List Slot}
    (hs : Slots state initial slots) (h : ∀ s t, state s = .ok t → ∃ t', state' s = .ok t') :
    ∃ slots', Slots state' initial slots' := by
  induction hs with
  | nil => exact ⟨[], .nil⟩
  | cons hst _ ih =>
    obtain ⟨t', ht'⟩ := h _ _ hst
    obtain ⟨ts, hts⟩ := ih
    exact ⟨t' :: ts, .cons ht' hts⟩

theorem congr {state state' : Slot → Except AnalysisError Slot} {initial slots : List Slot}
    (h : ∀ s ∈ initial, state s = state' s) :
    Slots state initial slots ↔ Slots state' initial slots := by
  induction initial generalizing slots with
  | nil => simp [Slots]
  | cons s rest ih =>
    simp only [Slots, List.forall₂_cons_left_iff, h s List.mem_cons_self] at ih ⊢
    simp only [ih fun s' hs' => h s' (List.mem_cons_of_mem _ hs')]

end Slots

namespace Node

/-- A slot of a tree is the slot of a node of the tree, before any work. -/
theorem mem_slotsFrom {s : Slot} {parent : Option (Nat × Wrapper)} {index : Nat}
    (hs : s ∈ n.slotsFrom parent index) : ∃ m ∈ n.nodes, ∃ p, s = m.slot p := by
  induction n using Node.induction generalizing parent index with
  | _ n ih =>
    -- over a list of some of the children, so that it can be taken apart
    have key : ∀ children : List (Child Node), (∀ k ∈ children, k ∈ n.children) →
        ∀ start, s ∈ slotsOf index start children →
          ∃ k ∈ n.children, ∃ m ∈ k.node.nodes, ∃ p, s = m.slot p := by
      intro children
      induction children with
      | nil =>
        intro _ _ hs
        exact absurd hs List.not_mem_nil
      | cons k rest ihrest =>
        intro hsub start hs
        rw [slotsOf, List.mem_append] at hs
        rcases hs with hs | hs
        · exact ⟨k, hsub k List.mem_cons_self, ih k (hsub k List.mem_cons_self) hs⟩
        · exact ihrest (fun k' hk' => hsub k' (List.mem_cons_of_mem _ hk')) _ hs
    rw [slotsFrom_eq, List.mem_cons] at hs
    rcases hs with rfl | hs
    · exact ⟨n, mem_nodes_self n, parent, rfl⟩
    · obtain ⟨k, hk, m, hm, p, rfl⟩ := key n.children (fun _ h => h) _ hs
      exact ⟨m, mem_nodes.2 (.inr ⟨k, hk, hm⟩), p, rfl⟩

/-- The places of a node are among those of the tree. -/
theorem bucketOrders_subset {m : Node} (hm : m ∈ n.nodes) {o : Order} (ho : o ∈ bucketOrders m) :
    o ∈ bucketOrders n := by
  have htrans : ∀ l ∈ m.nodes, l ∈ n.nodes := by
    clear ho
    induction n using Node.induction with
    | _ n ih =>
      intro l hl
      rcases mem_nodes.1 hm with rfl | ⟨k, hk, hm⟩
      · exact hl
      · exact mem_nodes.2 (.inr ⟨k, hk, ih k hk hm l hl⟩)
  refine Order.mem_bucketOrders.2 ((Order.mem_bucketOrders.1 ho).imp_right ?_)
  rintro ⟨l, hl, c, hc, rfl⟩
  exact ⟨l, htrans l hl, c, hc, rfl⟩

end Node

/-- Before any work, no place is done. -/
theorem Slots.initial (link : Linker) (n : Node) :
    Slots (Slot.reached link (fun _ => false)) n.slots n.slots := by
  refine List.forall₂_same.2 fun s hs => ?_
  obtain ⟨m, -, p, rfl⟩ := Node.mem_slotsFrom hs
  simp [Slot.reached, Slot.isHandedOn, Node.slot, Node.unit, ShapedCriteria.pushAll, pure,
    Except.pure, bind, Except.bind]

/-- **A bucket** takes every slot of a tree from its state before the place to its state after. -/
theorem bucket_eq_ok {slots out : List Slot}
    (hs : Slots (Slot.reached link (Order.before o)) n.slots slots) :
    bucket link slots o = .ok out ↔ Slots (Slot.reached link (Order.upTo o)) n.slots out := by
  simp only [bucket, bind_eq_ok, foldlM_itemsOf_eq_ok hs]
  constructor
  · rintro ⟨ws, hws, hout⟩
    exact (sweep_eq_ok hws).1 hout
  · intro hout
    obtain ⟨ws, hws⟩ := hout.exists_of_slots fun _ _ => Slot.worked_of_reached
    exact ⟨ws, hws, (sweep_eq_ok hws).2 hout⟩

/-- **The buckets that are left** take every slot from its state when the places before are done to
its state when all are. -/
theorem foldlM_bucket_eq_ok {done rest : List Order} (h : bucketOrders n = done ++ rest)
    {slots out : List Slot} (hs : Slots (Slot.reached link (done.contains ·)) n.slots slots) :
    rest.foldlM (bucket link) slots = .ok out ↔
      Slots (Slot.reached link (fun _ => true)) n.slots out := by
  -- only places that occur in the tree matter to a slot
  have hcongr : ∀ {d d' : Order → Bool}, (∀ o ∈ bucketOrders n, d o = d' o) → ∀ slots,
      Slots (Slot.reached link d) n.slots slots ↔ Slots (Slot.reached link d') n.slots slots := by
    intro d d' hd slots
    refine Slots.congr fun s hs => Slot.reached_congr fun o ho => hd o ?_
    obtain ⟨m, hm, p, rfl⟩ := Node.mem_slotsFrom hs
    exact Node.bucketOrders_subset hm ho
  induction rest generalizing done slots with
  | nil =>
    rw [List.append_nil] at h
    have hall := (hcongr (fun o ho => by rw [List.contains_iff_mem.2 (h ▸ ho)]) slots).1 hs
    rw [List.foldlM_nil, pure_eq_ok]
    constructor
    · rintro rfl
      exact hall
    · intro hout
      have hunique : Relator.RightUnique fun s₀ s => Slot.reached link (fun _ => true) s₀ = .ok s :=
        fun _ _ _ hb hc => Except.ok.inj (hb.symm.trans hc)
      exact List.right_unique_forall₂' hunique hall hout
  | cons o rest ih =>
    have hascending := Order.ascending_bucketOrders n
    rw [h] at hascending
    -- the places that are done are those before `o`, and with `o` those up to it
    have hbefore : ∀ x ∈ bucketOrders n, done.contains x = Order.before o x := fun x hx =>
      hascending.contains_eq_before (h ▸ hx)
    have hupTo : ∀ x ∈ bucketOrders n, (done ++ [o]).contains x = Order.upTo o x := by
      intro x hx
      rw [List.contains_append, hbefore x hx, Order.upTo_eq, List.contains_cons, List.contains_nil,
        Bool.or_false]
    have hsplit : bucketOrders n = (done ++ [o]) ++ rest := by rw [h, List.append_assoc]; rfl
    rw [foldlM_cons_eq_ok]
    simp only [bucket_eq_ok ((hcongr hbefore slots).1 hs)]
    constructor
    · rintro ⟨mid, hmid, hout⟩
      exact (ih hsplit ((hcongr hupTo mid).2 hmid)).1 hout
    · intro hout
      obtain ⟨mid, hmid⟩ := hout.exists_of_slots fun _ _ =>
        Slot.reached_of_all (Order.upTo_downClosed o)
      exact ⟨mid, hmid, (ih hsplit ((hcongr hupTo mid).2 hmid)).2 hout⟩

/-- The criterion of a tree by order is the one by recursion. A tree has a criterion exactly when every
step of the recursion succeeds, and it is the one that the recursion gives, on values. -/
theorem compile_eq_ok_iff {c : Criterion.On Value} :
    compile link n = .ok c ↔ ∃ s, n.finished link = .ok s ∧ s.lift = c := by
  have hall : Order.DownClosed fun _ => true := fun _ _ _ _ => rfl
  have hbuckets : ∀ out, (bucketOrders n).foldlM (bucket link) n.slots = .ok out ↔
      Slots (Slot.reached link fun _ => true) n.slots out := fun _ =>
    foldlM_bucket_eq_ok (List.nil_append _).symm (Slots.initial link n)
  simp only [compile, bind_eq_ok, hbuckets]
  rw [Node.slots, Node.slotsFrom_eq]
  simp only [Slots, List.forall₂_cons_left_iff]
  have hroot : ∀ {root}, (n.slot none).reached link (fun _ => true) = .ok root →
      ∀ {s}, root.finish link = .ok s ↔ n.finished link = .ok s := by
    intro root hroot s
    obtain ⟨u, hu, hroot⟩ := bind_eq_ok.1 hroot
    rw [pure_eq_ok] at hroot
    subst hroot
    have hunit : n.unit link (fun _ => true) = .ok u := hu
    rw [Slot.finish_eq_ok, Node.finished_eq_ok hall rfl, hunit]
    simp only [Except.ok.injEq, exists_eq_left']
    rfl
  constructor
  · rintro ⟨_, ⟨root, rest, hreached, -, rfl⟩, h⟩
    obtain ⟨s, hs, hc⟩ := bind_eq_ok.1 h
    exact ⟨s, (hroot hreached).1 hs, pure_eq_ok.1 hc⟩
  · rintro ⟨s, hs, rfl⟩
    -- every node below has its criterion, so every slot reaches its state
    have hslots : ∀ s₀ ∈ n.slots, ∃ t, s₀.reached link (fun _ => true) = .ok t := by
      intro s₀ hs₀
      obtain ⟨m, hm, p, rfl⟩ := Node.mem_slotsFrom hs₀
      obtain ⟨t, ht⟩ := Node.finished_of_mem_nodes hs m hm
      exact Slot.reached_of_finished ht hall
    obtain ⟨_, hout⟩ := Slots.exists_of_forall hslots
    rw [Node.slots, Node.slotsFrom_eq, Slots, List.forall₂_cons_left_iff] at hout
    obtain ⟨root, rest, hreached, hrest, rfl⟩ := hout
    exact ⟨_, ⟨root, rest, hreached, hrest, rfl⟩, bind_eq_ok.2 ⟨s, (hroot hreached).2 hs, rfl⟩⟩

/-- **Compiling by order is compiling by recursion.** A tree has a criterion exactly when every step
of the recursion succeeds, and it is the one that the recursion gives. What a node collects in the
recursion are its own constraints and one part for each child, each of them once and in ascending
order of the places; at one place the own constraints come first, in the order of their
declarations. -/
theorem compile_refines_finished (link : Linker) (n : Node) :
    (∀ c, compile link n = .ok c ↔ ∃ s, n.finished link = .ok s ∧ s.lift = c) ∧
      ∀ m ∈ n.nodes,
        (m.contributions link).Perm (m.own ++ m.children.map (Node.part link)) ∧
          Order.Sorted (m.contributions link) ∧
          ∀ o, (m.contributions link).filter (·.1 == o) =
            m.own.filter (·.1 == o) ++ (Node.parts link m.children).filter (·.1 == o) := by
  refine ⟨fun _ => compile_eq_ok_iff, fun m _ => ⟨?_, ?_, ?_⟩⟩
  · have hparts : (Node.parts link m.children).Perm (m.children.map (Node.part link)) := by
      rw [Node.parts_eq]
      exact List.reverse_perm _
    exact (List.mergeSort_perm _ _).trans (hparts.append_left _)
  · exact Node.sorted_contributions link m
  · exact Node.contributions_at link m

end Validation
