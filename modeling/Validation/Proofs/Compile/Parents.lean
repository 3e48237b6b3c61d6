import Validation.Proofs.Compile.Errors

/-!
# The slots below a slot

The slots of a tree know the node above only by the number of its slot. Those with the number of a
slot are the children of its node, in the order of the children, and each comes later than the slot
itself.

* `Slot.part?`: a slot as a child of the slot with a given number.
* `Node.parts_slots`: the slots below a slot are the children of its node.
* `Node.parent_slots`: only the first slot has no slot above, and what is above comes before.
-/

namespace Validation

namespace Slot

/-- The slot as a child of the slot `above`, if it is right below that one. -/
def part? (above : Nat) (s : Slot) : Option (Child Node) :=
  s.parent.bind fun (index, wrapper) => if index = above then some ⟨wrapper, s.node⟩ else none

/-- Whether the slot is right below the slot `above`. -/
def isBelow (above : Nat) (s : Slot) : Bool := (s.part? above).isSome

theorem isBelow_iff {above : Nat} {s : Slot} :
    s.isBelow above = true ↔ ∃ w, s.parent = some (above, w) := by
  rw [isBelow, part?, Option.isSome_bind]
  cases s.parent with
  | none => simp
  | some p =>
    obtain ⟨index, w⟩ := p
    by_cases h : index = above <;> simp [h]

theorem isBelow_congr {above : Nat} {s s' : Slot} (h : s'.parent = s.parent) :
    s'.isBelow above = s.isBelow above := by
  rw [Bool.eq_iff_iff, isBelow_iff, isBelow_iff, h]

theorem part?_eq_none {above : Nat} {s : Slot} (h : ∀ w, s.parent ≠ some (above, w)) :
    s.part? above = none := by
  have hnot : ¬s.isBelow above = true := fun hbelow =>
    have ⟨w, hw⟩ := isBelow_iff.1 hbelow
    h w hw
  rwa [isBelow, Option.not_isSome_iff_eq_none] at hnot

end Slot

namespace Node

/-- What is above the slots of a tree: of the first slot what is given, and of the others slots of
the tree that come before. -/
theorem parent_slotsFrom {n : Node} {parent : Option (Nat × Wrapper)} {index j : Nat} {s : Slot}
    (h : (n.slotsFrom parent index)[j]? = some s) :
    j = 0 ∧ s.parent = parent ∨
      ∃ above w, s.parent = some (above, w) ∧ index ≤ above ∧ above < index + j := by
  induction n using Node.induction generalizing parent index j with
  | _ n ih =>
    -- below the first slot: right below it, or within the tree of one of its children
    have key : ∀ children : List (Child Node), (∀ k ∈ children, k ∈ n.children) → ∀ start j,
        index < start → (slotsOf index start children)[j]? = some s →
          ∃ above w, s.parent = some (above, w) ∧ index ≤ above ∧ above < start + j := by
      intro children
      induction children with
      | nil =>
        intro _ start j _ h
        cases h
      | cons k rest ihrest =>
        obtain ⟨w, m⟩ := k
        intro hsub start j hstart h
        rw [slotsOf, List.getElem?_append, length_slotsFrom] at h
        split_ifs at h with hj
        · rcases ih ⟨w, m⟩ (hsub _ List.mem_cons_self) h with
            ⟨rfl, hparent⟩ | ⟨above, w', hparent, hle, hlt⟩
          · exact ⟨index, w, hparent, Nat.le_refl _, hstart⟩
          · exact ⟨above, w', hparent, by omega, by omega⟩
        · obtain ⟨above, w', hparent, hle, hlt⟩ := ihrest
            (fun k hk => hsub k (List.mem_cons_of_mem _ hk)) (start + m.count) (j - m.count)
            (by omega) h
          exact ⟨above, w', hparent, hle, by omega⟩
    rw [slotsFrom_eq] at h
    cases j with
    | zero =>
      cases h
      exact .inl ⟨rfl, rfl⟩
    | succ j =>
      rw [List.getElem?_cons_succ] at h
      obtain ⟨above, w, hparent, hle, hlt⟩ := key n.children (fun _ h => h) (index + 1) j
        (Nat.lt_succ_self index) h
      exact .inr ⟨above, w, hparent, hle, by omega⟩

theorem part?_slot (above i : Nat) (w : Wrapper) (n : Node) :
    (n.slot (some (above, w))).part? i = if above = i then some ⟨w, n⟩ else none := rfl

/-- Of the slots of a tree, at most the first is below a slot that is not one of the tree. -/
def PartsOutside (n : Node) : Prop :=
  ∀ (above : Nat) (w : Wrapper) (index i : Nat), i < index ∨ index + n.count ≤ i →
    (n.slotsFrom (some (above, w)) index).filterMap (Slot.part? i) =
      if above = i then [⟨w, n⟩] else []

theorem partsOutside_slotsOf {children : List (Child Node)}
    (hsub : ∀ k ∈ children, k.node.PartsOutside) {above start i : Nat} (habove : above < start)
    (hi : i < start ∨ start + countAll children ≤ i) :
    (slotsOf above start children).filterMap (Slot.part? i) =
      if above = i then children else [] := by
  induction children generalizing start with
  | nil => rw [slotsOf, List.filterMap_nil, ite_self]
  | cons k rest ih =>
    obtain ⟨w, m⟩ := k
    rw [countAll] at hi
    have hfirst : PartsOutside m := hsub ⟨w, m⟩ List.mem_cons_self
    rw [slotsOf, List.filterMap_append, hfirst above w start i (by omega),
      ih (fun k hk => hsub k (List.mem_cons_of_mem _ hk)) (by omega) (by omega)]
    split_ifs <;> rfl

theorem partsOutside (n : Node) : n.PartsOutside := by
  induction n using Node.induction with
  | _ n ih =>
    intro above w index i hi
    rw [count_eq] at hi
    have hne : index ≠ i := by omega
    rw [slotsFrom_eq, List.filterMap_cons, part?_slot,
      partsOutside_slotsOf ih (Nat.lt_succ_self index) (by omega), if_neg hne]
    split_ifs <;> rfl

/-- The slots below a slot of a tree are the children of its node. -/
def PartsInside (n : Node) : Prop :=
  ∀ (parent : Option (Nat × Wrapper)) (index j : Nat) (s : Slot),
    (∀ above ∈ parent, above.1 < index) → (n.slotsFrom parent index)[j]? = some s →
      (n.slotsFrom parent index).filterMap (Slot.part? (index + j)) = s.node.children

theorem partsInside_slotsOf {children : List (Child Node)}
    (hsub : ∀ k ∈ children, k.node.PartsInside) {above start j : Nat} (habove : above < start)
    {s : Slot} (hs : (slotsOf above start children)[j]? = some s) :
    (slotsOf above start children).filterMap (Slot.part? (start + j)) = s.node.children := by
  induction children generalizing start j with
  | nil => cases hs
  | cons k rest ih =>
    obtain ⟨w, m⟩ := k
    have hne : above ≠ start + j := by omega
    rw [slotsOf, List.getElem?_append, length_slotsFrom] at hs
    rw [slotsOf, List.filterMap_append]
    split_ifs at hs with hj
    · -- the slot is in the first tree, and the later trees are outside of it
      have hfirst : PartsInside m := hsub ⟨w, m⟩ List.mem_cons_self
      have hrest : (slotsOf above (start + m.count) rest).filterMap (Slot.part? (start + j)) = [] := by
        rw [partsOutside_slotsOf (fun k _ => k.node.partsOutside) (by omega) (by omega), if_neg hne]
      rw [hrest, List.append_nil]
      refine hfirst _ start j s (fun p hp => ?_) hs
      cases hp
      exact habove
    · have hlater := ih (fun k hk => hsub k (List.mem_cons_of_mem _ hk)) (by omega) hs
      rw [show start + m.count + (j - m.count) = start + j by omega] at hlater
      rw [m.partsOutside above w start (start + j) (by omega), if_neg hne, List.nil_append, hlater]

theorem partsInside (n : Node) : n.PartsInside := by
  induction n using Node.induction with
  | _ n ih =>
    intro parent index j s hparent hs
    have hroot : (n.slot parent).part? (index + j) = none := by
      refine Slot.part?_eq_none fun w hw => ?_
      have hlt : index + j < index := hparent _ hw
      omega
    rw [slotsFrom_eq] at hs ⊢
    rw [List.filterMap_cons_none hroot]
    cases j with
    | zero =>
      -- the trees of the children lie behind the slot, so each gives its first slot and no other
      cases hs
      rw [Nat.add_zero, partsOutside_slotsOf (fun k _ => k.node.partsOutside)
        (Nat.lt_succ_self index) (.inl (Nat.lt_succ_self index)), if_pos rfl]
      rfl
    | succ j =>
      rw [List.getElem?_cons_succ] at hs
      rw [show index + (j + 1) = index + 1 + j by omega]
      exact partsInside_slotsOf ih (Nat.lt_succ_self index) hs

/-- **The slots below a slot** are the children of its node. -/
theorem parts_slots {n : Node} {i : Nat} {s : Slot} (hs : n.slots[i]? = some s) :
    n.slots.filterMap (Slot.part? i) = s.node.children := by
  have h := n.partsInside none 0 i s nofun hs
  rwa [Nat.zero_add] at h

/-- **What is above a slot comes before it**, and only of the first slot there is nothing above. -/
theorem parent_slots {n : Node} {i : Nat} {s : Slot} (hs : n.slots[i]? = some s) :
    i = 0 ∧ s.parent = none ∨ ∃ above w, s.parent = some (above, w) ∧ above < i := by
  rcases parent_slotsFrom hs with h | ⟨above, w, hparent, -, hlt⟩
  · exact .inl h
  · exact .inr ⟨above, w, hparent, by omega⟩

end Node

end Validation
