import Validation.Proofs.Compile.Members

/-!
# The order of checks at a node

The constraints and the children of a node take turns in the check of a value: by their places, the
constraints of one place in the order of their declarations, and then the children, the latest
declared first. That order is fixed by the tree alone.

* `Node.schedule`: the turns of a node in their order.
* `validate_schedule`: the criterion of a node runs the turns of the schedule.
* `idxOf_part_lt`: when the checks of one child run before those of another.
-/

namespace Validation

open Constraint (Deferred)

/-- A turn in the check of a node, by the number of the constraint or child whose turn it is. -/
inductive Turn where
  | constraint (index : Nat)
  | part (index : Nat)
deriving DecidableEq

/-- Whether one turn comes ahead of another of the same place: constraints in the order of their
declarations, and then the parts, the latest declared first. -/
def Turn.Ahead : Turn → Turn → Prop
  | constraint i, constraint j => i < j
  | constraint _, part _ => True
  | part _, constraint _ => False
  | part i, part j => j < i

namespace Node

/-- The turns of a node with their places, in the order of the same place. -/
def turns (n : Node) : List (Order × Turn) :=
  (n.constraints.zipIdx.map fun (c, i) => (c.order, .constraint i)) ++
    (n.children.zipIdx.map fun (k, i) => (k.node.last, .part i)).reverse

/-- The turns of a node in the order in which they are taken. -/
def schedule (n : Node) : List Turn := (Order.sort (·.1) n.turns).map (·.2)

/-- What is checked in a turn. -/
def turnOf (link : Linker) (n : Node) : Turn → Deferred
  | .constraint i =>
    match n.constraints[i]? with
    | some c => fun _ => c.process n.position
    | none => fun _ => .ok (.truth n.type.shape)
  | .part i =>
    match n.children[i]? with
    | some k => (part link k).2
    | none => fun _ => .ok (.truth n.type.shape)

variable {link : Linker} {n : Node}

theorem own_append_parts (link : Linker) (n : Node) :
    n.own ++ parts link n.children = n.turns.map fun e => (e.1, n.turnOf link e.2) := by
  have hown : n.own = n.constraints.zipIdx.map fun (c, i) => (c.order, n.turnOf link (.constraint i)) := by
    rw [own]
    refine List.ext_getElem (by simp) fun i h₁ h₂ => ?_
    simp only [List.getElem_map, List.getElem_zipIdx, turnOf, Nat.zero_add]
    rw [List.getElem?_eq_getElem]
  have hparts : parts link n.children =
      (n.children.zipIdx.map fun (k, i) => (k.node.last, n.turnOf link (.part i))).reverse := by
    rw [parts_eq]
    congr 1
    refine List.ext_getElem (by simp) fun i h₁ h₂ => ?_
    simp only [List.getElem_map, List.getElem_zipIdx, turnOf, Nat.zero_add]
    rw [List.getElem?_eq_getElem]
    rfl
  rw [hown, hparts, turns, List.map_append, List.map_reverse, List.map_map, List.map_map]
  rfl

/-- What a node collects is what is checked in the turns of its schedule. -/
theorem contributions_eq_schedule (link : Linker) (n : Node) :
    (n.contributions link).map (·.2) = n.schedule.map (n.turnOf link) := by
  have hsort : Order.sort (·.1) (n.turns.map fun e => (e.1, n.turnOf link e.2)) =
      (Order.sort (·.1) n.turns).map fun e => (e.1, n.turnOf link e.2) := Order.sort_map _ _ _
  rw [contributions, own_append_parts, hsort, schedule, List.map_map, List.map_map]
  rfl

/-- **The criterion of a node runs the turns of its schedule**, and last the class that it cascades
into. -/
theorem validate_schedule {s : ShapedCriterion} (h : n.finished link = .ok s) (v : Value) :
    s.lift.validate v = (Trial.first (fun t => trialOf (n.turnOf link t) v) n.schedule).andThen
      fun _ => Trial.first (trialOf · v) (n.linked link) := by
  rw [validate_finished h, Trial.first_append, contributions_eq_schedule, Trial.first_map]

/-- Of the turns of one place, those ahead stand first. -/
theorem pairwise_turns (n : Node) : n.turns.Pairwise fun a b => a.2.Ahead b.2 := by
  rw [turns, List.pairwise_append]
  refine ⟨?_, ?_, ?_⟩
  · rw [List.pairwise_iff_getElem]
    intro i j hi hj hij
    simpa [Turn.Ahead] using hij
  · rw [List.pairwise_reverse, List.pairwise_iff_getElem]
    intro i j hi hj hij
    simpa [Turn.Ahead] using hij
  · intro a ha b hb
    obtain ⟨-, -, rfl⟩ := List.mem_map.1 ha
    obtain ⟨-, -, rfl⟩ := List.mem_map.1 (List.mem_reverse.1 hb)
    trivial

/-- The place of a turn. -/
def place (n : Node) : Turn → Order
  | .constraint i => n.constraints[i]?.bind (·.order)
  | .part i => n.children[i]?.bind (·.node.last)

theorem place_of_mem_turns {e : Order × Turn} (he : e ∈ n.turns) : n.place e.2 = e.1 := by
  rcases List.mem_append.1 he with he | he
  · obtain ⟨⟨c, i⟩, hc, rfl⟩ := List.mem_map.1 he
    simp [place, List.mk_mem_zipIdx_iff_getElem?.1 hc]
  · obtain ⟨⟨k, i⟩, hk, rfl⟩ := List.mem_map.1 (List.mem_reverse.1 he)
    simp [place, List.mk_mem_zipIdx_iff_getElem?.1 hk]

/-- Whether a turn is taken before another: its place is earlier, or it is ahead at the same. -/
def Precedes (n : Node) (a b : Turn) : Prop :=
  Order.before (n.place b) (n.place a) = true ∨ n.place a = n.place b ∧ a.Ahead b

theorem Precedes.asymm {a b : Turn} (hab : n.Precedes a b) : ¬n.Precedes b a := by
  have hahead : a.Ahead b → ¬b.Ahead a := by
    cases a <;> cases b <;> simp [Turn.Ahead] <;> omega
  rintro (hba | ⟨hba, hba'⟩)
  · rcases hab with hab | ⟨hab, -⟩
    · simp only [Order.before, Bool.not_eq_true', Bool.eq_false_iff] at hab hba
      exact (Order.le_total (n.place a) (n.place b)).elim hba hab
    · rw [hab, Order.before_self] at hba
      cases hba
  · rcases hab with hab | ⟨-, hab'⟩
    · rw [hba, Order.before_self] at hab
      cases hab
    · exact hahead hab' hba'

theorem pairwise_schedule (n : Node) : n.schedule.Pairwise n.Precedes := by
  have hsorted := (Order.sorted_sort n.turns).pairwise (r := Turn.Ahead) fun o => by
    rw [Order.filter_sort]
    exact (pairwise_turns n).filter _
  rw [schedule, List.pairwise_map]
  refine hsorted.imp_of_mem fun {a b} ha hb h => ?_
  rw [Precedes, place_of_mem_turns (Order.mem_sort.1 ha), place_of_mem_turns (Order.mem_sort.1 hb)]
  exact h

theorem part_mem_schedule {i : Nat} (hi : i < n.children.length) : .part i ∈ n.schedule := by
  refine List.mem_map.2 ⟨(n.children[i].node.last, .part i), Order.mem_sort.2 ?_, rfl⟩
  refine List.mem_append_right _ (List.mem_reverse.2 (List.mem_map.2 ⟨(n.children[i], i), ?_, rfl⟩))
  exact List.mk_mem_zipIdx_iff_getElem?.2 (List.getElem?_eq_getElem hi)

/-- In a list in an order without cycles, what comes first in the order stands first. -/
theorem idxOf_lt_iff {l : List Turn} (hl : l.Pairwise n.Precedes) {a b : Turn} (ha : a ∈ l)
    (hb : b ∈ l) : l.idxOf a < l.idxOf b ↔ n.Precedes a b := by
  have hgetA := List.getElem_idxOf (List.idxOf_lt_length_of_mem ha)
  have hgetB := List.getElem_idxOf (List.idxOf_lt_length_of_mem hb)
  rw [List.pairwise_iff_getElem] at hl
  constructor
  · intro hlt
    have h := hl _ _ (List.idxOf_lt_length_of_mem ha) (List.idxOf_lt_length_of_mem hb) hlt
    rwa [hgetA, hgetB] at h
  · intro hab
    by_contra hnot
    rcases Nat.lt_or_eq_of_le (Nat.le_of_not_lt hnot) with hlt | heq
    · have h := hl _ _ (List.idxOf_lt_length_of_mem hb) (List.idxOf_lt_length_of_mem ha) hlt
      rw [hgetA, hgetB] at h
      exact hab.asymm h
    · have hsame : a = b := by
        rw [← hgetA, ← hgetB]
        congr 1
        exact heq.symm
      subst hsame
      exact hab.asymm hab

/-- **The checks of one child run before those of a later one** exactly when its last place is
earlier. At the same place the later one comes first. -/
theorem idxOf_part_lt {i j : Nat} (hij : i < j) (hj : j < n.children.length) :
    n.schedule.idxOf (.part i) < n.schedule.idxOf (.part j) ↔
      Order.before n.children[j].node.last n.children[i].node.last = true := by
  have hi := Nat.lt_trans hij hj
  rw [idxOf_lt_iff (pairwise_schedule n) (part_mem_schedule hi) (part_mem_schedule hj)]
  simp only [Precedes, place, Turn.Ahead, List.getElem?_eq_getElem hi, List.getElem?_eq_getElem hj,
    Option.bind_some]
  constructor
  · rintro (h | ⟨-, hji⟩)
    · exact h
    · omega
  · exact .inl

end Node

end Validation
