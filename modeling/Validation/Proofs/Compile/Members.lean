import Validation.Proofs.Compile.Finished
import Validation.Proofs.Criterion

/-!
# What the criterion of a node runs

Pushing criteria one after another succeeds when each of them is made and has the shape of the
node, and what has been pushed is run in the order in which it was pushed.

* `ShapedCriteria.pushAll_eq_ok_iff`: the members that are pushed.
* `combine_eq_ok_iff`: the criterion of what is pushed.
* `finished_eq_ok_iff`: the criterion of a node, from what the node collects.
* `validate_finished`, `forall_trialOf`: its trial runs what the node collects, one after another.
* `exists_finished_iff`: whether there is a criterion is a matter of the node and its children, and
  not of what cascades are linked to.
-/

namespace Validation

open Constraint (Deferred)

/-- What is made is a criterion of a shape. -/
abbrev Makes (shape : Shape) (d : Deferred) (c : Criterion.On shape.Carrier) : Prop :=
  d () = .ok ⟨shape, c⟩

namespace ShapedCriteria

theorem push_eq_ok {cs out : ShapedCriteria} {c : ShapedCriterion} :
    cs.push c = .ok out ↔ ∃ m, c = ⟨cs.shape, m⟩ ∧ out = ⟨cs.shape, cs.members ++ [m]⟩ := by
  obtain ⟨shape, members⟩ := cs
  obtain ⟨shape', m⟩ := c
  unfold push
  constructor
  · split
    case isTrue h =>
      intro hout
      obtain rfl : shape' = shape := h
      cases hout
      exact ⟨m, rfl, rfl⟩
    case isFalse => exact fun hout => nomatch hout
  · rintro ⟨m', h, rfl⟩
    cases h
    exact dif_pos rfl

/-- **What is pushed** are criteria of the one shape, and they stand behind each other. -/
theorem pushAll_eq_ok_iff {cs out : ShapedCriteria} {deferred : List Deferred} :
    cs.pushAll deferred = .ok out ↔ ∃ ms, List.Forall₂ (Makes cs.shape) deferred ms ∧
      out = ⟨cs.shape, cs.members ++ ms⟩ := by
  induction deferred generalizing cs with
  | nil =>
    simp only [pushAll_nil, List.forall₂_nil_left_iff, exists_eq_left, List.append_nil]
    exact eq_comm
  | cons d rest ih =>
    simp only [pushAll_cons_eq_ok, push_eq_ok, List.forall₂_cons_left_iff, ih]
    constructor
    · rintro ⟨_, hd, _, ⟨m, rfl, rfl⟩, ms, hms, rfl⟩
      exact ⟨m :: ms, ⟨m, ms, hd, hms, rfl⟩, by simp⟩
    · rintro ⟨_, ⟨m, ms, hd, hms, rfl⟩, rfl⟩
      exact ⟨_, hd, _, ⟨m, rfl, rfl⟩, ms, hms, by simp⟩

end ShapedCriteria

theorem combine_eq_ok_iff {shape : Shape} {deferred : List Deferred} {s : ShapedCriterion} :
    Constraint.combine shape deferred = .ok s ↔
      ∃ ms, List.Forall₂ (Makes shape) deferred ms ∧ s = ⟨shape, (Criterion.all ms).simplify⟩ := by
  rw [ShapedCriteria.combine_eq_ok]
  constructor
  · rintro ⟨cs, hcs, rfl⟩
    obtain ⟨ms, hms, rfl⟩ := ShapedCriteria.pushAll_eq_ok_iff.1 hcs
    exact ⟨ms, hms, rfl⟩
  · rintro ⟨ms, hms, rfl⟩
    exact ⟨_, ShapedCriteria.pushAll_eq_ok_iff.2 ⟨ms, hms, rfl⟩, rfl⟩

/-- **The criterion of a node** has what the node collects as its members. -/
theorem Node.finished_eq_ok_iff {link : Linker} {n : Node} {s : ShapedCriterion} :
    n.finished link = .ok s ↔ ∃ ms, List.Forall₂ (Makes n.type.shape)
      ((n.contributions link).map (·.2) ++ n.linked link) ms ∧
        s = ⟨n.type.shape, (Criterion.all ms).simplify⟩ := by
  rw [Node.finished_eq, combine_eq_ok_iff]

/-- Criteria of a shape are made of all members of a list when one is made of each. -/
theorem exists_forall₂_makes {shape : Shape} {ds : List Deferred} :
    (∃ ms, List.Forall₂ (Makes shape) ds ms) ↔ ∀ d ∈ ds, ∃ m, Makes shape d m := by
  induction ds with
  | nil => simp
  | cons d rest ih =>
    simp only [List.forall₂_cons_left_iff, List.forall_mem_cons, ← ih]
    constructor
    · rintro ⟨_, m, ms, hm, hms, rfl⟩
      exact ⟨⟨m, hm⟩, ms, hms⟩
    · rintro ⟨⟨m, hm⟩, ms, hms⟩
      exact ⟨m :: ms, m, ms, hm, hms, rfl⟩

theorem Wrapper.wrap_eq_ok {w : Wrapper} {s : ShapedCriterion} {c : Criterion.On Value} :
    w.wrap s = .ok c ↔ w.supports s.shape = true ∧
      (if s.isTruth then .truth else .leaf (w.check s.shape s.lift)) = c := by
  unfold wrap
  split_ifs with hsupports <;> simp [hsupports]

theorem Node.shape_of_finished {link : Linker} {n : Node} {s : ShapedCriterion}
    (h : n.finished link = .ok s) : s.shape = n.type.shape := by
  obtain ⟨ms, -, rfl⟩ := finished_eq_ok_iff.1 h
  rfl

/-- What is made on values has the shape of references. -/
theorem exists_onValues_iff {shape : Shape} {x : Except AnalysisError (Criterion.On Value)} :
    (∃ m, ShapedCriterion.onValues <$> x = .ok ⟨shape, m⟩) ↔ shape = .reference ∧ ∃ c, x = .ok c := by
  simp only [map_eq_ok]
  constructor
  · rintro ⟨m, c, hc, heq⟩
    exact ⟨(congrArg ShapedCriterion.shape heq).symm, c, hc⟩
  · rintro ⟨rfl, c, hc⟩
    exact ⟨c, c, hc, rfl⟩

/-- **When a child is made part of a node**: the node is of references, and the wrapper supports the
criterion of the child. -/
theorem Node.exists_makes_part_iff {link : Linker} {shape : Shape} {k : Child Node} :
    (∃ m, Makes shape (part link k).2 m) ↔
      shape = .reference ∧ k.wrapper.supports k.node.type.shape = true ∧
        ∃ s, k.node.finished link = .ok s := by
  have hdef : (part link k).2 () = ShapedCriterion.onValues <$>
      (do k.wrapper.wrap (← k.node.finished link)) := by
    simp only [part, map_eq_pure_bind, bind_assoc]
  simp only [Makes, hdef, exists_onValues_iff, bind_eq_ok]
  refine and_congr_right fun _ => ?_
  constructor
  · rintro ⟨c, s, hs, hc⟩
    exact ⟨shape_of_finished hs ▸ (Wrapper.wrap_eq_ok.1 hc).1, s, hs⟩
  · rintro ⟨hsupports, s, hs⟩
    exact ⟨_, s, hs, Wrapper.wrap_eq_ok.2 ⟨shape_of_finished hs ▸ hsupports, rfl⟩⟩

/-- A node has a criterion when each member that it collects is made. -/
theorem Node.exists_finished_iff_makes {link : Linker} {n : Node} : (∃ s, n.finished link = .ok s) ↔
    ∀ d ∈ (n.contributions link).map (·.2) ++ n.linked link, ∃ m, Makes n.type.shape d m := by
  rw [← exists_forall₂_makes]
  constructor
  · rintro ⟨s, hs⟩
    obtain ⟨ms, hms, -⟩ := finished_eq_ok_iff.1 hs
    exact ⟨ms, hms⟩
  · rintro ⟨ms, hms⟩
    exact ⟨_, finished_eq_ok_iff.2 ⟨ms, hms, rfl⟩⟩

/-- **When a node has a criterion**: its constraints become criteria of the shape of its type, its
children have criteria that their wrappers support, and the class it cascades into is linked. -/
theorem Node.exists_finished_iff {link : Linker} {n : Node} :
    (∃ s, n.finished link = .ok s) ↔
      (∀ c ∈ n.constraints, ∃ m, c.process n.position = .ok ⟨n.type.shape, m⟩) ∧
      (∀ k ∈ n.children, n.type.shape = .reference ∧ k.wrapper.supports k.node.type.shape = true ∧
        ∃ s, k.node.finished link = .ok s) ∧
      ∀ name, n.cascade = some name → n.type.shape = .reference ∧ ∃ c, link name = .ok c := by
  have hcontributions : (∀ e ∈ n.contributions link, ∃ m, Makes n.type.shape e.2 m) ↔
      (∀ c ∈ n.constraints, ∃ m, c.process n.position = .ok ⟨n.type.shape, m⟩) ∧
        ∀ k ∈ n.children, ∃ m, Makes n.type.shape (part link k).2 m := by
    simp only [mem_contributions, or_imp, forall_and, own, parts_eq, List.mem_reverse,
      List.forall_mem_map, Makes]
  have hlinked : (∀ d ∈ n.linked link, ∃ m, Makes n.type.shape d m) ↔
      ∀ name, n.cascade = some name → n.type.shape = .reference ∧ ∃ c, link name = .ok c := by
    simp only [linked, List.forall_mem_map, Option.mem_toList, Makes, exists_onValues_iff]
  rw [exists_finished_iff_makes, List.forall_mem_append, List.forall_mem_map, hcontributions, hlinked,
    and_assoc]
  simp only [exists_makes_part_iff]

/-- The trial of a criterion that is made when it is asked for. -/
def trialOf (d : Deferred) (v : Value) : Trial Verdict :=
  match d () with
  | .ok s => s.lift.validate v
  | .error _ => .pass

namespace ShapedCriterion

theorem lift_scalar {kind : ScalarKind} (c : Criterion.On kind.Carrier) :
    lift ⟨.scalar kind, c⟩ = if c.isTruth then .truth else .leaf (validate ⟨.scalar kind, c⟩) := rfl

theorem validate_of_some {s : ShapedCriterion} {v : Value} {x : s.shape.Carrier}
    (hx : s.shape.ofValue? v = some x) : s.validate v = s.criterion.validate x := by
  simp only [validate, hx]

theorem lift_validate_of_some {s : ShapedCriterion} {v : Value} {x : s.shape.Carrier}
    (hx : s.shape.ofValue? v = some x) : s.lift.validate v = s.criterion.validate x := by
  obtain ⟨kind | _, c⟩ := s
  case scalar =>
    rw [lift_scalar]
    split_ifs with htruth
    · cases c <;> first | rfl | cases htruth
    · simp only [Criterion.validate, validate]
      rw [hx]
  case reference =>
    cases hx
    rfl

/-- Where there is no scalar to test, a criterion fails unless it is written as truth. -/
theorem lift_validate_of_none {s : ShapedCriterion} {v : Value} (hx : s.shape.ofValue? v = none) :
    s.lift.validate v =
      if s.isTruth then .pass else .fail (.typeMismatch s.shape.name v) := by
  obtain ⟨kind | _, c⟩ := s
  case scalar =>
    rw [lift_scalar, isTruth]
    split_ifs
    · rfl
    · simp only [Criterion.validate, validate]
      rw [hx]
  case reference => cases hx

/-- **A simplified aggregate** runs its members one after another. Where they test scalars, each of
them has to be tidy: then one that has no checks says nothing of a value without a scalar. -/
theorem lift_validate_all {shape : Shape} {ms : List (Criterion.On shape.Carrier)}
    (htidy : shape.isScalar = true → ∀ m ∈ ms, m.IsTidy) (v : Value) :
    (⟨shape, (Criterion.all ms).simplify⟩ : ShapedCriterion).lift.validate v =
      Trial.first (fun m => (⟨shape, m⟩ : ShapedCriterion).lift.validate v) ms := by
  cases hx : shape.ofValue? v with
  | some x =>
    rw [lift_validate_of_some hx, Criterion.validate_simplify, Criterion.validate,
      Criterion.validateAll_eq_first]
    exact Trial.first_congr fun m _ => (lift_validate_of_some (s := ⟨shape, m⟩) hx).symm
  | none =>
    -- references take every value
    have hscalar : shape.isScalar = true := by
      cases shape
      · rfl
      · cases hx
    rw [lift_validate_of_none hx]
    simp only [isTruth, Criterion.isTruth_simplify, Criterion.members]
    -- a member with checks is a mismatch, and one without is truth, as it is tidy
    specialize htidy hscalar
    induction ms with
    | nil => rfl
    | cons m ms ih =>
      rw [Trial.first, lift_validate_of_none hx, Criterion.membersOf,
        ← ih fun m' hm' => htidy m' (List.mem_cons_of_mem _ hm')]
      cases hnil : m.members with
      | nil =>
        rw [htidy m List.mem_cons_self hnil]
        rfl
      | cons m' ms' =>
        have hm : m.isTruth = false := by
          cases m <;> first | rfl | cases hnil
        simp [isTruth, hm]

end ShapedCriterion

/-- What a constraint becomes is tidy. -/
theorem isTidy_process {p : Position} {c : Constraint} {s : ShapedCriterion}
    (h : c.process p = .ok s) : s.criterion.IsTidy := by
  obtain ⟨kind, attributes, order, message, parts⟩ := c
  rw [Constraint.process] at h
  obtain ⟨unit, hunit, h⟩ := bind_eq_ok.1 h
  rw [pure_eq_ok] at h
  obtain ⟨ms, -, rfl⟩ := combine_eq_ok_iff.1 hunit
  subst h
  cases message with
  | none => exact Criterion.isTidy_simplify _
  | some text => exact Criterion.isTidy_enhance (Criterion.isTidy_simplify _) _

/-- What is made one after another runs one after another. -/
theorem first_of_makes {shape : Shape} {ds : List Deferred} {ms : List (Criterion.On shape.Carrier)}
    (h : List.Forall₂ (Makes shape) ds ms) (v : Value) :
    Trial.first (fun m => (⟨shape, m⟩ : ShapedCriterion).lift.validate v) ms =
      Trial.first (trialOf · v) ds := by
  induction h with
  | nil => rfl
  | cons hd _ ih => rw [Trial.first, Trial.first, ih, trialOf, hd]

/-- **The trial of a node** runs what the node collects, one after another. -/
theorem Node.validate_finished {link : Linker} {n : Node} {s : ShapedCriterion}
    (h : n.finished link = .ok s) (v : Value) :
    s.lift.validate v =
      Trial.first (trialOf · v) ((n.contributions link).map (·.2) ++ n.linked link) := by
  obtain ⟨ms, hms, rfl⟩ := finished_eq_ok_iff.1 h
  rw [← first_of_makes hms]
  refine ShapedCriterion.lift_validate_all (fun hscalar m hm => ?_) v
  obtain ⟨d, hd, hmakes⟩ := exists_mem_of_forall₂ hms m hm
  -- what is not made of a constraint is a criterion on values
  have hvalues : ∀ c : Criterion.On Value, .onValues c ≠ (⟨n.type.shape, m⟩ : ShapedCriterion) := by
    intro c hc
    have hshape : Shape.reference = n.type.shape := congrArg ShapedCriterion.shape hc
    rw [← hshape] at hscalar
    cases hscalar
  rw [Makes] at hmakes
  rcases List.mem_append.1 hd with hd | hd
  · obtain ⟨e, he, rfl⟩ := List.mem_map.1 hd
    rcases mem_contributions.1 he with he | he
    · obtain ⟨c, -, rfl⟩ := List.mem_map.1 he
      exact isTidy_process hmakes
    · obtain ⟨k, -, rfl⟩ := mem_parts.1 he
      obtain ⟨-, -, c, -, hc⟩ := part_eq_ok.1 hmakes
      exact absurd hc (hvalues c)
  · obtain ⟨name, -, rfl⟩ := List.mem_map.1 hd
    obtain ⟨c, -, hc⟩ := map_eq_ok.1 hmakes
    exact absurd hc (hvalues c)

/-- **What holds of the trials of a node** holds of those of its own constraints, of its children and of
the class that it cascades into. -/
theorem Node.forall_trialOf {Q : Trial Verdict → Prop} {link : Linker} {n : Node} {v : Value}
    (hpass : Q .pass)
    (hown : ∀ c ∈ n.constraints, ∀ s, c.process n.position = .ok s → Q (s.lift.validate v))
    (hchild : ∀ k ∈ n.children, ∀ s, k.node.finished link = .ok s →
      Q (k.wrapper.check s.shape s.lift v))
    (hlinked : ∀ name, n.cascade = some name → ∀ c, link name = .ok c → Q (c.validate v)) :
    ∀ d ∈ (n.contributions link).map (·.2) ++ n.linked link, Q (trialOf d v) := by
  intro d hd
  unfold trialOf
  split
  case h_2 => exact hpass
  case h_1 t ht =>
    rcases List.mem_append.1 hd with hd | hd
    · obtain ⟨e, he, rfl⟩ := List.mem_map.1 hd
      rcases mem_contributions.1 he with he | he
      · obtain ⟨c, hc, rfl⟩ := List.mem_map.1 he
        exact hown c hc t ht
      · obtain ⟨k, hk, rfl⟩ := mem_parts.1 he
        obtain ⟨s, hs, c, hc, rfl⟩ := part_eq_ok.1 ht
        obtain ⟨-, rfl⟩ := Wrapper.wrap_eq_ok.1 hc
        -- truth is wrapped to truth, and anything else to a check
        change Q (Criterion.validate (if s.isTruth then .truth else .leaf _) v)
        split_ifs
        · exact hpass
        · exact hchild k hk s hs
    · obtain ⟨name, hname, rfl⟩ := List.mem_map.1 hd
      obtain ⟨c, hc, rfl⟩ := map_eq_ok.1 ht
      exact hlinked name (Option.mem_toList.1 hname) c hc

end Validation
