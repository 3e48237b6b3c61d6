import Mathlib
import Validation.Proofs.Process

/-!
# The normal form of criteria

Simplifying puts a criterion into a normal form: truth, a single check, a criterion with an enhancer
that has something to decorate, or a row of at least two checks and enhanced criteria. No truth and no
aggregate stands in an aggregate, and no enhancer stands around nothing.

* `IsNormal`: the normal form, as a predicate on the criterion as it is written.
* `isNormal_simplify`, `simplify_eq_self`: simplifying leads there, and changes nothing there.
* `leaves_ne_nil`: of the normal forms, only truth has no check.
* `simplified_criteria_are_normal`: with it, every criterion that is made for constraints, wholes and
  trees.
-/

namespace Validation

namespace Criterion

variable {κ ε : Type}

/-- Whether the criterion is a check or has an enhancer: what stands in a simplified aggregate. -/
def isSingle : Criterion κ ε → Bool
  | leaf _ | enhanced _ _ => true
  | truth | all _ => false

/-- **The normal form** of criteria. -/
inductive IsNormal : Criterion κ ε → Prop where
  | truth : IsNormal truth
  | leaf (check : κ) : IsNormal (leaf check)
  /-- An enhancer stands around a normal form that is not truth. -/
  | enhanced {inner : Criterion κ ε} (enhancer : ε) (hinner : IsNormal inner)
      (htruth : inner ≠ Criterion.truth) : IsNormal (enhanced inner enhancer)
  /-- An aggregate has at least two members, each a check or with an enhancer. -/
  | all {cs : List (Criterion κ ε)} (hlength : 2 ≤ cs.length)
      (hsingle : ∀ m ∈ cs, m.isSingle = true) (hmembers : ∀ m ∈ cs, IsNormal m) : IsNormal (all cs)

/-! ### Simplifying leads to the normal form -/

theorem isNormal_gather {cs : List (Criterion κ ε)}
    (h : ∀ m ∈ cs, m.isSingle = true ∧ m.IsNormal) : (gather cs).IsNormal := by
  rcases cs with _ | ⟨c, _ | ⟨d, cs⟩⟩
  · exact .truth
  · exact (h c List.mem_cons_self).2
  · exact .all (by simp) (fun m hm => (h m hm).1) fun m hm => (h m hm).2

-- `members` and `membersOf` flatten aggregates, and gather anew inside every enhancer: what is inside
-- is in normal form by the induction, and dropped with its enhancer where it is truth.
mutual

theorem isNormal_of_mem_members :
    ∀ c : Criterion κ ε, ∀ m ∈ c.members, m.isSingle = true ∧ m.IsNormal
  | truth, _, hm => absurd hm List.not_mem_nil
  | leaf check, m, hm => by
    rw [List.mem_singleton.1 hm]
    exact ⟨rfl, .leaf check⟩
  | all cs, m, hm => isNormal_of_mem_membersOf cs m hm
  | enhanced inner enhancer, m, hm => by
    have hinner : (gather inner.members).IsNormal :=
      isNormal_gather (isNormal_of_mem_members inner)
    rw [members] at hm
    split at hm
    case h_1 => exact absurd hm List.not_mem_nil
    case h_2 htruth =>
      rw [List.mem_singleton.1 hm]
      exact ⟨rfl, .enhanced enhancer hinner htruth⟩

theorem isNormal_of_mem_membersOf :
    ∀ cs : List (Criterion κ ε), ∀ m ∈ membersOf cs, m.isSingle = true ∧ m.IsNormal
  | [], _, hm => absurd hm List.not_mem_nil
  | c :: cs, m, hm => (List.mem_append.1 hm).elim (isNormal_of_mem_members c m)
      (isNormal_of_mem_membersOf cs m)

end

/-- **Simplifying leads to the normal form.** -/
theorem isNormal_simplify (c : Criterion κ ε) : c.simplify.IsNormal :=
  isNormal_gather (isNormal_of_mem_members c)

/-! ### What is in normal form is simplified -/

/-- A single criterion stands for itself in an aggregate as soon as it is simplified. -/
theorem members_of_isSingle {c : Criterion κ ε} (hsingle : c.isSingle = true)
    (hself : c.simplify = c) : c.members = [c] := by
  cases c with
  | truth => cases hsingle
  | leaf check => rfl
  | all cs => cases hsingle
  | enhanced inner enhancer =>
    rw [simplify, members] at hself
    rw [members]
    split at hself
    case h_1 => cases hself
    case h_2 => exact congrArg (fun c => [c]) hself

/-- **A normal form is simplified already.** -/
theorem simplify_eq_self {c : Criterion κ ε} (h : c.IsNormal) : c.simplify = c := by
  induction h with
  | truth => rfl
  | leaf check => rfl
  | @enhanced inner enhancer _ htruth ih =>
    have hgather : gather inner.members = inner := ih
    rw [simplify, members, hgather]
    split
    case h_1 => exact absurd rfl htruth
    case h_2 => rfl
  | @all cs hlength hsingle _ ih =>
    have hmembers : membersOf cs = cs :=
      membersOf_of_forall fun m hm => members_of_isSingle (hsingle m hm) (ih m hm)
    rw [simplify, members, hmembers]
    rcases cs with _ | ⟨c, _ | ⟨d, cs⟩⟩
    · simp at hlength
    · simp at hlength
    · rfl

theorem simplify_simplify (c : Criterion κ ε) : c.simplify.simplify = c.simplify :=
  simplify_eq_self (isNormal_simplify c)

/-! ### The checks of a normal form -/

mutual

theorem leafCount_eq_length : ∀ c : Criterion κ ε, c.leafCount = c.leaves.length
  | truth => rfl
  | leaf _ => rfl
  | all cs => leafCounts_eq_length cs
  | enhanced inner enhancer => by
    rw [leafCount, leaves, List.length_map, leafCount_eq_length inner]

theorem leafCounts_eq_length :
    ∀ cs : List (Criterion κ ε), leafCounts cs = (leavesOf cs).length
  | [] => rfl
  | c :: cs => by
    rw [leafCounts, leavesOf, List.length_append, leafCount_eq_length c, leafCounts_eq_length cs]

end

/-- **Only truth has no check**, among the normal forms. -/
theorem leaves_ne_nil {c : Criterion κ ε} (h : c.IsNormal) (htruth : c ≠ truth) :
    c.leaves ≠ [] := by
  induction h with
  | truth => exact absurd rfl htruth
  | leaf check => exact List.cons_ne_nil _ _
  | enhanced enhancer _ hinner ih =>
    rw [leaves]
    exact fun hnil => ih hinner (List.map_eq_nil_iff.1 hnil)
  | @all cs hlength hsingle _ ih =>
    -- the first member is single, so it is not truth and has a check
    cases cs with
    | nil => simp at hlength
    | cons c cs =>
      have hne : c ≠ .truth := by
        rintro rfl
        cases hsingle _ List.mem_cons_self
      rw [leaves, leavesOf]
      exact fun hnil => ih c List.mem_cons_self hne (List.append_eq_nil_iff.1 hnil).1

/-- Nothing is left of a criterion exactly when it has no check. -/
theorem simplify_eq_truth_iff {c : Criterion κ ε} : c.simplify = truth ↔ c.leafCount = 0 := by
  rw [leafCount_eq_length, List.length_eq_zero_iff, ← leaves_simplify]
  constructor
  · intro htruth
    rw [htruth]
    rfl
  · intro hnil
    by_contra htruth
    exact leaves_ne_nil (isNormal_simplify c) htruth hnil

theorem leafCount_simplify (c : Criterion κ ε) : c.simplify.leafCount = c.leafCount := by
  rw [leafCount_eq_length, leafCount_eq_length, leaves_simplify]

theorem isNormal_enhance {c : Criterion κ ε} (h : c.IsNormal) (enhancer : ε) :
    (c.enhance enhancer).IsNormal := by
  by_cases htruth : c = truth
  · rw [htruth]
    exact .truth
  · have henhance : c.enhance enhancer = enhanced c enhancer := by
      cases c <;> first | rfl | exact absurd rfl htruth
    rw [henhance]
    exact .enhanced enhancer h htruth

end Criterion

/-! ### The criteria that are made -/

/-- What a constraint becomes is in normal form, its message included. -/
theorem Constraint.isNormal_process {c : Constraint} {p : Position} {s : ShapedCriterion}
    (h : c.process p = .ok s) : s.criterion.IsNormal := by
  obtain ⟨ms, -, rfl⟩ := process_eq_ok_iff.1 h
  have hunit : (Criterion.all ms).simplify.IsNormal := Criterion.isNormal_simplify _
  unfold decorated
  cases c.message with
  | none => exact hunit
  | some text => exact Criterion.isNormal_enhance hunit _

/-- A criterion on a whole is a single check, or truth. -/
theorem Wrapper.isNormal_wrap {w : Wrapper} {s : ShapedCriterion} {c : Criterion.On Value}
    (h : w.wrap s = .ok c) : c.IsNormal := by
  obtain ⟨-, rfl⟩ := wrap_eq_ok.1 h
  split_ifs
  · exact .truth
  · exact .leaf _

theorem ShapedCriterion.isNormal_lift {s : ShapedCriterion} (h : s.criterion.IsNormal) :
    s.lift.IsNormal := by
  obtain ⟨kind | _, c⟩ := s
  case scalar =>
    rw [lift_scalar]
    split_ifs
    · exact .truth
    · exact .leaf _
  case reference => exact h

theorem Slot.isNormal_finish {link : Linker} {s : Slot} {t : ShapedCriterion}
    (h : s.finish link = .ok t) : t.criterion.IsNormal := by
  unfold finish at h
  split at h
  · obtain ⟨c, -, h⟩ := bind_eq_ok.1 h
    obtain ⟨unit, -, h⟩ := bind_eq_ok.1 h
    rw [← pure_eq_ok.1 h]
    exact Criterion.isNormal_simplify _
  · rw [← pure_eq_ok.1 h]
    exact Criterion.isNormal_simplify _

/-- What a tree is compiled into is in normal form. -/
theorem isNormal_compile {link : Linker} {n : Node} {c : Criterion.On Value}
    (h : compile link n = .ok c) : c.IsNormal := by
  obtain ⟨slots, -, h⟩ := bind_eq_ok.1 h
  cases slots with
  | nil =>
    rw [← pure_eq_ok.1 h]
    exact .truth
  | cons root rest =>
    obtain ⟨t, ht, h⟩ := bind_eq_ok.1 h
    rw [← pure_eq_ok.1 h]
    exact ShapedCriterion.isNormal_lift (Slot.isNormal_finish ht)

/-- **Simplified criteria are in normal form.** Simplifying leads to the normal form, where simplifying
again changes nothing. It keeps the number of checks, and leaves truth exactly where there are none.
What a constraint becomes, what a row of criteria is simplified to, what a wrapper makes of a criterion
and what a tree is compiled into is in normal form. -/
theorem simplified_criteria_are_normal :
    (∀ (κ ε : Type) (c : Criterion κ ε), c.simplify.IsNormal ∧ c.simplify.simplify = c.simplify ∧
      (c.simplify = .truth ↔ c.leafCount = 0) ∧ c.simplify.leafCount = c.leafCount) ∧
    (∀ (c : Constraint) (p : Position) s, c.process p = .ok s → s.criterion.IsNormal) ∧
    (∀ cs : ShapedCriteria, cs.simplify.criterion.IsNormal) ∧
    (∀ (w : Wrapper) s c, w.wrap s = .ok c → c.IsNormal) ∧
    ∀ link n c, compile link n = .ok c → c.IsNormal := by
  refine ⟨fun κ ε c => ?_, fun c p s => Constraint.isNormal_process,
    fun cs => Criterion.isNormal_simplify _, fun w s c => Wrapper.isNormal_wrap,
    fun link n c => isNormal_compile⟩
  exact ⟨Criterion.isNormal_simplify c, Criterion.simplify_simplify c,
    Criterion.simplify_eq_truth_iff, Criterion.leafCount_simplify c⟩

/-! ### A flag of an object -/

namespace Flags

/-- Brackets in brackets, with enhancers around nothing and around a single check. -/
def bracketed : Criterion Nat Nat :=
  .all [.truth, .enhanced (.all [.all [], .truth]) 7, .enhanced (.all [.truth, .all [.leaf 1]]) 8,
    .all [.leaf 2]]

/-- A constraint with a message, whose check of truth values is written with brackets. -/
def isSet : Constraint :=
  ⟨⟨"set", none, none, [],
      [⟨fun _ => true, fun _ _ => .ok ⟨.scalar .boolean, .all [.truth, .all [.leaf fun _ => .pass]]⟩⟩],
      []⟩, .ofList [], none, some "not set", []⟩

def flag : Node := ⟨⟨"Flagged", [.property "flag"]⟩, .scalar .boolean, [isSet], none, []⟩

def flagAccess : Wrapper := .property ⟨"flag", none⟩

/-- An object with a flag. -/
def flagged : Node := ⟨.ofRoot "Flagged", .classOf "Flagged", [], none, [⟨flagAccess, flag⟩]⟩

/-- Nothing is linked, as there is nothing to cascade into. -/
def link : Linker := fun _ => .ok .truth

theorem criteria_of_a_flag_are_normal :
    bracketed.simplify = .all [.enhanced (.leaf 1) 8, .leaf 2] ∧ bracketed.simplify.IsNormal ∧
    bracketed.simplify ≠ .truth ∧ bracketed.simplify.leafCount = 2 ∧
    (∃ s c, isSet.process flag.position = .ok s ∧ s.criterion.IsNormal ∧ flagAccess.wrap s = .ok c ∧
      c.IsNormal) ∧
    ∃ c, compile link flagged = .ok c ∧ c.IsNormal := by
  obtain ⟨hsimplify, hprocess, -, hwrap, hcompile⟩ := simplified_criteria_are_normal
  obtain ⟨hnormal, -, htruth, hcount⟩ := hsimplify _ _ bracketed
  obtain ⟨s, hs⟩ : ∃ s, isSet.process flag.position = .ok s := exists_of_isOk (by cbv)
  obtain ⟨c, hc⟩ : ∃ c, flagAccess.wrap s = .ok c := ⟨_, Wrapper.wrap_eq_ok.2 ⟨rfl, rfl⟩⟩
  obtain ⟨d, hd⟩ : ∃ d, compile link flagged = .ok d := exists_of_isOk (by cbv)
  refine ⟨rfl, hnormal, fun h => absurd (htruth.1 h) (by decide), hcount, ⟨s, c, hs, ?_, hc, ?_⟩, d, hd, ?_⟩
  · exact hprocess _ _ s hs
  · exact hwrap _ s c hc
  · exact hcompile link flagged d hd

end Flags

end Validation
