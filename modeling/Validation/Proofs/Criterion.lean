import Validation.Criterion.Shaped
import Validation.Proofs.Leaves

/-!
# Simplifying a criterion

Simplifying drops truths and the brackets of aggregates in aggregates. What is left cannot be
simplified further, and nothing is left exactly of a criterion that has nothing to check.

* `members_of_mem_members`: what simplifying leaves is neither a truth nor an aggregate.
* `IsTidy`: a criterion without checks is written as truth.
-/

namespace Validation.Criterion

variable {α : Type}

theorem validateAll_eq_first (cs : List (Criterion.On α)) (x : α) :
    validateAll cs x = Trial.first (·.validate x) cs := by
  induction cs with
  | nil => rfl
  | cons c cs ih => rw [validateAll, Trial.first, ih]

theorem validate_enhance (c : Criterion.On α) (f : Enhancer) (x : α) :
    (c.enhance f).validate x = (c.validate x).mapFailure f := by
  cases c <;> rfl

section Members

variable {κ ε : Type}

theorem membersOf_of_forall {cs : List (Criterion κ ε)} (h : ∀ c ∈ cs, c.members = [c]) :
    membersOf cs = cs := by
  induction cs with
  | nil => rfl
  | cons c cs ih =>
    rw [membersOf, h c List.mem_cons_self, ih fun d hd => h d (List.mem_cons_of_mem _ hd)]
    rfl

theorem members_gather {cs : List (Criterion κ ε)} (h : ∀ c ∈ cs, c.members = [c]) :
    (gather cs).members = cs := by
  rcases cs with _ | ⟨c, _ | ⟨d, cs⟩⟩
  · rfl
  · exact h c List.mem_cons_self
  · rw [gather, members, membersOf_of_forall h]
    all_goals simp

mutual

theorem members_of_mem_members : ∀ c : Criterion κ ε, ∀ m ∈ c.members, m.members = [m]
  | truth, _, hm => absurd hm List.not_mem_nil
  | leaf check, m, hm => by
    rw [List.mem_singleton.1 hm]
    rfl
  | all cs, m, hm => members_of_mem_membersOf cs m hm
  | enhanced inner enhancer, m, hm => by
    have hinner := members_gather (members_of_mem_members inner)
    rw [members] at hm
    split at hm
    case h_1 => exact absurd hm List.not_mem_nil
    case h_2 htruth =>
      rw [List.mem_singleton.1 hm, members, hinner]
      split
      case h_1 heq => exact absurd heq htruth
      case h_2 => rfl

theorem members_of_mem_membersOf :
    ∀ cs : List (Criterion κ ε), ∀ m ∈ membersOf cs, m.members = [m]
  | [], _, hm => absurd hm List.not_mem_nil
  | c :: cs, m, hm => (List.mem_append.1 hm).elim (members_of_mem_members c m)
      (members_of_mem_membersOf cs m)

end

/-- **Simplifying keeps the members**, so doing it again changes nothing. -/
theorem members_simplify (c : Criterion κ ε) : c.simplify.members = c.members :=
  members_gather (members_of_mem_members c)

/-- What is simplified is truth exactly when there are no members. -/
theorem isTruth_simplify (c : Criterion κ ε) : c.simplify.isTruth = c.members.isEmpty := by
  have hmembers := members_simplify c
  rw [simplify] at hmembers ⊢
  cases hnil : c.members with
  | nil => rfl
  | cons m ms =>
    rw [hnil] at hmembers
    cases hgather : gather (m :: ms) with
    | truth =>
      rw [hgather] at hmembers
      cases hmembers
    | _ => rfl

/-- A criterion that is written as truth if it has no checks. -/
def IsTidy (c : Criterion κ ε) : Prop := c.members = [] → c = truth

theorem isTidy_simplify (c : Criterion κ ε) : c.simplify.IsTidy := by
  intro h
  rw [members_simplify] at h
  rw [simplify, h]
  rfl

theorem isTidy_enhance {c : Criterion κ ε} (h : c.IsTidy) (e : ε) : (c.enhance e).IsTidy := by
  have key : c ≠ truth → (enhanced c e).IsTidy := by
    intro hne hnil
    have hsimplify : c.simplify = truth := by
      rw [members] at hnil
      split at hnil
      case h_1 htruth => exact htruth
      case h_2 => cases hnil
    have hmembers := isTruth_simplify c
    rw [hsimplify, eq_comm] at hmembers
    exact absurd (h (List.isEmpty_iff.1 hmembers)) hne
  cases c with
  | truth => exact fun _ => rfl
  | leaf check => exact key nofun
  | all cs => exact key nofun
  | enhanced inner f => exact key nofun

end Members

end Validation.Criterion
