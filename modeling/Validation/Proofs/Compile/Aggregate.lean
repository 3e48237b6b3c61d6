import Validation.Proofs.Compile.Members

/-!
# Aggregates that carry their shape twice

Criteria of one shape are kept in `ShapedCriteria`, which can hold no others. An aggregate that is
grown in place carries its shape twice, once by itself and once in the criterion that it grows, and its
type says neither that the two are the same nor that this criterion is an aggregate at all. Pushing looks
at the inner shape, and rejects whatever it has no case for.

* `Aggregate.push`: what pushing answers, and what is kept afterwards.
* `aggregate_push`: criteria of one shape and their aggregate take the same and reject the same.
* `Aggregate.pushes_eq`: what is kept after any pushes, some of which may have been rejected.
* `Aggregate.isOf_pushes`: the two shapes never part.
-/

namespace Validation

/-- Criteria that are collected one after another. -/
structure Aggregate where
  shape : Shape
  /-- All that has been collected, which has a shape of its own. -/
  inner : ShapedCriterion

namespace Aggregate

/-- Nothing collected yet. -/
def empty (shape : Shape) : Aggregate := ⟨shape, ⟨shape, .all []⟩⟩

/-- One more criterion at the end: the answer, and what is kept afterwards. -/
def push (kept : Aggregate) (c : ShapedCriterion) : Except AnalysisError Unit × Aggregate :=
  match kept.inner with
  | ⟨inner, .all members⟩ =>
    if h : c.shape = inner then (.ok (), ⟨kept.shape, ⟨inner, .all (members ++ [h ▸ c.criterion])⟩⟩)
    else (.error (.shapeMismatch kept.shape.name c.shape.name), kept)
  | _ => (.error (.shapeMismatch kept.shape.name c.shape.name), kept)

/-- All that has been collected, simplified. -/
def simplify (kept : Aggregate) : ShapedCriterion := kept.inner.simplify

/-- What is kept after pushing criteria one after another, whatever is answered. -/
def pushes (shape : Shape) (cs : List ShapedCriterion) : Aggregate :=
  cs.foldl (fun kept c => (kept.push c).2) (.empty shape)

end Aggregate

/-- The criterion, if it is of the shape. -/
def ShapedCriterion.ofShape? (shape : Shape) (c : ShapedCriterion) :
    Option (Criterion.On shape.Carrier) :=
  if h : c.shape = shape then some (h ▸ c.criterion) else none

namespace ShapedCriteria

variable {cs out : ShapedCriteria} {c : ShapedCriterion} {e : AnalysisError}

theorem push_of_ofShape? {m : Criterion.On cs.shape.Carrier} (h : c.ofShape? cs.shape = some m) :
    cs.push c = .ok ⟨cs.shape, cs.members ++ [m]⟩ := by
  unfold ShapedCriterion.ofShape? at h
  split_ifs at h with hshape
  rw [push, dif_pos hshape, Option.some.inj h]

theorem push_eq_error_iff :
    cs.push c = .error e ↔ c.shape ≠ cs.shape ∧ e = .shapeMismatch cs.shape.name c.shape.name := by
  unfold push
  split_ifs with hshape
  · exact iff_of_false nofun fun h => h.1 hshape
  · simp only [Except.error.injEq, ne_eq, hshape, not_false_eq_true, true_and]
    exact eq_comm

/-- **A criterion is pushed** exactly if it is of the shape of the others. -/
theorem exists_push_iff : (∃ out, cs.push c = .ok out) ↔ c.shape = cs.shape := by
  constructor
  · rintro ⟨out, hout⟩
    obtain ⟨m, rfl, -⟩ := push_eq_ok.1 hout
    rfl
  · intro hshape
    rw [push, dif_pos hshape]
    exact ⟨_, rfl⟩

theorem shape_of_push (h : cs.push c = .ok out) : out.shape = cs.shape := by
  obtain ⟨m, -, rfl⟩ := push_eq_ok.1 h
  rfl

/-- A criterion on values is rejected exactly by what tests scalars. -/
theorem push_onValues_eq_error_iff {v : Criterion.On Value} :
    cs.push (.onValues v) = .error e ↔
      ∃ kind, cs.shape = .scalar kind ∧ e = .shapeMismatch kind.name Shape.reference.name := by
  rw [push_eq_error_iff]
  cases hshape : cs.shape with
  | reference => simp [ShapedCriterion.onValues]
  | scalar kind => simp [ShapedCriterion.onValues, Shape.name]

/-- The criteria as an aggregate, which carries their shape twice. -/
def aggregate (cs : ShapedCriteria) : Aggregate := ⟨cs.shape, ⟨cs.shape, .all cs.members⟩⟩

/-- **Pushing to the criteria and to their aggregate** takes and rejects the same, and leaves the
aggregate of the same criteria. -/
theorem aggregate_push (cs : ShapedCriteria) (c : ShapedCriterion) :
    cs.aggregate.push c = match cs.push c with
      | .ok out => (.ok (), out.aggregate)
      | .error e => (.error e, cs.aggregate) := by
  simp only [aggregate, Aggregate.push, push]
  by_cases hshape : c.shape = cs.shape
  · simp only [dif_pos hshape]
  · simp only [dif_neg hshape]

end ShapedCriteria

namespace Aggregate

variable {shape : Shape} {cs : List ShapedCriterion} {c : ShapedCriterion}

/-- **What is kept after any pushes**: the criteria of the shape, in order. -/
theorem pushes_eq (shape : Shape) (cs : List ShapedCriterion) :
    pushes shape cs =
      ShapedCriteria.aggregate ⟨shape, cs.filterMap (ShapedCriterion.ofShape? shape)⟩ := by
  -- the same from an aggregate that already holds something
  have hfrom : ∀ (cs : List ShapedCriterion) (ms : List (Criterion.On shape.Carrier)),
      cs.foldl (fun kept c => (kept.push c).2) (ShapedCriteria.aggregate ⟨shape, ms⟩) =
        ShapedCriteria.aggregate ⟨shape, ms ++ cs.filterMap (ShapedCriterion.ofShape? shape)⟩ := by
    intro cs
    induction cs with
    | nil =>
      intro ms
      rw [List.foldl_nil, List.filterMap_nil, List.append_nil]
    | cons c rest ih =>
      intro ms
      rw [List.foldl_cons, ShapedCriteria.aggregate_push, List.filterMap_cons]
      cases hc : c.ofShape? shape with
      | some m =>
        rw [ShapedCriteria.push_of_ofShape? hc]
        have hrest := ih (ms ++ [m])
        rwa [List.append_assoc, List.singleton_append] at hrest
      | none =>
        have hshape : c.shape ≠ shape := by
          intro h
          rw [ShapedCriterion.ofShape?, dif_pos h] at hc
          cases hc
        rw [ShapedCriteria.push_eq_error_iff.2 ⟨hshape, rfl⟩]
        exact ih ms
  exact hfrom cs []

/-- **The aggregate is one of the shape**, whichever of its two shapes is asked. -/
structure IsOf (shape : Shape) (kept : Aggregate) : Prop where
  taken : ∀ c, (kept.push c).1 = .ok () ↔ c.shape = shape
  rejected : ∀ c e, (kept.push c).1 = .error e →
    e = .shapeMismatch shape.name c.shape.name ∧ (kept.push c).2 = kept
  simplified : kept.simplify.shape = shape

/-- The aggregate of criteria of one shape is one of this shape. -/
theorem isOf_aggregate (cs : ShapedCriteria) : cs.aggregate.IsOf cs.shape := by
  refine ⟨fun c => ?_, fun c e he => ?_, rfl⟩
  · rw [ShapedCriteria.aggregate_push]
    cases hpush : cs.push c with
    | ok out => exact iff_of_true rfl (ShapedCriteria.exists_push_iff.1 ⟨out, hpush⟩)
    | error e => exact iff_of_false nofun (ShapedCriteria.push_eq_error_iff.1 hpush).1
  · rw [ShapedCriteria.aggregate_push] at he ⊢
    cases hpush : cs.push c with
    | ok out =>
      rw [hpush] at he
      cases he
    | error e' =>
      rw [hpush] at he
      obtain rfl : e' = e := Except.error.inj he
      exact ⟨(ShapedCriteria.push_eq_error_iff.1 hpush).2, rfl⟩

/-- **After any pushes** the aggregate is one of the shape that it started with. -/
theorem isOf_pushes (shape : Shape) (cs : List ShapedCriterion) : (pushes shape cs).IsOf shape := by
  rw [pushes_eq]
  exact isOf_aggregate ⟨shape, cs.filterMap (ShapedCriterion.ofShape? shape)⟩

end Aggregate

end Validation
