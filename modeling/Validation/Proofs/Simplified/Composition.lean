import Validation.Proofs.Checks
import Validation.Proofs.Simplified.Normal

/-!
# Composing criteria and simplifying

What a criterion is simplified to is told by its members, and members compose like lists. So both of
two criteria are one after the other whatever the brackets, truth adds nothing, and it does not matter
where in a criterion something has been simplified before. A compiler may simplify what it has
collected for constraints and nodes at any time, or not until a node is finished.

* `and_assoc`, `truth_and`, `and_truth`: the laws of both.
* `simplify_fill`: simplification is a congruence, at any depth.
* `Tidying`: what is done to what has been collected, when.
* `compileTidying`: compiling with a tidying.
* `compileTidying_eq`: it comes to the same with all of them.
* `simplification_is_a_congruence`: all of this.
-/

namespace Validation

namespace Criterion

variable {κ ε : Type} {a b c : Criterion κ ε}

/-! ### Members -/

theorem membersOf_append (cs ds : List (Criterion κ ε)) :
    membersOf (cs ++ ds) = membersOf cs ++ membersOf ds := by
  induction cs with
  | nil => rfl
  | cons c cs ih => rw [List.cons_append, membersOf, membersOf, ih, List.append_assoc]

/-- **The members tell what is left**, and nothing else does. -/
theorem simplify_eq_iff : a.simplify = b.simplify ↔ a.members = b.members := by
  constructor
  · intro h
    rw [← members_simplify a, h, members_simplify]
  · intro h
    rw [simplify, simplify, h]

theorem members_and (a b : Criterion κ ε) : (a.and b).members = a.members ++ b.members := by
  rw [Criterion.and, members_simplify, members, membersOf, membersOf, membersOf, List.append_nil]

/-! ### Both of two criteria -/

/-- Both of two criteria are simplified already. -/
theorem simplify_and (a b : Criterion κ ε) : (a.and b).simplify = a.and b :=
  simplify_simplify _

/-- **Both of two criteria** are what has the members of either. -/
theorem and_eq_iff : a.and b = c.simplify ↔ a.members ++ b.members = c.members := by
  rw [← simplify_and, simplify_eq_iff, members_and]

theorem and_assoc (a b c : Criterion κ ε) : (a.and b).and c = a.and (b.and c) := by
  rw [← simplify_and a (b.and c), and_eq_iff]
  simp only [members_and, List.append_assoc]

theorem truth_and (a : Criterion κ ε) : truth.and a = a.simplify := and_eq_iff.2 rfl

theorem and_truth (a : Criterion κ ε) : a.and truth = a.simplify :=
  and_eq_iff.2 (List.append_nil _)

/-! ### Simplifying a part -/

/-- A criterion with a gap in it: in an aggregate or inside an enhancer, at any depth. -/
inductive Context (κ ε : Type) where
  | gap
  | all (before : List (Criterion κ ε)) (member : Context κ ε) (after : List (Criterion κ ε))
  | enhanced (inner : Context κ ε) (enhancer : ε)

/-- The criterion with the gap filled. -/
def Context.fill : Context κ ε → Criterion κ ε → Criterion κ ε
  | gap, c => c
  | all before member after, c => .all (before ++ member.fill c :: after)
  | enhanced inner enhancer, c => .enhanced (inner.fill c) enhancer

theorem members_fill (k : Context κ ε) (h : a.members = b.members) :
    (k.fill a).members = (k.fill b).members := by
  induction k with
  | gap => exact h
  | all before member after ih =>
    simp only [Context.fill, members, membersOf_append, membersOf, ih]
  | enhanced inner enhancer ih => simp only [Context.fill, members, ih]

/-- **Simplification is a congruence**: where two criteria are simplified to the same, so are all
criteria around them. -/
theorem simplify_fill (k : Context κ ε) (h : a.simplify = b.simplify) :
    (k.fill a).simplify = (k.fill b).simplify :=
  simplify_eq_iff.2 (members_fill k (simplify_eq_iff.1 h))

theorem simplify_all_singleton (c : Criterion κ ε) : (all [c]).simplify = c.simplify :=
  simplify_eq_iff.2 (List.append_nil _)

/-- An enhancer is the same around what is simplified to the same. -/
theorem simplify_enhance (h : a.simplify = b.simplify) (e : ε) :
    (a.enhance e).simplify = (b.enhance e).simplify := by
  have hmembers : ∀ c : Criterion κ ε, (c.enhance e).members = (enhanced c e).members :=
    fun c => by cases c <;> rfl
  rw [simplify_eq_iff, hmembers, hmembers, ← simplify_eq_iff]
  exact simplify_fill (.enhanced .gap e) h

end Criterion

/-! ### Simplifying while compiling -/

/-- The criteria as a single one, as they are written. -/
def ShapedCriteria.whole (cs : ShapedCriteria) : ShapedCriterion := ⟨cs.shape, .all cs.members⟩

/-- The criteria as a single one, simplified. -/
def ShapedCriteria.collapsed (cs : ShapedCriteria) : ShapedCriteria :=
  ⟨cs.shape, [cs.simplify.criterion]⟩

/-- The slot with what it has collected simplified. -/
def Slot.collapsed (s : Slot) : Slot := { s with unit := s.unit.collapsed }

/-- Slots that are alike, one by one, once collapsed. -/
def Collapse (slots slots' : List Slot) : Prop :=
  slots.map Slot.collapsed = slots'.map Slot.collapsed

/-- **What is done to what has been collected**: to the criterion of a constraint, in place of
simplifying it, and to the slots after every step. It has to vanish once all is simplified. -/
structure Tidying where
  criterion : ShapedCriterion → ShapedCriterion
  slots : List Slot → List Slot
  simplify_criterion : ∀ s, (criterion s).simplify = s.simplify
  collapse_slots : ∀ ss, Collapse (slots ss) ss

namespace Constraint

/-- The criteria of a sequence, as they are collected. -/
def collect (shape : Shape) (ds : List Deferred) : Except AnalysisError ShapedCriteria :=
  ds.foldlM (fun unit d => do unit.push (← d ())) (.empty shape)

mutual

/-- The criterion of a constraint at a position, with a tidying. -/
def processTidying (t : Tidying) (p : Position) : Constraint → Except AnalysisError ShapedCriterion
  | ⟨kind, attributes, order, message, parts⟩ => do
    let c : Constraint := ⟨kind, attributes, order, message, parts⟩
    let own := if kind.isCombinator then [] else [fun _ => c.ownCriterion p]
    let unit ← collect p.type.shape (sequence order own (deferAllTidying t p parts))
    return c.decorated (t.criterion unit.whole)

/-- The criteria of the parts at a position, with their places in the order of checks. -/
def deferAllTidying (t : Tidying) (p : Position) : List Constraint → List (Order × Deferred)
  | [] => []
  | c :: rest => (c.order, fun _ => processTidying t p c) :: deferAllTidying t p rest

end

end Constraint

/-- The slot with a constraint done. -/
def Slot.workTidying (t : Tidying) (c : Constraint) (s : Slot) : Except AnalysisError Slot := do
  let unit ← s.unit.push (← c.processTidying t s.node.position)
  return { s with unit, pendingItems := s.pendingItems - 1 }

/-- A bucket with a tidying. -/
def bucketTidying (t : Tidying) (link : Linker) (slots : List Slot) (order : Order) :
    Except AnalysisError (List Slot) := do
  let worked ← (itemsOf slots order).foldlM
    (fun slots (index, c) => return t.slots (← updateAt slots index (Slot.workTidying t c))) slots
  (openIndices worked).reverse.foldlM
    (fun slots index => return t.slots (← handOnAt link slots index)) worked

/-- The criterion of a tree, compiled with a tidying. -/
def compileTidying (t : Tidying) (link : Linker) (n : Node) :
    Except AnalysisError (Criterion.On Value) := do
  let slots ← (bucketOrders n).foldlM (bucketTidying t link) n.slots
  match slots with
  | [] => return .truth
  | root :: _ => return (← root.finish link).lift

namespace ShapedCriterion

variable {s t : ShapedCriterion}

/-- Criteria are simplified to the same when they have one shape and the same members. -/
theorem simplify_eq_iff {shape : Shape} {a b : Criterion.On shape.Carrier} :
    (⟨shape, a⟩ : ShapedCriterion).simplify = (⟨shape, b⟩ : ShapedCriterion).simplify ↔
      a.members = b.members := by
  simp only [simplify, ShapedCriterion.mk.injEq, heq_eq_eq, true_and, Criterion.simplify_eq_iff]

theorem simplify_simplify (s : ShapedCriterion) : s.simplify.simplify = s.simplify :=
  simplify_eq_iff.2 (Criterion.members_simplify s.criterion)

theorem simplify_enhance (h : s.simplify = t.simplify) (e : Enhancer) :
    (s.enhance e).simplify = (t.enhance e).simplify := by
  obtain ⟨shape, a⟩ := s
  obtain ⟨shape', b⟩ := t
  obtain rfl : shape = shape' := congrArg ShapedCriterion.shape h
  have hab : a.simplify = b.simplify := Criterion.simplify_eq_iff.2 (simplify_eq_iff.1 h)
  exact simplify_eq_iff.2 (Criterion.simplify_eq_iff.1 (Criterion.simplify_enhance hab e))

end ShapedCriterion

namespace ShapedCriteria

variable {cs ds : ShapedCriteria}

theorem collapsed_eq_iff : cs.collapsed = ds.collapsed ↔ cs.simplify = ds.simplify := by
  obtain ⟨shape, ms⟩ := cs
  obtain ⟨shape', ns⟩ := ds
  simp only [collapsed, simplify, ShapedCriteria.mk.injEq, ShapedCriterion.mk.injEq]
  refine and_congr_right ?_
  rintro rfl
  simp

theorem collapsed_collapsed (cs : ShapedCriteria) : cs.collapsed.collapsed = cs.collapsed := by
  have hsingle : (Criterion.all [(Criterion.all cs.members).simplify]).simplify =
      (Criterion.all cs.members).simplify := by
    rw [Criterion.simplify_all_singleton, Criterion.simplify_simplify]
  exact collapsed_eq_iff.2 (ShapedCriterion.simplify_eq_iff.2 (Criterion.simplify_eq_iff.1 hsingle))

/-- Collecting one more criterion, it does not matter what has been simplified before. -/
theorem agree_push {s t : ShapedCriterion} (h : cs.collapsed = ds.collapsed)
    (hst : s.simplify = t.simplify) :
    Agree (fun out out' => out.collapsed = out'.collapsed) (cs.push s) (ds.push t) := by
  obtain ⟨shape, ms⟩ := cs
  obtain ⟨shape', ns⟩ := ds
  obtain ⟨pushed, a⟩ := s
  obtain ⟨pushed', b⟩ := t
  obtain rfl : shape = shape' := congrArg ShapedCriteria.shape h
  obtain rfl : pushed = pushed' := congrArg ShapedCriterion.shape hst
  have hms : Criterion.membersOf ms = Criterion.membersOf ns :=
    (ShapedCriterion.simplify_eq_iff (a := .all ms) (b := .all ns)).1 (collapsed_eq_iff.1 h)
  have hab : a.members = b.members := ShapedCriterion.simplify_eq_iff.1 hst
  unfold push
  by_cases hshape : pushed = shape
  · subst hshape
    rw [dif_pos rfl, dif_pos rfl]
    refine collapsed_eq_iff.2 (ShapedCriterion.simplify_eq_iff.2 ?_)
    simp only [Criterion.members, Criterion.membersOf_append, Criterion.membersOf, hms, hab]
  · rw [dif_neg hshape, dif_neg hshape]
    exact rfl

end ShapedCriteria

namespace Constraint

variable {p : Position}

theorem deferAllTidying_eq (t : Tidying) (p : Position) (parts : List Constraint) :
    deferAllTidying t p parts = parts.map fun c => (c.order, fun _ => c.processTidying t p) := by
  induction parts with
  | nil => rw [deferAllTidying, List.map_nil]
  | cons c rest ih => rw [deferAllTidying, ih, List.map_cons]

theorem simplify_decorated (c : Constraint) {s t : ShapedCriterion} (h : s.simplify = t.simplify) :
    (c.decorated s).simplify = (c.decorated t).simplify := by
  unfold decorated
  cases c.message with
  | none => exact h
  | some text => exact ShapedCriterion.simplify_enhance h _

/-- Two deferred criteria fail with one error, or are simplified to the same. -/
def Alike (d d' : Deferred) : Prop :=
  Agree (fun s s' => s.simplify = s'.simplify) (d ()) (d' ())

/-- What is collected is simplified to what a sequence is combined to. -/
theorem agree_combine {shape : Shape} {ds ds' : List Deferred} (h : List.Forall₂ Alike ds ds') :
    Agree (fun unit s => unit.simplify = s) (collect shape ds) (combine shape ds') := by
  have hcollect : Agree (fun cs cs' : ShapedCriteria => cs.collapsed = cs'.collapsed)
      (collect shape ds) (collect shape ds') := by
    refine agree_foldlM_of_forall₂ h (fun d d' hd cs cs' hcs => ?_) rfl
    exact agree_bind hd fun s s' hs => ShapedCriteria.agree_push hcs hs
  rw [← bind_pure (collect shape ds)]
  exact agree_bind hcollect fun cs cs' hcs => ShapedCriteria.collapsed_eq_iff.1 hcs

/-- **A constraint becomes the same criterion** up to what is simplified when. -/
theorem agree_process (t : Tidying) (c : Constraint) :
    Agree (fun s s' => s.simplify = s'.simplify) (c.processTidying t p) (c.process p) := by
  induction c using induction with
  | _ c ih =>
    -- the own check is the same, and the parts are alike by the induction
    let own : List Deferred := if c.kind.isCombinator then [] else [fun _ => c.ownCriterion p]
    have hparts : ∀ parts : List Constraint, (∀ part ∈ parts, part ∈ c.parts) →
        List.Forall₂ Alike (parts.map fun d => fun _ => d.processTidying t p)
          (parts.map fun d => fun _ => d.process p) := by
      intro parts hparts
      rw [List.forall₂_map_left_iff, List.forall₂_map_right_iff, List.forall₂_same]
      exact fun d hd => ih d (hparts d hd)
    have hown : List.Forall₂ Alike own own :=
      List.forall₂_same.2 fun d _ => agree_refl fun _ => rfl
    have hruns : List.Forall₂ Alike (sequence c.order own (deferAllTidying t p c.parts))
        (sequence c.order own (deferAll p c.parts)) := by
      rw [deferAllTidying_eq, deferAll_eq, sequence_parts, sequence_parts]
      exact List.rel_append
        (List.rel_append (hparts _ fun d hd => mem_parts_iff.2 (.inl hd)) hown)
        (hparts _ fun d hd => mem_parts_iff.2 (.inr hd))
    obtain ⟨kind, attributes, order, message, parts⟩ := c
    rw [processTidying, process]
    refine agree_bind (agree_combine hruns) fun unit s hunit => ?_
    have hcriterion : (t.criterion unit.whole).simplify = s.simplify := by
      rw [t.simplify_criterion, ← hunit]
      exact (ShapedCriterion.simplify_simplify unit.whole).symm
    have hdecorated := simplify_decorated ⟨kind, attributes, order, message, parts⟩ hcriterion
    cases message <;> exact hdecorated

end Constraint

namespace Slot

variable {s t : Slot} {link : Linker}

/-- Slots that are alike once collapsed differ in what they have collected only. -/
theorem collapsed_eq_iff :
    s.collapsed = t.collapsed ↔ s.unit.collapsed = t.unit.collapsed ∧ s.node = t.node ∧
      s.parent = t.parent ∧ s.pendingItems = t.pendingItems ∧
      s.pendingChildren = t.pendingChildren ∧ s.absorbed = t.absorbed := by
  cases s
  cases t
  simp only [collapsed, Slot.mk.injEq]
  tauto

theorem collapsed_collapsed (s : Slot) : s.collapsed.collapsed = s.collapsed :=
  collapsed_eq_iff.2 ⟨s.unit.collapsed_collapsed, rfl, rfl, rfl, rfl, rfl⟩

theorem agree_work (tidying : Tidying) (h : s.collapsed = t.collapsed) (c : Constraint) :
    Agree (fun s t => s.collapsed = t.collapsed) (s.workTidying tidying c) (t.work c) := by
  obtain ⟨hunit, hnode, hparent, hitems, hchildren, habsorbed⟩ := collapsed_eq_iff.1 h
  have hprocess : Agree (fun s s' => s.simplify = s'.simplify)
      (c.processTidying tidying s.node.position) (c.process t.node.position) := by
    rw [hnode]
    exact Constraint.agree_process tidying c
  unfold workTidying work
  refine agree_bind hprocess fun own own' hown => ?_
  refine agree_bind (ShapedCriteria.agree_push hunit hown) fun unit unit' hunit => ?_
  exact collapsed_eq_iff.2
    ⟨hunit, hnode, hparent, congrArg (· - 1) hitems, hchildren, habsorbed⟩

theorem agree_absorb (h : s.collapsed = t.collapsed) (c : Criterion.On Value) :
    Agree (fun s t => s.collapsed = t.collapsed) (s.absorb c) (t.absorb c) := by
  obtain ⟨hunit, hnode, hparent, hitems, hchildren, habsorbed⟩ := collapsed_eq_iff.1 h
  unfold absorb
  refine agree_bind (ShapedCriteria.agree_push hunit rfl) fun unit unit' hunit => ?_
  exact collapsed_eq_iff.2
    ⟨hunit, hnode, hparent, hitems, congrArg (· - 1) hchildren, habsorbed⟩

/-- **A node is finished with the same criterion**, whatever has been simplified before. -/
theorem finish_eq (h : s.collapsed = t.collapsed) : s.finish link = t.finish link := by
  obtain ⟨hunit, hnode, -⟩ := collapsed_eq_iff.1 h
  unfold finish
  rw [hnode]
  cases t.node.cascade with
  | none => exact congrArg Except.ok (ShapedCriteria.collapsed_eq_iff.1 hunit)
  | some name =>
    refine Agree.eq (agree_bind (agree_refl (R := Eq) fun _ => rfl) ?_)
    rintro c _ rfl
    refine agree_bind (ShapedCriteria.agree_push hunit rfl) fun unit unit' hunit => ?_
    exact ShapedCriteria.collapsed_eq_iff.1 hunit

theorem handOn_collapsed (h : s.collapsed = t.collapsed) :
    s.handOn.collapsed = t.handOn.collapsed := by
  obtain ⟨-, hnode, hparent, hitems, hchildren, -⟩ := collapsed_eq_iff.1 h
  refine collapsed_eq_iff.2 ⟨?_, hnode, hparent, hitems, hchildren, rfl⟩
  rw [handOn, handOn, hnode]

end Slot

section Slots

variable {link : Linker} {slots slots' : List Slot}

theorem Collapse.getElem? (h : Collapse slots slots') (index : Nat) :
    slots[index]?.map Slot.collapsed = slots'[index]?.map Slot.collapsed := by
  rw [← List.getElem?_map, ← List.getElem?_map]
  exact congrArg (·[index]?) h

theorem Collapse.set (h : Collapse slots slots') (index : Nat) {s t : Slot}
    (hst : s.collapsed = t.collapsed) : Collapse (slots.set index s) (slots'.set index t) := by
  rw [Collapse, List.map_set, List.map_set, h, hst]

theorem agree_updateAt (h : Collapse slots slots') (index : Nat)
    {f f' : Slot → Except AnalysisError Slot}
    (hf : ∀ s t : Slot, s.collapsed = t.collapsed →
      Agree (fun s t => s.collapsed = t.collapsed) (f s) (f' t)) :
    Agree Collapse (updateAt slots index f) (updateAt slots' index f') := by
  have hindex := h.getElem? index
  unfold updateAt
  cases hs : slots[index]? <;> cases ht : slots'[index]? <;> simp only [hs, ht] at hindex ⊢
  case none.none => exact h
  case none.some => cases hindex
  case some.none => cases hindex
  case some.some s t =>
    refine agree_bind (hf s t (Option.some.inj hindex)) fun s' t' hst => ?_
    exact h.set index hst

theorem agree_handOnAt (h : Collapse slots slots') (index : Nat) :
    Agree Collapse (handOnAt link slots index) (handOnAt link slots' index) := by
  have hindex := h.getElem? index
  unfold handOnAt
  cases hs : slots[index]? <;> cases ht : slots'[index]? <;> simp only [hs, ht] at hindex ⊢
  case none.none => exact h
  case none.some => cases hindex
  case some.none => cases hindex
  case some.some s t =>
    have hst : s.collapsed = t.collapsed := Option.some.inj hindex
    obtain ⟨-, -, hparent, hitems, hchildren, habsorbed⟩ := Slot.collapsed_eq_iff.1 hst
    -- the counters agree, so both slots are handed on or neither
    have hready : s.isReady = t.isReady := by
      rw [Slot.isReady, Slot.isReady, hitems, hchildren, habsorbed]
    rw [hparent, hready, Slot.finish_eq hst]
    cases t.parent with
    | none => exact h
    | some above =>
      simp only
      split_ifs
      · refine agree_bind (agree_refl (R := Eq) fun _ => rfl) ?_
        rintro c _ rfl
        refine agree_bind (agree_refl (R := Eq) fun _ => rfl) ?_
        rintro wrapped _ rfl
        exact agree_updateAt (h.set index (Slot.handOn_collapsed hst)) _ fun s t hst =>
          Slot.agree_absorb hst wrapped
      · exact h

/-- What is left to do in a bucket is told by the nodes. -/
theorem itemsOf_collapsed (slots : List Slot) (o : Order) :
    itemsOf (slots.map Slot.collapsed) o = itemsOf slots o := by
  rw [itemsOf, itemsOf, List.zipIdx_map, List.flatMap_map]
  rfl

/-- What is left to hand on is told by the counters. -/
theorem openIndices_collapsed (slots : List Slot) :
    openIndices (slots.map Slot.collapsed) = openIndices slots := by
  rw [openIndices, openIndices, List.zipIdx_map, List.filterMap_map]
  rfl

end Slots

section Tidying

variable (t : Tidying) {link : Linker}

/-- **A bucket comes to the same** up to what is simplified when. -/
theorem agree_bucketTidying {slots slots' : List Slot} (h : Collapse slots slots') (o : Order) :
    Agree Collapse (bucketTidying t link slots o) (bucket link slots' o) := by
  have hitems : itemsOf slots o = itemsOf slots' o := by
    rw [← itemsOf_collapsed, h, itemsOf_collapsed]
  unfold bucketTidying bucket
  rw [hitems]
  refine agree_bind (agree_foldlM ?_ h) fun worked worked' hworked => ?_
  · rintro ⟨index, c⟩ slots slots' h
    have hstep := agree_updateAt h index fun s s' hs => Slot.agree_work t hs c
    refine agree_bind_left hstep fun out out' hout => ?_
    exact (t.collapse_slots out).trans hout
  · have hopen : openIndices worked = openIndices worked' := by
      rw [← openIndices_collapsed, hworked, openIndices_collapsed]
    rw [sweep, hopen]
    refine agree_foldlM (fun index slots slots' h => ?_) hworked
    refine agree_bind_left (agree_handOnAt h index) fun out out' hout => ?_
    exact (t.collapse_slots out).trans hout

/-- **A tree has the same criterion**, or the same error, with every tidying. -/
theorem compileTidying_eq (n : Node) : compileTidying t link n = compile link n := by
  have hbuckets : Agree Collapse ((bucketOrders n).foldlM (bucketTidying t link) n.slots)
      ((bucketOrders n).foldlM (bucket link) n.slots) :=
    agree_foldlM (fun o slots slots' h => agree_bucketTidying t h o) rfl
  refine Agree.eq (agree_bind hbuckets fun slots slots' h => ?_)
  cases slots <;> cases slots'
  case nil.nil => exact rfl
  case nil.cons => cases h
  case cons.nil => cases h
  case cons.cons root rest root' rest' =>
    have hroot : root.collapsed = root'.collapsed := (List.cons.inj h).1
    simp only [Slot.finish_eq hroot]
    exact agree_refl fun _ => rfl

end Tidying

/-- Nothing is simplified until a node is finished. -/
def Tidying.late : Tidying where
  criterion := id
  slots := id
  simplify_criterion _ := rfl
  collapse_slots _ := rfl

/-- Everything is simplified at once and again after every step. -/
def Tidying.eager : Tidying where
  criterion := ShapedCriterion.simplify
  slots := List.map Slot.collapsed
  simplify_criterion := ShapedCriterion.simplify_simplify
  collapse_slots ss := by
    rw [Collapse, List.map_map]
    exact List.map_congr_left fun s _ => s.collapsed_collapsed

/-- **Simplification is a congruence.** Both of three criteria are the same in either bracketing, and
with truth a criterion is just simplified. In a criterion that is simplified, a member of an aggregate
or the inside of an enhancer, at any depth, may have been simplified before. And a tree is compiled
into the same criterion, or fails with the same error, with every tidying of what has been collected
for constraints and nodes. -/
theorem simplification_is_a_congruence :
    (∀ (κ ε : Type) (a b c : Criterion κ ε), (a.and b).and c = a.and (b.and c)) ∧
    (∀ (κ ε : Type) (a : Criterion κ ε),
      Criterion.truth.and a = a.simplify ∧ a.and .truth = a.simplify) ∧
    (∀ (κ ε : Type) (k : Criterion.Context κ ε) (c : Criterion κ ε),
      (k.fill c.simplify).simplify = (k.fill c).simplify) ∧
    ∀ (t : Tidying) link n, compileTidying t link n = compile link n := by
  refine ⟨fun _ _ => Criterion.and_assoc, fun _ _ a => ?_, fun _ _ k c => ?_, fun t _ n => ?_⟩
  · exact ⟨Criterion.truth_and a, Criterion.and_truth a⟩
  · exact Criterion.simplify_fill k (Criterion.simplify_simplify c)
  · exact compileTidying_eq t n

namespace Flags

/-- A context two levels deep, with a truth beside the gap. -/
def around : Criterion.Context Nat Nat :=
  .all [.truth] (.enhanced (.all [] .gap [.leaf 3]) 9) [.leaf 4]

/-- An object with a flag is compiled into the same criterion if nothing is simplified until its nodes
are finished, and if everything is after every step. -/
theorem tidyings_of_a_flag :
    (Criterion.truth.and bracketed).and (.leaf 5) = Criterion.truth.and (bracketed.and (.leaf 5)) ∧
    bracketed.and .truth = .all [.enhanced (.leaf 1) 8, .leaf 2] ∧
    (around.fill bracketed.simplify).simplify = (around.fill bracketed).simplify ∧
    ∃ c, compile link flagged = .ok c ∧ compileTidying .late link flagged = .ok c ∧
      compileTidying .eager link flagged = .ok c := by
  obtain ⟨hassoc, htruth, hcongr, htidying⟩ := simplification_is_a_congruence
  obtain ⟨c, hc⟩ : ∃ c, compile link flagged = .ok c := exists_of_isOk (by cbv)
  refine ⟨hassoc _ _ _ _ _, (htruth _ _ _).2, hcongr _ _ _ _, c, hc, ?_, ?_⟩
  · rw [htidying, hc]
  · rw [htidying, hc]

end Flags

end Validation
