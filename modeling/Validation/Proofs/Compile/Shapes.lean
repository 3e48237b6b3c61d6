import Mathlib
import Validation.Proofs.Builtin
import Validation.Proofs.Checks
import Validation.Proofs.Compile.Accounts
import Validation.Proofs.Compile.Aggregate

/-!
# Shapes are kept

Every criterion has the shape that it is to have wherever it is put: what a constraint becomes has the
shape of the type at its position, and what a slot collects has the shape of the type of its node. So
nothing that is pushed on the way is rejected, with one exception. What comes from another node, or from
another class, tests values. It is rejected by a node that tests scalars, and by no other.

* `error_of_process`: a constraint fails as the own check of a constraint that it expands into, and never
  because something is pushed.
* `framed_of_reaches`: the shapes of the slots, at every stage that is reached.
* `shapes_are_kept`: all of it.
-/

namespace Validation

variable {link : Linker} {n : Node} {stage stage' : Stage} {slots : List Slot} {s : Slot}
  {e : AnalysisError}

theorem DeclaredType.shape_eq_scalar_iff {type : DeclaredType} {kind : ScalarKind} :
    type.shape = .scalar kind ↔ type = .scalar kind := by
  cases type <;> simp [shape]

namespace Constraint

/-- **How a constraint fails**: as the own check of one of those that it expands into. -/
theorem error_of_process {p : Position} (c : Constraint) (h : c.process p = .error e) :
    ∃ d ∈ c.expansion, d.kind.isCombinator = false ∧ d.ownCriterion p = .error e := by
  induction c using Constraint.induction generalizing e with
  | h c ih =>
    have hown : c.kind.isCombinator = false →
        Ends (fun e => ∃ d ∈ c.expansion, d.kind.isCombinator = false ∧ d.ownCriterion p = .error e)
          (fun own => own.shape = p.type.shape) (c.ownCriterion p) := by
      intro hkind
      refine ends_iff.2 ⟨fun e he => ⟨c, mem_expansion.2 (.inl rfl), hkind, he⟩, fun own hown => ?_⟩
      obtain ⟨-, -, -, hshape⟩ := ownCriterion_eq_ok.1 hown
      exact hshape
    have hparts : ∀ part ∈ c.parts,
        Ends (fun e => ∃ d ∈ c.expansion, d.kind.isCombinator = false ∧ d.ownCriterion p = .error e)
          (fun own => own.shape = p.type.shape) (part.process p) := by
      intro part hpart
      refine ends_iff.2 ⟨fun e he => ?_, fun own => shape_of_process⟩
      obtain ⟨d, hd, hkind, herror⟩ := ih part hpart he
      exact ⟨d, mem_expansion.2 (.inr ⟨part, hpart, hd⟩), hkind, herror⟩
    exact (ends_process hown hparts).of_error h

end Constraint

/-! ### One step -/

/-- A part is added. -/
theorem ends_absorb {t : Slot} (ht : t.unit.shape = t.node.type.shape) (c : Criterion.On Value) :
    Ends (fun _ => True) t.Kept (t.absorb c) := by
  unfold Slot.absorb
  have hpush : Ends (fun _ => True) (fun out => out.shape = t.unit.shape)
      (t.unit.push (.onValues c)) :=
    ends_iff.2 ⟨fun _ _ => trivial, fun out => ShapedCriteria.shape_of_push⟩
  exact ends_bind hpush fun unit hunit => ends_pure ⟨rfl, rfl, hunit.trans ht⟩

/-- **One step** keeps the shapes. -/
theorem Framed.step {frame : Frame} (h : Framed frame stage.slots) (hstep : stage.Step link stage') :
    Framed frame stage'.slots := by
  cases hstep with
  | bucket | sweep | pass => exact h
  | @process slots slots' index c rest log hstep =>
    have hends : Ends (fun _ => True) (Framed frame) (updateAt slots index (Slot.work c)) := by
      refine ends_updateAt h fun t ht => ?_
      exact ends_work (h.shapes t (List.mem_of_getElem? ht)) fun _ _ => trivial
    exact (ends_iff.1 hends).2 slots' hstep
  | @handOn slots slots' index above rest log hands hstep =>
    obtain ⟨t, w, ht, hparent, hready⟩ := handsTo?_eq_some.1 hands
    simp only [handOnAt, ht, hparent, if_pos hready, bind_eq_ok] at hstep
    obtain ⟨_, -, part, -, hstep⟩ := hstep
    -- the slot itself starts anew, and the one above is given the part
    have hset : Framed frame (slots.set index t.handOn) := h.set ht rfl rfl rfl
    have hends : Ends (fun _ => True) (Framed frame)
        (updateAt (slots.set index t.handOn) above (·.absorb part)) := by
      refine ends_updateAt hset fun p hp => ?_
      exact ends_absorb (hset.shapes p (List.mem_of_getElem? hp)) part
    exact (ends_iff.1 hends).2 slots' hstep

/-- **At every stage** that is reached, what a slot has collected is of the shape of its node. -/
theorem framed_of_reaches (h : (Stage.start n).Reaches link stage) :
    Framed (frameOf n.slots) stage.slots := by
  induction h with
  | refl => exact framed_slots n
  | tail _ hstep ih => exact ih.step hstep

/-! ### What is pushed next -/

/-- What the next step pushes, and when it is rejected. -/
structure Stage.Pushes (link : Linker) (stage : Stage) : Prop where
  /-- What a slot has collected has the shape of the type of its node. -/
  shapes : ∀ s ∈ stage.slots, s.unit.shape = s.node.type.shape
  /-- What a constraint becomes is taken by the slot of its node. -/
  processed : ∀ index c rest, stage.agenda = .process index c :: rest →
    ∃ s, stage.slots[index]? = some s ∧ c ∈ s.node.constraints ∧
      ∀ own, c.process s.node.position = .ok own → ∃ unit, s.unit.push own = .ok unit
  /-- What a slot hands on is taken by the slot above unless the node there is of a scalar type. -/
  handedOn : ∀ index above rest, stage.agenda = .visit index :: rest →
    handsTo? stage.slots index = some above →
    ∃ s w p, stage.slots[index]? = some s ∧ s.parent = some (above, w) ∧
      stage.slots[above]? = some p ∧
      ∀ own wrapped, s.finish link = .ok own → w.wrap own = .ok wrapped →
        ∀ e, p.unit.push (.onValues wrapped) = .error e ↔
          ∃ kind, p.node.type = .scalar kind ∧ e = .shapeMismatch kind.name Shape.reference.name
  /-- And so is what a slot links to. -/
  linked : ∀ s ∈ stage.slots, ∀ name c, s.node.cascade = some name → link name = .ok c →
    ∀ e, s.unit.push (.onValues c) = .error e ↔
      ∃ kind, s.node.type = .scalar kind ∧ e = .shapeMismatch kind.name Shape.reference.name

/-- What tests values is rejected exactly by slots of scalar types. -/
theorem push_onValues_eq_error_iff (h : s.unit.shape = s.node.type.shape) (c : Criterion.On Value) :
    s.unit.push (.onValues c) = .error e ↔
      ∃ kind, s.node.type = .scalar kind ∧ e = .shapeMismatch kind.name Shape.reference.name := by
  simp only [ShapedCriteria.push_onValues_eq_error_iff, h, DeclaredType.shape_eq_scalar_iff]

theorem pushes_of_reaches (h : (Stage.start n).Reaches link stage) : stage.Pushes link := by
  have hcounted := counted_of_reaches h
  have hframed := framed_of_reaches h
  refine ⟨hframed.shapes, fun index c rest hagenda => ?_, fun index above rest _ hands => ?_,
    fun s hs name c _ _ e => push_onValues_eq_error_iff (hframed.shapes s hs) c⟩
  · obtain ⟨slots, agenda, log⟩ := stage
    obtain rfl : agenda = .process index c :: rest := hagenda
    obtain ⟨s, hs, hmem, -, -⟩ := hcounted.process_safe
    refine ⟨s, hs, hmem, fun own hown => ?_⟩
    have hshape : own.shape = s.node.type.shape := Constraint.shape_of_process hown
    have hunit : s.unit.shape = s.node.type.shape := hframed.shapes s (List.mem_of_getElem? hs)
    exact ShapedCriteria.exists_push_iff.2 (hshape.trans hunit.symm)
  · obtain ⟨s, w, p, hs, hparent, -, -, hp, -, -⟩ := hcounted.handOn_safe hands
    refine ⟨s, w, p, hs, hparent, hp, fun own wrapped _ _ e => ?_⟩
    exact push_onValues_eq_error_iff (hframed.shapes p (List.mem_of_getElem? hp)) wrapped

/-! ### All of it -/

/-- **Shapes are kept.** An aggregate that carries its shape twice takes the criteria of the shape that it
started with, whatever has been pushed to it before and was taken or rejected. It stays as it is when it
rejects one, and is simplified to a criterion of this shape. The criteria that are collected when a tree
is compiled are such aggregates. A criterion keeps its shape when it is simplified or given an enhancer.
What a constraint becomes has the shape of the type, and where it becomes nothing an own check is missing.
So at every stage of compiling a tree, what a constraint becomes is taken by the slot of its node. What
comes from another node or class is rejected exactly where the node is of a scalar type. -/
theorem shapes_are_kept :
    (∀ (shape : Shape) (cs : List ShapedCriterion), (Aggregate.pushes shape cs).IsOf shape) ∧
    (∀ shape, (ShapedCriteria.empty shape).aggregate = .empty shape) ∧
    (∀ (cs : ShapedCriteria) (c : ShapedCriterion), cs.aggregate.simplify = cs.simplify ∧
      cs.aggregate.push c = match cs.push c with
        | .ok out => (.ok (), out.aggregate)
        | .error e => (.error e, cs.aggregate)) ∧
    (∀ s : ShapedCriterion, s.simplify.shape = s.shape ∧
      ∀ enhancer, (s.enhance enhancer).shape = s.shape) ∧
    (∀ (c : Constraint) (p : Position), (∀ s, c.process p = .ok s → s.shape = p.type.shape) ∧
      ∀ e, c.process p = .error e →
        ∃ d ∈ c.expansion, d.kind.isCombinator = false ∧ d.ownCriterion p = .error e) ∧
    ∀ (link : Linker) (n : Node),
      (∀ r, compile link n = r ↔
        ∃ stage, (Stage.start n).Reaches link stage ∧ stage.Halts link r) ∧
      ∀ stage, (Stage.start n).Reaches link stage → stage.Pushes link := by
  refine ⟨Aggregate.isOf_pushes, fun shape => rfl, fun cs c => ⟨rfl, cs.aggregate_push c⟩,
    fun s => ⟨rfl, fun enhancer => rfl⟩, fun c p => ⟨fun s => Constraint.shape_of_process,
      fun e he => Constraint.error_of_process c he⟩, fun link n => ⟨fun r => compile_eq_iff, ?_⟩⟩
  exact fun stage => pushes_of_reaches

/-- That a text is not null. -/
def givenText : Constraint := .assemble Builtin.notNull .empty []

/-- An integer with a text as its part, which integers do not have. -/
def partOfInteger : Node :=
  ⟨.ofRoot "int", .scalar .int, [], none,
    [⟨.arrayElement, ⟨⟨"int", [.element]⟩, .text, [givenText], none, []⟩⟩]⟩

/-- What is kept of a criterion on values and one on integers. -/
def integersOnly : Aggregate :=
  .pushes (.scalar .int) [.truth .reference, .truth (.scalar .int)]

/-- The constraint of the text is the only one, and processed first. -/
theorem reaches_givenText : (Stage.start partOfInteger).Reaches Engine.linked
    ⟨partOfInteger.slots, [.process 1 givenText, .sweep], []⟩ := by
  have hagenda : (bucketOrders partOfInteger).map Task.bucket = [.bucket none] := by cbv
  rw [Stage.start, hagenda]
  exact .single (.bucket partOfInteger.slots none [] [])

/-- Both slots are visited then, that of the text first, which is handed on to that of the integer. -/
theorem reaches_visits : ∃ slots : List Slot, (Stage.start partOfInteger).Reaches Engine.linked
      ⟨slots, [.visit 1, .visit 0], [.processed 1 givenText]⟩ ∧
    handsTo? slots 1 = some 0 ∧ (∃ p : Slot, slots[0]? = some p ∧ p.node.type = .scalar .int) ∧
    ∃ (s : Slot) (w : Wrapper) (own : ShapedCriterion) (wrapped : Criterion.On Value),
      slots[1]? = some s ∧ s.parent = some (0, w) ∧ s.finish Engine.linked = .ok own ∧
        w.wrap own = .ok wrapped := by
  have hworked : (updateAt partOfInteger.slots 1 (Slot.work givenText)).map (fun slots : List Slot =>
      (openIndices slots, handsTo? slots 1, slots[0]?.map (·.node.type),
        slots[1]?.map fun s : Slot => s.parent.map fun parent =>
          (parent.1, (s.finish Engine.linked >>= parent.2.wrap).isOk))) =
        .ok ([0, 1], some 0, some (.scalar .int), some (some (0, true))) := by cbv
  obtain ⟨slots, hslots, hworked⟩ := map_eq_ok.1 hworked
  simp only [Prod.mk.injEq, Option.map_eq_some_iff] at hworked
  obtain ⟨hopen, hands, ⟨p, hp, htype⟩, s, hs, ⟨above, w⟩, hparent, rfl, hwrapped⟩ := hworked
  obtain ⟨wrapped, hwrapped⟩ := exists_of_isOk hwrapped
  obtain ⟨own, hown, hwrapped⟩ := bind_eq_ok.1 hwrapped
  -- both slots are open, and the sweep visits the last one first
  have hsweep : Stage.Step Engine.linked ⟨slots, [.sweep], [.processed 1 givenText]⟩
      ⟨slots, (openIndices slots).reverse.map .visit ++ [], [.processed 1 givenText]⟩ :=
    .sweep slots [] _
  rw [hopen] at hsweep
  have hreaches := (reaches_givenText.tail (.process _ [] hslots)).tail hsweep
  exact ⟨slots, hreaches, hands, ⟨p, hp, htype⟩, s, w, own, wrapped, hs, hparent, hown, hwrapped⟩

/-- A criterion on values is rejected among those on integers, also after another one. When the tree is
compiled, the slot of the text takes what its constraint becomes, and hands it on to that of the integer,
which rejects it. -/
theorem integers_take_no_texts :
    (integersOnly.push (.truth .reference)).2 = integersOnly ∧
    (∃ (stage : Stage) (s : Slot) (own : ShapedCriterion) (unit : ShapedCriteria),
      (Stage.start partOfInteger).Reaches Engine.linked stage ∧
      stage.slots[1]? = some s ∧ givenText.process s.node.position = .ok own ∧
      s.unit.push own = .ok unit) ∧
    ∃ (stage : Stage) (s : Slot) (w : Wrapper) (p : Slot) (own : ShapedCriterion)
      (wrapped : Criterion.On Value),
      (Stage.start partOfInteger).Reaches Engine.linked stage ∧
      stage.slots[1]? = some s ∧ s.parent = some (0, w) ∧ stage.slots[0]? = some p ∧
      s.finish Engine.linked = .ok own ∧ w.wrap own = .ok wrapped ∧
      p.unit.push (.onValues wrapped) = .error (.shapeMismatch "int" "reference") := by
  obtain ⟨haggregates, -, -, -, -, hcompile⟩ := shapes_are_kept
  obtain ⟨-, hpushes⟩ := hcompile Engine.linked partOfInteger
  refine ⟨((haggregates _ _).rejected (.truth .reference) _ rfl).2, ?_, ?_⟩
  · obtain ⟨s, hs, -, htaken⟩ := (hpushes _ reaches_givenText).processed 1 givenText _ rfl
    obtain ⟨own, hown⟩ : ∃ own, givenText.process s.node.position = .ok own := by
      obtain rfl := Option.some.inj hs
      exact exists_of_isOk (by cbv)
    obtain ⟨unit, hunit⟩ := htaken own hown
    exact ⟨_, s, own, unit, reaches_givenText, hs, hown, hunit⟩
  · obtain ⟨slots, hreaches, hands, ⟨p, hp, htype⟩, s, w, own, wrapped, hs, hparent, hown, hwrapped⟩ :=
      reaches_visits
    obtain ⟨s', w', p', hs', hparent', hp', hrejected⟩ :=
      (hpushes _ hreaches).handedOn 1 0 _ rfl hands
    -- the slots are those of the text and of the integer
    obtain rfl := Option.some.inj (hs.symm.trans hs')
    obtain rfl := Option.some.inj (hp.symm.trans hp')
    obtain ⟨-, rfl⟩ := Prod.mk.inj (Option.some.inj (hparent.symm.trans hparent'))
    exact ⟨_, s, w, p, own, wrapped, hreaches, hs, hparent, hp, hown, hwrapped,
      (hrejected own wrapped hown hwrapped _).2 ⟨.int, htype, rfl⟩⟩

end Validation
