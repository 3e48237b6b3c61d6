import Validation.Proofs.Compile.Refinement
import Validation.Proofs.Lookup
import Validation.Proofs.Process

/-!
# How compiling a tree fails

Compiling a tree makes the criteria of its constraints, links its cascades and puts all of it together.
Only the first two fail by themselves. Putting together fails when shapes do not fit, and that can be
seen from the tree: what is above another node has to be tested as a reference, and the wrapper of a
part has to support the shape of the part.

* `Node.Fits`: what has to be right at one node.
* `Frame.Fits`: the same of the slots of a tree, each of which refers to the one above it.
* `error_of_compile`: the errors of a tree whose nodes fit are those of its constraints and cascades.
-/

namespace Validation

/-- At the node everything fits: its constraints and its cascade fail in no other way than `bad`, and
what is collected from below or from a cascade is tested as a reference. -/
structure Node.Fits (bad : AnalysisError → Prop) (link : Linker) (n : Node) : Prop where
  constraints : ∀ c ∈ n.constraints, ∀ e, c.process n.position = .error e → bad e
  cascade : ∀ name, n.cascade = some name →
    n.type.shape = .reference ∧ ∀ e, link name = .error e → bad e
  children : ∀ k ∈ n.children,
    n.type.shape = .reference ∧ k.wrapper.supports k.node.type.shape = true

/-- What stays of the slots of a tree: the node of each, and where its part lies. -/
abbrev Frame := List (Node × Option (Nat × Wrapper))

/-- The frame of slots. -/
def frameOf (slots : List Slot) : Frame := slots.map fun s => (s.node, s.parent)

variable {bad : AnalysisError → Prop} {link : Linker} {frame : Frame}

/-- The node above a part is there and is tested as a reference, and the wrapper supports the part. -/
def Frame.Joins (frame : Frame) (n : Node) (parent : Option (Nat × Wrapper)) : Prop :=
  ∀ above w, parent = some (above, w) → w.supports n.type.shape = true ∧
    ∃ m parent', frame[above]? = some (m, parent') ∧ m.type.shape = .reference

/-- All nodes of a frame fit, and lie in others that are tested as references. -/
def Frame.Fits (bad : AnalysisError → Prop) (link : Linker) (frame : Frame) : Prop :=
  ∀ n parent, (n, parent) ∈ frame → n.Fits bad link ∧ frame.Joins n parent

theorem Frame.Joins.append {n : Node} {parent : Option (Nat × Wrapper)}
    (h : frame.Joins n parent) (rest : Frame) : Frame.Joins (frame ++ rest) n parent := by
  intro above w hparent
  obtain ⟨hsupports, m, parent', hm, hshape⟩ := h above w hparent
  exact ⟨hsupports, m, parent', getElem?_of_prefix (List.prefix_append frame rest) hm, hshape⟩

theorem Frame.Fits.append {frame' : Frame} (h : frame.Fits bad link)
    (h' : ∀ n parent, (n, parent) ∈ frame' →
      n.Fits bad link ∧ Frame.Joins (frame ++ frame') n parent) :
    Frame.Fits bad link (frame ++ frame') := by
  intro n parent hmem
  rcases List.mem_append.1 hmem with hmem | hmem
  · obtain ⟨hfits, hjoins⟩ := h n parent hmem
    exact ⟨hfits, hjoins.append frame'⟩
  · exact h' n parent hmem

theorem frameOf_append (slots slots' : List Slot) :
    frameOf (slots ++ slots') = frameOf slots ++ frameOf slots' := List.map_append

mutual

/-- The slots of a tree that comes below other slots fit as these do. -/
theorem fits_slotsFrom : ∀ (n : Node) (pre : List Slot) (parent : Option (Nat × Wrapper)),
    (∀ m ∈ n.nodes, m.Fits bad link) → Frame.Fits bad link (frameOf pre) →
    (frameOf pre).Joins n parent →
    Frame.Fits bad link (frameOf (pre ++ n.slotsFrom parent pre.length))
  | ⟨location, type, constraints, cascade, children⟩, pre, parent, hn, hpre, hjoins => by
    set n : Node := ⟨location, type, constraints, cascade, children⟩ with hdef
    have hself : n.Fits bad link := hn n (Node.mem_nodes_self n)
    -- the slot of the node comes first, and those of the children are below it
    have hone : Frame.Fits bad link (frameOf (pre ++ [n.slot parent])) := by
      rw [frameOf_append]
      refine hpre.append fun m parent' hmem => ?_
      obtain ⟨rfl, rfl⟩ := Prod.mk.inj (List.mem_singleton.1 hmem)
      exact ⟨hself, hjoins.append _⟩
    have habove : (frameOf (pre ++ [n.slot parent]))[pre.length]? = some (n, parent) := by
      simp [frameOf, Node.slot]
    have hall := fits_slotsOf children (pre ++ [n.slot parent]) pre.length
      (fun k hk m hm => hn m (Node.mem_nodes.2 (.inr ⟨k, hk, hm⟩))) hone fun k hk => by
        intro above w hparent
        obtain ⟨rfl, rfl⟩ := Prod.mk.inj (Option.some.inj hparent)
        obtain ⟨hshape, hsupports⟩ := hself.children k hk
        exact ⟨hsupports, n, parent, habove, hshape⟩
    rw [Node.slotsFrom_eq, List.append_cons]
    rwa [List.length_append, List.length_singleton] at hall

theorem fits_slotsOf : ∀ (children : List (Child Node)) (pre : List Slot) (above : Nat),
    (∀ k ∈ children, ∀ m ∈ k.node.nodes, m.Fits bad link) → Frame.Fits bad link (frameOf pre) →
    (∀ k ∈ children, (frameOf pre).Joins k.node (some (above, k.wrapper))) →
    Frame.Fits bad link (frameOf (pre ++ Node.slotsOf above pre.length children))
  | [], pre, above, _, hpre, _ => by
    rw [Node.slotsOf, List.append_nil]
    exact hpre
  | ⟨w, n⟩ :: rest, pre, above, hn, hpre, hjoins => by
    have hfirst := fits_slotsFrom n pre (some (above, w)) (hn _ List.mem_cons_self) hpre
      (hjoins _ List.mem_cons_self)
    have hrest := fits_slotsOf rest (pre ++ n.slotsFrom (some (above, w)) pre.length) above
      (fun k hk => hn k (List.mem_cons_of_mem _ hk)) hfirst fun k hk => by
        rw [frameOf_append]
        exact (hjoins k (List.mem_cons_of_mem _ hk)).append _
    rw [List.length_append, Node.length_slotsFrom, List.append_assoc] at hrest
    rwa [Node.slotsOf]

end

/-- The slots of a tree whose nodes fit. -/
theorem fits_slots {n : Node} (h : ∀ m ∈ n.nodes, m.Fits bad link) :
    Frame.Fits bad link (frameOf n.slots) := by
  have hall := fits_slotsFrom n [] none h nofun nofun
  rwa [List.nil_append] at hall

/-! ### Between two steps -/

/-- Slots of a frame, each of which has collected criteria of the shape of its node. -/
structure Framed (frame : Frame) (slots : List Slot) : Prop where
  frame : frameOf slots = frame
  shapes : ∀ s ∈ slots, s.unit.shape = s.node.type.shape

theorem framed_slots (n : Node) : Framed (frameOf n.slots) n.slots := by
  refine ⟨rfl, fun s hs => ?_⟩
  obtain ⟨m, -, p, rfl⟩ := Node.mem_slotsFrom hs
  rfl

theorem Framed.getElem? {slots : List Slot} (h : Framed frame slots) {index : Nat} {s : Slot}
    (hs : slots[index]? = some s) : frame[index]? = some (s.node, s.parent) := by
  rw [← h.frame, frameOf, List.getElem?_map, hs]
  rfl

/-- A slot that is replaced by another of the same node at the same place leaves the frame. -/
theorem frameOf_set {slots : List Slot} {index : Nat} {s s' : Slot} (hs : slots[index]? = some s)
    (hnode : s'.node = s.node) (hparent : s'.parent = s.parent) :
    frameOf (slots.set index s') = frameOf slots := by
  have hsame : (s'.node, s'.parent) = (s.node, s.parent) := by rw [hnode, hparent]
  rw [frameOf, List.map_set, hsame]
  refine set_self_of_getElem? ?_
  rw [List.getElem?_map, hs]
  rfl

/-- One slot is replaced by another of the same node at the same place. -/
theorem Framed.set {slots : List Slot} (h : Framed frame slots) {index : Nat} {s s' : Slot}
    (hs : slots[index]? = some s) (hnode : s'.node = s.node) (hparent : s'.parent = s.parent)
    (hshape : s'.unit.shape = s'.node.type.shape) : Framed frame (slots.set index s') := by
  refine ⟨(frameOf_set hs hnode hparent).trans h.frame, fun t ht => ?_⟩
  rcases List.mem_or_eq_of_mem_set ht with ht | rfl
  · exact h.shapes t ht
  · exact hshape

/-- What a step leaves of a slot. -/
structure Slot.Kept (s s' : Slot) : Prop where
  node : s'.node = s.node
  parent : s'.parent = s.parent
  shape : s'.unit.shape = s'.node.type.shape

theorem ends_updateAt {slots : List Slot} (h : Framed frame slots) {index : Nat}
    {f : Slot → Except AnalysisError Slot}
    (hf : ∀ s, slots[index]? = some s → Ends bad s.Kept (f s)) :
    Ends bad (Framed frame) (updateAt slots index f) := by
  unfold updateAt
  cases hs : slots[index]? with
  | none => exact h
  | some s =>
    refine ends_bind (hf s hs) fun s' hkept => ends_pure ?_
    exact h.set hs hkept.node hkept.parent hkept.shape

/-- A constraint is worked off. -/
theorem ends_work {s : Slot} (hs : s.unit.shape = s.node.type.shape) {c : Constraint}
    (hc : ∀ e, c.process s.node.position = .error e → bad e) :
    Ends bad s.Kept (s.work c) := by
  have hprocess : Ends bad (fun own => own.shape = s.node.type.shape)
      (c.process s.node.position) := ends_iff.2 ⟨hc, fun own => Constraint.shape_of_process⟩
  unfold Slot.work
  refine ends_bind hprocess fun own hown => ?_
  refine ends_bind (ends_push (hown.trans hs.symm)) fun unit hunit => ends_pure ?_
  exact ⟨rfl, rfl, hunit.trans hs⟩

/-- The criterion of a node is put together. -/
theorem ends_finish {s : Slot} (hs : s.unit.shape = s.node.type.shape)
    (hn : s.node.Fits bad link) :
    Ends bad (fun c => c.shape = s.node.type.shape) (s.finish link) := by
  unfold Slot.finish
  cases hcascade : s.node.cascade with
  | none => exact hs
  | some name =>
    obtain ⟨hshape, hlink⟩ := hn.cascade name hcascade
    have hlinked : Ends bad (fun _ => True) (link name) := ends_iff.2 ⟨hlink, fun _ _ => trivial⟩
    refine ends_bind hlinked fun c _ => ?_
    have hpush : (ShapedCriterion.onValues c).shape = s.unit.shape := by
      rw [hs, hshape]
      rfl
    refine ends_bind (ends_push hpush) fun unit hunit => ends_pure ?_
    exact hunit.trans hs

/-- The part of a node is handed on to the node above. -/
theorem ends_handOnAt (hfits : frame.Fits bad link) {slots : List Slot} (h : Framed frame slots)
    (index : Nat) : Ends bad (Framed frame) (handOnAt link slots index) := by
  unfold handOnAt
  cases hs : slots[index]? with
  | none => exact h
  | some s =>
    have hshape := h.shapes s (List.mem_of_getElem? hs)
    obtain ⟨hn, hjoins⟩ := hfits s.node s.parent (List.mem_of_getElem? (h.getElem? hs))
    cases hparent : s.parent with
    | none => simp only [hparent]; exact h
    | some at_ =>
      obtain ⟨above, w⟩ := at_
      simp only [hparent]
      split_ifs
      · obtain ⟨hsupports, m, parent', hm, hreference⟩ := hjoins above w hparent
        refine ends_bind (ends_finish hshape hn) fun c hc => ?_
        have hwrap : Ends bad (fun _ => True) (w.wrap c) := by
          rw [Wrapper.wrap, hc, if_pos hsupports]
          trivial
        refine ends_bind hwrap fun wrapped _ => ?_
        have hset : Framed frame (slots.set index s.handOn) := h.set hs rfl rfl rfl
        refine ends_updateAt hset fun t ht => ?_
        -- the slot above is one of a node that is tested as a reference
        have hframe := hset.getElem? ht
        rw [hm] at hframe
        obtain ⟨rfl, -⟩ := Prod.mk.inj (Option.some.inj hframe)
        have ht' := hset.shapes t (List.mem_of_getElem? ht)
        have hpush : (ShapedCriterion.onValues wrapped).shape = t.unit.shape := by
          rw [ht', hreference]
          rfl
        unfold Slot.absorb
        refine ends_bind (ends_push hpush) fun unit hunit => ends_pure ?_
        exact ⟨rfl, rfl, hunit.trans ht'⟩
      · exact h

/-- The constraints of a place are worked off, and what is ready is handed on. -/
theorem ends_bucket (hfits : frame.Fits bad link) {slots : List Slot} (h : Framed frame slots)
    (o : Order) : Ends bad (Framed frame) (bucket link slots o) := by
  unfold bucket
  refine ends_bind (ends_foldlM ?_ h) fun worked hframed =>
    ends_foldlM (fun index _ slots' h' => ends_handOnAt hfits h' index) hframed
  rintro ⟨index, c⟩ hitem slots' h'
  obtain ⟨⟨s, index'⟩, hmem, hitem⟩ := List.mem_flatMap.1 hitem
  obtain ⟨c', hc', heq⟩ := List.mem_map.1 hitem
  obtain ⟨rfl, rfl⟩ := Prod.mk.inj heq
  have hs : slots[index']? = some s := List.mem_zipIdx_iff_getElem?.1 hmem
  refine ends_updateAt h' fun t ht => ?_
  -- the constraint is one of the node that is still in the same place
  have hsame := (h.getElem? hs).symm.trans (h'.getElem? ht)
  obtain ⟨hnode, -⟩ := Prod.mk.inj (Option.some.inj hsame)
  obtain ⟨hn, -⟩ := hfits _ _ (List.mem_of_getElem? (h'.getElem? ht))
  have hmem : c' ∈ t.node.constraints := hnode ▸ (List.mem_filter.1 hc').1
  exact ends_work (h'.shapes t (List.mem_of_getElem? ht)) (hn.constraints c' hmem)

/-- **The errors of a tree** whose nodes fit are those of its constraints and its cascades. -/
theorem error_of_compile {n : Node} (h : ∀ m ∈ n.nodes, m.Fits bad link) {e : AnalysisError}
    (he : compile link n = .error e) : bad e := by
  have hfits : Frame.Fits bad link (frameOf n.slots) := fits_slots h
  have hbuckets : Ends bad (Framed (frameOf n.slots))
      ((bucketOrders n).foldlM (bucket link) n.slots) :=
    ends_foldlM (fun o _ slots hslots => ends_bucket hfits hslots o) (framed_slots n)
  have hcompile : Ends bad (fun _ => True) (compile link n) := by
    refine ends_bind hbuckets fun slots hslots => ?_
    cases slots with
    | nil => exact trivial
    | cons root rest =>
      obtain ⟨hn, -⟩ := hfits root.node root.parent
        (List.mem_of_getElem? (hslots.getElem? (show (root :: rest)[0]? = some root from rfl)))
      have hshape := hslots.shapes root List.mem_cons_self
      exact ends_bind (ends_finish hshape hn) fun c _ => trivial
  exact hcompile.of_error he

end Validation
