import Validation.Proofs.Built
import Validation.Proofs.Verdict.Nodes

/-!
# What a tree decides

The tree that is built from the declarations of a place passes the values that satisfy them. Every
declaration stands at the place or with one extractor, and a nested place has a child just when
something is declared there.

* `passes_placed`: the constraints of a place pass what the declarations accept.
* `decides_built`: the tree of a type.
* `decides_builtClass`: the tree of a class.
-/

namespace Validation.Analyser

open Constraint (Sound)

variable {answer : String → Value → Verdict} {a : Analyser} {d : Declaration} {c : Constraint}

section Declaration

theorem ConstraintOf.sound (h : a.ConstraintOf Sound d c) : c.Sound := by
  obtain ⟨kind, -, hsound, -⟩ := h
  exact hsound

variable (hcatalog : a.catalog = .builtin)
include hcatalog

theorem standard_of_resolve {kind : Kind} (h : a.catalog.resolve d.kind = .ok kind) :
    Catalog.IsStandard kind := by
  have hmem := Catalog.mem_of_resolve h
  rw [hcatalog] at hmem
  exact hmem

/-- The kind of a declaration's constraint is the one that the declaration names. -/
theorem resolve_constraintOf (h : a.ConstraintOf Sound d c) :
    a.catalog.resolve d.kind = .ok c.kind := by
  obtain ⟨kind, hresolve, hsound, attributes, -, hkey⟩ := h
  have hname : c.kind.name = kind.name := (ConstraintKey.mk.inj hkey).1
  rw [Catalog.standard_unique hsound.standard (standard_of_resolve hcatalog hresolve) hname]
  exact hresolve

/-- The constraint of a declaration passes what the declaration accepts. -/
theorem passes_constraintOf (h : a.ConstraintOf Sound d c) {p : Position}
    (hmade : ∃ s, c.process p = .ok s) (v : Value) :
    Passes answer (fun _ => c.process p) v ↔ a.catalog.AcceptsAt d p.type v := by
  obtain ⟨s, hs⟩ := hmade
  obtain ⟨kind, hresolve, hinterned⟩ := h
  rw [passes_iff hs, hinterned.verdict_process (standard_of_resolve hcatalog hresolve) hs]
  constructor
  · rintro ⟨attributes, hattributes, haccepts⟩
    exact ⟨kind, attributes, hresolve, hattributes, haccepts⟩
  · rintro ⟨kind', attributes, hresolve', hattributes, haccepts⟩
    obtain rfl : kind = kind' := Except.ok.inj (hresolve.symm.trans hresolve')
    exact ⟨attributes, hattributes, haccepts⟩

theorem accepts_of_applies (h : a.ConstraintOf Sound d c) {type : DeclaredType}
    (happlies : c.kind.applies type = true) (v : Value) :
    a.catalog.Accepts d type v ↔ a.catalog.AcceptsAt d type v := by
  simp only [Catalog.Accepts, resolve_constraintOf hcatalog h, Except.ok.injEq, exists_eq_left',
    happlies, if_true]

theorem accepts_of_held (h : a.ConstraintOf Sound d c) {type held : DeclaredType}
    (happlies : c.kind.applies type = false) (hheld : type.held? = some held) (v : Value) :
    a.catalog.Accepts d type v ↔ v.AsHeld held (a.catalog.AcceptsAt d held) := by
  simp only [Catalog.Accepts, resolve_constraintOf hcatalog h, Except.ok.injEq, exists_eq_left',
    happlies, Bool.false_eq_true, if_false, hheld, Option.some.injEq]

end Declaration

/-- An extractor that a constraint goes to leads to what an optional type holds. -/
theorem held_of_extractorFor? (hextractors : a.extractors = Extractor.defaults) {kind : Kind}
    {type held : DeclaredType} {index : Nat} {extractor : Extractor}
    (h : a.extractorFor? kind type = some (index, extractor, held)) :
    type.held? = some held ∧ extractor.extract = Extractor.present? := by
  obtain ⟨hat, hresolve⟩ := extractorFor?_eq_some h
  exact held_of_mem_defaults (hextractors ▸ List.mem_of_getElem? hat) hresolve

section Place

variable {location : Location} {type : DeclaredType} {ds : List Declaration} {placed : Placement}

/-- What an extractor leads to is not truth. -/
theorem isTruth_group {g : ExtractorGroup} (hne : g.constraints ≠ [])
    (hsound : ∀ c ∈ g.constraints, c.Sound) {u : ShapedCriterion}
    (hu : (extractedChild location g).node.finished Engine.linked = .ok u) : u.isTruth = false := by
  rw [Node.isTruth_finished hu (fun c hc t ht => (hsound c hc).nontrivial _ t ht)
    (by simp [extractedChild])]
  simp [Node.isEmpty, extractedChild, hne]

/-- What an extractor leads to is asked for what all the constraints of its group are. -/
theorem passes_group {g : ExtractorGroup} (hextract : g.extractor.extract = Extractor.present?)
    (hne : g.constraints ≠ []) (hsound : ∀ c ∈ g.constraints, c.Sound)
    (hmade : ∃ u c, (extractedChild location g).node.finished Engine.linked = .ok u ∧
      (extractedChild location g).wrapper.wrap u = .ok c) (v : Value) :
    Passes answer (Node.part Engine.linked (extractedChild location g)).2 v ↔
      ∀ c ∈ g.constraints, v.AsHeld g.type
        (Passes answer fun _ => c.process (extractedChild location g).node.position) := by
  obtain ⟨u, c, hu, hc⟩ := hmade
  have hverdict : ∀ x, (u.lift.validate x).verdict answer = .ok () ↔ ∀ c ∈ g.constraints,
      Passes answer (fun _ => c.process (extractedChild location g).node.position) x := by
    intro x
    rw [Node.verdict_finished hu]
    simp [extractedChild]
  have hscalar : g.type.shape.isScalar = false ↔ g.type.isReference = true := by
    cases g.type <;> simp [DeclaredType.shape, Shape.isScalar, DeclaredType.isReference]
  rw [Node.passes_part hu hc (isTruth_group hne hsound hu), Wrapper.Asks.congr hverdict]
  simp only [Wrapper.Asks, extractedChild, hextract, hscalar, Value.AsHeld]
  cases Extractor.present? v with
  | some content => exact Iff.rfl
  | none => exact ⟨fun h c hc href => h href c hc, fun h href c hc => h c hc href⟩

variable (hcatalog : a.catalog = .builtin) (hextractors : a.extractors = Extractor.defaults)
include hcatalog hextractors

/-- **The constraints of a place** pass what the declarations accept, wherever they went. -/
theorem passes_placed (hplaced : a.Places Sound ⟨location, type⟩ ds placed)
    (hown : ∀ c ∈ placed.own, ∃ t, c.process ⟨location, type⟩ = .ok t)
    (hgroups : ∀ g ∈ placed.groups, ∃ u c,
      (extractedChild location g).node.finished Engine.linked = .ok u ∧
        (extractedChild location g).wrapper.wrap u = .ok c) (v : Value) :
    ((∀ c ∈ placed.own, Passes answer (fun _ => c.process ⟨location, type⟩) v) ∧
      ∀ g ∈ placed.groups,
        Passes answer (Node.part Engine.linked (extractedChild location g)).2 v) ↔
      ∀ d ∈ ds, a.catalog.Accepts d type v := by
  have hconstraint : ∀ c ∈ placed.own, ∀ d, a.ConstraintOf Sound d c →
      (Passes answer (fun _ => c.process ⟨location, type⟩) v ↔ a.catalog.Accepts d type v) := by
    intro c hc d hd
    rw [accepts_of_applies hcatalog hd (hplaced.own c hc).1]
    exact passes_constraintOf hcatalog hd (hown c hc) v
  -- the constraints of a group are asked of what its extractor leads to
  have hgroup : ∀ g ∈ placed.groups,
      Passes answer (Node.part Engine.linked (extractedChild location g)).2 v ↔
        ∀ c ∈ g.constraints, ∀ d ∈ ds, a.ConstraintOf Sound d c → a.catalog.Accepts d type v := by
    intro g hg
    obtain ⟨hne, hall⟩ := hplaced.grouped g hg
    obtain ⟨c₀, hc₀⟩ := List.exists_mem_of_ne_nil _ hne
    have hheld := fun c hc => held_of_extractorFor? hextractors (hall c hc).2.1
    obtain ⟨u, w, hu, hw⟩ := hgroups g hg
    have hmade := (Node.made_of_finished hu).1
    rw [passes_group (hheld c₀ hc₀).2 hne (fun c hc => ?_) ⟨u, w, hu, hw⟩ v]
    · refine forall₂_congr fun c hc => ?_
      have haccepts : ∀ d, a.ConstraintOf Sound d c → (v.AsHeld g.type
          (Passes answer fun _ => c.process (extractedChild location g).node.position) ↔
            a.catalog.Accepts d type v) := by
        intro d hd
        rw [accepts_of_held hcatalog hd (hall c hc).1 (hheld c hc).1]
        exact Value.AsHeld.congr (fun x => passes_constraintOf hcatalog hd (hmade c hc) x) v
      obtain ⟨d, hmem, hd⟩ := (hall c hc).2.2
      exact ⟨fun h d _ hd => (haccepts d hd).1 h, fun h => (haccepts d hd).2 (h d hmem hd)⟩
    · obtain ⟨d, -, hd⟩ := (hall c hc).2.2
      exact hd.sound
  constructor
  · rintro ⟨hownpass, hgrouppass⟩ d hd
    obtain ⟨c, hof, hc | ⟨g, hg, hc⟩⟩ := hplaced.placed d hd
    · exact (hconstraint c hc d hof).1 (hownpass c hc)
    · exact (hgroup g hg).1 (hgrouppass g hg) c hc d hd hof
  · intro haccepts
    refine ⟨fun c hc => ?_, fun g hg => (hgroup g hg).2 fun c _ d hd _ => haccepts d hd⟩
    obtain ⟨d, hd, hof⟩ := (hplaced.own c hc).2
    exact (hconstraint c hc d hof).2 (haccepts d hd)

end Place

section Empty

variable {P : Constraint → Prop}

/-- Nothing is placed where nothing is declared, and only there. -/
theorem placed_empty {p : Position} {ds : List Declaration} {placed : Placement}
    (h : a.Places P p ds placed) :
    (placed.own.isEmpty && placed.groups.isEmpty) = ds.isEmpty := by
  rw [Bool.eq_iff_iff, Bool.and_eq_true, List.isEmpty_iff, List.isEmpty_iff, List.isEmpty_iff]
  constructor
  · rintro ⟨hown, hgroups⟩
    refine List.eq_nil_iff_forall_not_mem.2 fun d hd => ?_
    obtain ⟨c, -, hwhere⟩ := h.placed d hd
    simp [hown, hgroups] at hwhere
  · rintro rfl
    refine ⟨List.eq_nil_iff_forall_not_mem.2 fun c hc => ?_,
      List.eq_nil_iff_forall_not_mem.2 fun g hg => ?_⟩
    · obtain ⟨d, hd, -⟩ := (h.own c hc).2
      cases hd
    · obtain ⟨hne, hall⟩ := h.grouped g hg
      obtain ⟨c, hc⟩ := List.exists_mem_of_ne_nil _ hne
      obtain ⟨d, hd, -⟩ := (hall c hc).2.2
      cases hd

/-- **A node is empty where nothing is declared**, and only there. -/
theorem isEmpty_built {t : AnnotatedType} : ∀ {location : Location} {n : Node},
    a.Built P t location n → n.isEmpty = !t.declares := by
  induction t using AnnotatedType.induction with
  | h t ih =>
    intro location n h
    obtain ⟨placed, cascade, nested, hplaced, hcascade, hnested, rfl⟩ := built_iff.1 h
    have hnone : cascade.isNone = !t.isCascaded := by
      split at hcascade
      case isTrue hcascaded =>
        obtain ⟨name, -, rfl⟩ := hcascade
        simp [hcascaded]
      case isFalse hcascaded => simp [hcascade, hcascaded]
    have hempty : nested.isEmpty = !t.type.declaresWithin := by
      rw [declaresWithin_eq]
      exact hnested.isEmpty_eq fun p hp m hm => ih p hp hm
    rw [Node.isEmpty, AnnotatedType.declares_eq, isEmpty_append, List.isEmpty_map, hempty, hnone,
      ← placed_empty hplaced]
    simp only [Bool.not_or, Bool.not_not]
    ac_rfl

end Empty

/-- The node is empty where nothing is declared, and passes the values that satisfy what is declared. -/
structure Decides (answer : String → Value → Verdict) (a : Analyser) (t : AnnotatedType) (n : Node) :
    Prop where
  empty : n.isEmpty = !t.declares
  isTruth : ∀ u, n.finished Engine.linked = .ok u → u.isTruth = n.isEmpty
  verdict : ∀ u, n.finished Engine.linked = .ok u → ∀ v, (u.lift.validate v).verdict answer = .ok () ↔
    t.Satisfied a.catalog (fun name v => answer name v = .ok ()) v

section Keep

variable {w : Wrapper} {m : Node} {t : AnnotatedType}

theorem isTruth_keep (h : Decides answer a t m) :
    ∀ k ∈ keep w m, ∀ u, k.node.finished Engine.linked = .ok u → u.isTruth = false := by
  intro k hk u hu
  unfold keep at hk
  split_ifs at hk with hempty
  · cases hk
  · rw [List.mem_singleton.1 hk] at hu
    rw [h.isTruth u hu, Bool.eq_false_iff]
    exact hempty

/-- A node that is kept only if there is something to check in it passes what the whole is asked for
by what is declared, if anything is. -/
theorem passes_keep (h : Decides answer a t m)
    (hmade : ∀ k ∈ keep w m, ∃ u c, k.node.finished Engine.linked = .ok u ∧ k.wrapper.wrap u = .ok c)
    (v : Value) :
    (∀ k ∈ keep w m, Passes answer (Node.part Engine.linked k).2 v) ↔ (t.declares = true →
      w.Asks m.type.shape (t.Satisfied a.catalog fun name v => answer name v = .ok ()) v) := by
  have htruth := isTruth_keep (w := w) h
  unfold keep at hmade htruth ⊢
  rw [h.empty] at hmade htruth ⊢
  cases hdeclares : t.declares with
  | false => simp
  | true =>
    simp only [hdeclares, Bool.not_true, Bool.false_eq_true, if_false, List.forall_mem_singleton,
      forall_const] at hmade htruth ⊢
    obtain ⟨u, c, hu, hc⟩ := hmade
    rw [Node.passes_part hu hc (htruth u hu)]
    exact Wrapper.Asks.congr (h.verdict u hu) v

end Keep

/-- The node is that of a part, and decides what is declared there. -/
def DecidesPart (answer : String → Value → Verdict) (a : Analyser) (p : Wrapper × AnnotatedType)
    (n : Node) : Prop :=
  Decides answer a p.2 n ∧ n.type = p.2.type

section Parts

variable {parts : List (Wrapper × AnnotatedType)} {children : List (Child Node)}

theorem isTruth_childrenFor (h : ChildrenFor (DecidesPart answer a) parts children) :
    ∀ k ∈ children, ∀ u, k.node.finished Engine.linked = .ok u → u.isTruth = false := by
  induction h with
  | nil => exact nofun
  | cons hn _ ih => exact List.forall_mem_append.2 ⟨isTruth_keep hn.1, ih⟩

/-- **The children for parts** pass what the whole is asked for by what is declared of the parts. -/
theorem passes_childrenFor (h : ChildrenFor (DecidesPart answer a) parts children)
    (hmade : ∀ k ∈ children, ∃ u c, k.node.finished Engine.linked = .ok u ∧ k.wrapper.wrap u = .ok c)
    (v : Value) :
    (∀ k ∈ children, Passes answer (Node.part Engine.linked k).2 v) ↔ ∀ p ∈ parts,
      p.2.declares = true → p.1.Asks p.2.type.shape
        (p.2.Satisfied a.catalog fun name v => answer name v = .ok ()) v := by
  induction h with
  | nil => simp
  | cons hn _ ih =>
    obtain ⟨hdecides, htype⟩ := hn
    obtain ⟨hmadep, hmaderest⟩ := List.forall_mem_append.1 hmade
    rw [List.forall_mem_append, List.forall_mem_cons, passes_keep hdecides hmadep, htype, ih hmaderest]

end Parts

/-- What is nested in a value satisfies what the value is asked for by the types nested in its own. -/
theorem nestedSatisfied_iff {c : Catalog} {accepts : String → Value → Prop} {type : DeclaredType}
    {v : Value} : type.NestedSatisfied c accepts v ↔ ∀ p ∈ type.nested, p.2.declares = true →
      p.1.Asks p.2.type.shape (p.2.Satisfied c accepts) v := by
  cases type <;> simp [DeclaredType.NestedSatisfied, DeclaredType.nested, Wrapper.Asks]

theorem className_of_cascadeTarget {p : Position} {name : String}
    (h : a.cascadeTarget p = .ok name) : p.type.className? = some name := by
  rw [(cascadeTarget_eq_ok.1 h).1]
  rfl

/-- The class that a node cascades into passes what the cascade accepts. -/
theorem passes_cascade {cascaded : Bool} {p : Position} {cascade : Option String}
    (h : if cascaded then ∃ name, a.cascadeTarget p = .ok name ∧ cascade = some name
      else cascade = none) (v : Value) :
    (∀ name, cascade = some name →
      Passes answer (fun _ => ShapedCriterion.onValues <$> Engine.linked name) v) ↔
      (cascaded = true →
        v = .null ∨ ∃ name, p.type.className? = some name ∧ answer name v = .ok ()) := by
  cases cascaded with
  | false =>
    have hnone : cascade = none := h
    simp [hnone]
  | true =>
    obtain ⟨name, htarget, rfl⟩ := h
    have hpasses : Passes answer (fun _ => ShapedCriterion.onValues <$> Engine.linked name) v ↔
        v = .null ∨ answer name v = .ok () := by
      rw [passes_iff (s := .onValues (.leaf (Engine.cascadeCheck name))) rfl]
      exact verdict_cascadeCheck name v
    simp [className_of_cascadeTarget htarget, hpasses]

section Built

variable (hcatalog : a.catalog = .builtin) (hextractors : a.extractors = Extractor.defaults)
include hcatalog hextractors

/-- **The tree of a type** passes the values that satisfy what is declared. -/
theorem decides_built {t : AnnotatedType} : ∀ {location : Location} {n : Node},
    a.Built Sound t location n → Decides answer a t n := by
  induction t using AnnotatedType.induction with
  | h t ih =>
    intro location n h
    have hempty := isEmpty_built h
    obtain ⟨placed, cascade, nested, hplaced, hcascade, hnested, rfl⟩ := built_iff.1 h
    have hnested : ChildrenFor (DecidesPart answer a) t.type.nested nested :=
      hnested.imp fun p hp m hm => ⟨ih p hp hm, type_of_built hm⟩
    have hsound : ∀ c ∈ placed.own, c.Sound := by
      intro c hc
      obtain ⟨d, -, hd⟩ := (hplaced.own c hc).2
      exact hd.sound
    refine ⟨hempty, fun u hu => ?_, fun u hu v => ?_⟩
    · refine Node.isTruth_finished hu (fun c hc t ht => (hsound c hc).nontrivial _ t ht)
        fun k hk w hw => ?_
      rcases List.mem_append.1 hk with hk | hk
      · obtain ⟨g, hg, rfl⟩ := List.mem_map.1 hk
        obtain ⟨hne, hall⟩ := hplaced.grouped g hg
        refine isTruth_group hne (fun c hc => ?_) hw
        obtain ⟨d, -, hd⟩ := (hall c hc).2.2
        exact hd.sound
      · exact isTruth_childrenFor hnested k hk w hw
    · obtain ⟨hown, hchildren⟩ := Node.made_of_finished hu
      obtain ⟨hgroups, hchildren⟩ := List.forall_mem_append.1 hchildren
      rw [List.forall_mem_map] at hgroups
      rw [Node.verdict_finished hu, List.forall_mem_append, List.forall_mem_map,
        passes_cascade hcascade, passes_childrenFor hnested hchildren, ← nestedSatisfied_iff,
        AnnotatedType.satisfied_iff, ← passes_placed hcatalog hextractors hplaced hown hgroups]
      constructor
      · rintro ⟨hown, ⟨hgroups, hnested⟩, hcascade⟩
        exact ⟨⟨hown, hgroups⟩, hcascade, hnested⟩
      · rintro ⟨⟨hown, hgroups⟩, hcascade, hnested⟩
        exact ⟨hown, ⟨hgroups, hnested⟩, hcascade⟩

/-- **The tree of a class** passes the values that satisfy what is declared of the class. -/
theorem verdict_builtClass {schema : ClassSchema} {n : Node} (h : a.BuiltClass Sound schema n)
    {u : ShapedCriterion} (hu : n.finished Engine.linked = .ok u) (v : Value) :
    (u.lift.validate v).verdict answer = .ok () ↔
      schema.Satisfied a.catalog (fun name v => answer name v = .ok ()) a.config.propertySource v := by
  obtain ⟨constraints, children, hconstraints, hchildren, rfl⟩ := builtClass_iff.1 h
  obtain ⟨hown, hmade⟩ := Node.made_of_finished hu
  have hnone : ∀ name, (none : Option String) = some name →
      Passes answer (fun _ => ShapedCriterion.onValues <$> Engine.linked name) v := nofun
  have hparts : ChildrenFor (DecidesPart answer a) (schema.parts a.config.propertySource) children :=
    hchildren.imp fun p _ m hm => ⟨decides_built hcatalog hextractors hm, type_of_built hm⟩
  rw [Node.verdict_finished hu, ClassSchema.Satisfied, and_iff_left hnone, passes_childrenFor hparts hmade,
    ClassSchema.parts, List.forall_mem_map]
  refine and_congr_left fun _ => ?_
  constructor
  · intro hpass d hd
    obtain ⟨c, hc, hof⟩ := exists_mem_right_of_forall₂ hconstraints d hd
    exact (passes_constraintOf hcatalog hof (hown c hc) v).1 (hpass c hc)
  · intro haccepts c hc
    obtain ⟨d, hd, hof⟩ := exists_mem_of_forall₂ hconstraints c hc
    exact (passes_constraintOf hcatalog hof (hown c hc) v).2 (haccepts d hd)

end Built

end Validation.Analyser
