import Validation.Catalog.Builtin
import Validation.Proofs.Build
import Validation.Proofs.Built
import Validation.Proofs.Declared.Sites
import Validation.Proofs.Order

/-!
# Where constraints are placed

A constraint that is declared at a position stays there if its kind applies to the declared type, and
is otherwise sent to the first extractor that leads to a type to which it does. This depends on the
constraint alone, but the constraints are placed one after another, and those of one extractor come
together in a child. So what is placed is told by the list of constraints: a filter of the list for
what stays, and for what is sent one filter for each extractor, in the order of first use.

* `Analyser.sentTo?`: the extractor to which a constraint is sent.
* `Analyser.Divides`: what is placed, by the list of constraints.
* `Divides.settle`: one more constraint, by cases of where it goes.
* `place_gives`, `foldlM_place_gives`: constraints are placed after one another.
* `constraints_go_to_first_extractor`: the node of a position, and the error where there is none.
-/

namespace Validation.Analyser

variable {a : Analyser} {type : DeclaredType} {p : Position} {location : Location}
  {c : Constraint} {cs : List Constraint} {placed placed' : Placement} {d : Declaration}
  {ds : List Declaration} {s s' : ConstraintCache}

/-- The place of the first extractor that leads from a type to one that the constraint's kind applies
to, for a constraint that does not apply to the type itself. -/
def sentTo? (a : Analyser) (type : DeclaredType) (c : Constraint) : Option Nat :=
  if c.kind.applies type then none
  else a.extractors.findIdx? fun x => (x.resolve type).any (c.kind.applies ·)

/-- The constraint applies to a type, or to one that some extractor leads to from there. -/
def Placeable (a : Analyser) (type : DeclaredType) (c : Constraint) : Prop :=
  c.kind.applies type = true ∨
    ∃ x ∈ a.extractors, ∃ held, x.resolve type = some held ∧ c.kind.applies held = true

/-- The group is that of the extractor at a place, and of constraints it has those that are sent
there. -/
structure Gathers (a : Analyser) (type : DeclaredType) (cs : List Constraint) (i : Nat)
    (g : ExtractorGroup) : Prop where
  index : g.index = i
  extractor : a.extractors[i]? = some g.extractor
  held : g.extractor.resolve type = some g.type
  constraints : g.constraints = cs.filter (a.sentTo? type · == some i)

/-- **What is placed at a position** of the constraints of a list. -/
structure Divides (a : Analyser) (type : DeclaredType) (cs : List Constraint) (placed : Placement) :
    Prop where
  placeable : ∀ c ∈ cs, a.Placeable type c
  own : placed.own = cs.filter (·.kind.applies type)
  groups : List.Forall₂ (a.Gathers type cs) (cs.filterMap (a.sentTo? type)).eraseDups placed.groups

/-! ### The first extractor -/

theorem findSome?_zipIdx_index {α β : Type} (f : α → Option β) (l : List α) (n : Nat) :
    ((l.zipIdx n).findSome? fun (x, i) => (f x).map (i, x, ·)).map (·.1) =
      (l.findIdx? fun x => (f x).isSome).map (· + n) := by
  induction l generalizing n with
  | nil => rfl
  | cons x l ih =>
    rw [List.zipIdx_cons, List.findSome?_cons, List.findIdx?_cons]
    cases hf : f x with
    | none =>
      simp only [hf, Option.map_none, Option.isSome_none, Bool.false_eq_true, if_false, ih,
        Option.map_map, Function.comp_def, Nat.add_assoc, Nat.add_comm 1]
    | some y => simp [hf]

/-- The extractor for a kind is the first one that leads to a type that the kind applies to. -/
theorem extractorFor?_index (a : Analyser) (kind : Kind) (type : DeclaredType) :
    (a.extractorFor? kind type).map (·.1) =
      a.extractors.findIdx? fun x => (x.resolve type).any (kind.applies ·) := by
  have h := findSome?_zipIdx_index (fun x => (x.resolve type).filter (kind.applies ·)) a.extractors 0
  simp only [Nat.add_zero, Option.map_id', Option.isSome_filter] at h
  exact h

theorem sentTo?_of_applies (h : c.kind.applies type = true) : a.sentTo? type c = none := by
  rw [sentTo?, if_pos h]

theorem sentTo?_of_extractorFor? {i : Nat} {x : Extractor} {held : DeclaredType}
    (h : c.kind.applies type = false) (hfor : a.extractorFor? c.kind type = some (i, x, held)) :
    a.sentTo? type c = some i := by
  rw [sentTo?, h, if_neg Bool.false_ne_true, ← extractorFor?_index, hfor]
  rfl

theorem placeable_iff : a.Placeable type c ↔
    c.kind.applies type = true ∨ (a.extractorFor? c.kind type).isSome = true := by
  rw [Placeable, ← Option.isSome_map (f := fun r : Nat × Extractor × DeclaredType => r.1),
    extractorFor?_index, List.findIdx?_isSome, List.any_eq_true]
  simp [Option.any_eq_true]

theorem Placeable.isSome (h : a.Placeable type c) (happlies : c.kind.applies type = false) :
    (a.sentTo? type c).isSome = true := by
  rw [Placeable, happlies] at h
  obtain ⟨x, hx, held, hheld, hc⟩ := h.resolve_left Bool.false_ne_true
  rw [sentTo?, happlies, if_neg Bool.false_ne_true, List.findIdx?_isSome, List.any_eq_true]
  exact ⟨x, hx, by rw [hheld, Option.any_some, hc]⟩

/-! ### One more constraint -/

theorem Gathers.of_ne {i : Nat} {g : ExtractorGroup} (h : a.Gathers type cs i g)
    (hne : a.sentTo? type c ≠ some i) : a.Gathers type (cs ++ [c]) i g := by
  refine { h with constraints := ?_ }
  rw [h.constraints, List.filter_append, List.filter_singleton, beq_eq_false_iff_ne.2 hne,
    Bool.cond_false, List.append_nil]

/-- The groups of the extractors in a list, with one more constraint that is sent to some extractor. -/
theorem gathers_addToGroup {i : Nat} {x : Extractor} {held : DeclaredType}
    (hsent : a.sentTo? type c = some i) (hx : a.extractors[i]? = some x)
    (hheld : x.resolve type = some held) {is : List Nat} {groups : List ExtractorGroup}
    (h : List.Forall₂ (a.Gathers type cs) is groups) (his : is.Nodup)
    (hnew : i ∉ is → cs.filter (a.sentTo? type · == some i) = []) :
    List.Forall₂ (a.Gathers type (cs ++ [c])) (if i ∈ is then is else is ++ [i])
      (Placement.addToGroup i x held c groups) := by
  have hfilter : (cs ++ [c]).filter (a.sentTo? type · == some i) =
      cs.filter (a.sentTo? type · == some i) ++ [c] := by
    rw [List.filter_append, List.filter_singleton, hsent, beq_self_eq_true]
    rfl
  induction h with
  | nil =>
    rw [if_neg List.not_mem_nil, List.nil_append, Placement.addToGroup]
    refine .cons ⟨rfl, hx, hheld, ?_⟩ .nil
    rw [hfilter, hnew List.not_mem_nil, List.nil_append]
  | @cons j g is groups hg hrest ih =>
    obtain ⟨hj, his⟩ := List.nodup_cons.1 his
    rw [Placement.addToGroup]
    by_cases hji : j = i
    · -- the group of the extractor; none of the others is
      subst hji
      rw [if_pos hg.index, if_pos List.mem_cons_self]
      refine .cons { hg with constraints := by rw [hg.constraints, hfilter] } ?_
      have hne : ∀ k ∈ is, k ≠ j := fun k hk heq => hj (heq ▸ hk)
      refine ((List.forall₂_and_left _ _).2 ⟨hne, hrest⟩).imp ?_
      rintro k g' ⟨hk, hg'⟩
      exact hg'.of_ne fun heq => hk (Option.some.inj (heq.symm.trans hsent))
    · have hindex : g.index ≠ i := fun heq => hji (hg.index.symm.trans heq)
      rw [if_neg hindex]
      have hmem : i ∈ j :: is ↔ i ∈ is := by simp [Ne.symm hji]
      have hhead : a.Gathers type (cs ++ [c]) j g :=
        hg.of_ne fun heq => hji (Option.some.inj (heq.symm.trans hsent))
      have htail := ih his fun hi => hnew (mt hmem.1 hi)
      simp only [hmem]
      split_ifs at htail ⊢
      · exact .cons hhead htail
      · exact .cons hhead htail

theorem divides_nil : a.Divides type [] .empty := ⟨by simp, rfl, .nil⟩

/-- **What is placed, with one more constraint.** -/
theorem Divides.settle (h : a.Divides type cs placed) (hc : a.Settles type placed c placed') :
    a.Divides type (cs ++ [c]) placed' := by
  have hplaceable : a.Placeable type c → ∀ c' ∈ cs ++ [c], a.Placeable type c' := by
    intro hc c' hc'
    rcases List.mem_append.1 hc' with hc' | hc'
    · exact h.placeable c' hc'
    · rw [List.mem_singleton.1 hc']
      exact hc
  cases hc with
  | own happlies =>
    -- it is sent nowhere, so all groups are as before
    have hnone := sentTo?_of_applies (a := a) happlies
    refine ⟨hplaceable (.inl happlies), ?_, ?_⟩
    · simp [h.own, List.filter_append, happlies]
    · rw [List.filterMap_append, List.filterMap_cons_none hnone, List.filterMap_nil, List.append_nil]
      exact h.groups.imp fun i g hg => hg.of_ne (by simp [hnone])
  | @sent i x held happlies hfor =>
    have hsent := sentTo?_of_extractorFor? happlies hfor
    obtain ⟨hx, hheld⟩ := extractorFor?_eq_some hfor
    refine ⟨hplaceable (placeable_iff.2 (.inr (by rw [hfor]; rfl))), ?_, ?_⟩
    · simp [h.own, List.filter_append, happlies]
    · rw [List.filterMap_append, List.filterMap_cons_some hsent, List.filterMap_nil, eraseDups_concat]
      refine gathers_addToGroup hsent hx hheld h.groups (nodup_eraseDups _) fun hi => ?_
      -- an extractor of which no constraint is sent before is not among the groups
      rw [List.filter_eq_nil_iff]
      intro c' hc' heq
      exact hi (List.mem_eraseDups.2 (List.mem_filterMap.2 ⟨c', hc', eq_of_beq heq⟩))

/-! ### One after another -/

theorem place_gives : Gives (a.place p placed d) s placed' s' ↔
    ∃ c, Gives (a.constraint d) s c s' ∧ a.Settles p.type placed c placed' := by
  unfold place
  rw [gives_bind]
  constructor
  · rintro ⟨c, s₁, hc, h⟩
    split at h
    case isTrue happlies =>
      obtain ⟨rfl, rfl⟩ := gives_pure.1 h
      exact ⟨c, hc, .own happlies⟩
    case isFalse happlies =>
      rw [Bool.not_eq_true] at happlies
      split at h
      case h_1 hfor =>
        obtain ⟨rfl, rfl⟩ := gives_pure.1 h
        exact ⟨c, hc, .sent happlies hfor⟩
      case h_2 => exact absurd h (by simp)
  · rintro ⟨c, hc, hsettles⟩
    refine ⟨c, s', hc, ?_⟩
    cases hsettles with
    | own happlies =>
      rw [if_pos happlies]
      exact gives_pure.2 ⟨rfl, rfl⟩
    | sent happlies hfor =>
      rw [happlies, if_neg Bool.false_ne_true, hfor]
      exact gives_pure.2 ⟨rfl, rfl⟩

theorem settles_own_iff (h : c.kind.applies type = true) : a.Settles type placed c placed' ↔
    placed' = { placed with own := placed.own ++ [c] } := by
  constructor
  · rintro (_ | ⟨hnot, -⟩)
    · rfl
    · rw [h] at hnot
      cases hnot
  · rintro rfl
    exact .own h

theorem settles_sent_iff {i : Nat} {x : Extractor} {held : DeclaredType}
    (h : c.kind.applies type = false) (hfor : a.extractorFor? c.kind type = some (i, x, held)) :
    a.Settles type placed c placed' ↔
      placed' = { placed with groups := Placement.addToGroup i x held c placed.groups } := by
  constructor
  · rintro (happlies | ⟨-, hfor'⟩)
    · rw [h] at happlies
      cases happlies
    · cases hfor.symm.trans hfor'
      rfl
  · rintro rfl
    exact .sent h hfor

theorem exists_settles_iff : (∃ placed', a.Settles type placed c placed') ↔ a.Placeable type c := by
  rw [placeable_iff]
  constructor
  · rintro ⟨_, happlies | ⟨-, hfor⟩⟩
    · exact .inl happlies
    · exact .inr (by rw [hfor]; rfl)
  · intro h
    cases happlies : c.kind.applies type with
    | true => exact ⟨_, .own happlies⟩
    | false =>
      rw [happlies] at h
      obtain ⟨⟨i, x, held⟩, hfor⟩ := Option.isSome_iff_exists.1 (h.resolve_left Bool.false_ne_true)
      exact ⟨_, .sent happlies hfor⟩

/-- **The constraints of a list of declarations**, made one after another and placed. -/
theorem foldlM_place_gives (h : a.Divides p.type cs placed) :
    (∀ placed', Gives (ds.foldlM (a.place p) placed) s placed' s' → ∃ cs',
      Gives (ds.mapM a.constraint) s cs' s' ∧ a.Divides p.type (cs ++ cs') placed') ∧
    ∀ cs', Gives (ds.mapM a.constraint) s cs' s' → (∀ c ∈ cs', a.Placeable p.type c) →
      ∃ placed', Gives (ds.foldlM (a.place p) placed) s placed' s' := by
  -- `cs` are the constraints made so far, so those of the rest are added behind them
  induction ds generalizing cs placed s with
  | nil =>
    simp only [List.foldlM_nil, List.mapM_nil, gives_pure]
    refine ⟨?_, ?_⟩
    · rintro placed' ⟨rfl, rfl⟩
      exact ⟨[], ⟨rfl, rfl⟩, by rwa [List.append_nil]⟩
    · rintro cs' ⟨-, rfl⟩ -
      exact ⟨placed, rfl, rfl⟩
  | cons d ds ih =>
    simp only [List.foldlM_cons, List.mapM_cons, gives_bind, gives_pure, place_gives]
    refine ⟨?_, ?_⟩
    · rintro placed' ⟨placed₁, s₁, ⟨c, hc, hsettles⟩, hrest⟩
      obtain ⟨cs', hcs', hdivides⟩ := (ih (h.settle hsettles)).1 placed' hrest
      refine ⟨c :: cs', ⟨c, s₁, hc, cs', s', hcs', rfl, rfl⟩, ?_⟩
      rwa [List.append_cons]
    · rintro _ ⟨c, s₁, hc, cs', s₂, hcs', rfl, rfl⟩ hplaceable
      obtain ⟨hhere, hlater⟩ := List.forall_mem_cons.1 hplaceable
      obtain ⟨placed₁, hsettles⟩ := exists_settles_iff.2 hhere
      obtain ⟨placed', hrest⟩ := (ih (h.settle hsettles)).2 cs' hcs' hlater
      exact ⟨placed', placed₁, s₁, ⟨c, hc, hsettles⟩, hrest⟩

/-- A constraint that cannot be placed is an error. -/
theorem outcome_place_of_not_placeable (hc : Gives (a.constraint d) s c s')
    (hplaceable : ¬ a.Placeable p.type c) : outcome (a.place p placed d) s =
      (.error (.noValueExtractor p.location.render c.render p.type.render), s') := by
  rw [placeable_iff, not_or, Bool.not_eq_true, Bool.not_eq_true, Option.isSome_eq_false_iff,
    Option.isNone_iff_eq_none] at hplaceable
  obtain ⟨happlies, hfor⟩ := hplaceable
  unfold place
  rw [outcome_bind, show outcome (a.constraint d) s = _ from hc]
  simp only
  rw [happlies, if_neg Bool.false_ne_true, hfor, outcome_throw]

/-! ### The node -/

/-- The children of the types nested in a type are reached without an extractor. -/
theorem isExtracted_of_buildNested {nested : List (Child Node)}
    (h : Gives (a.buildNested location type) s nested s') :
    ∀ k ∈ nested, k.wrapper.isExtracted = false := by
  rw [buildNested_eq] at h
  exact (buildParts_gives h).forall_mem fun _ hp _ _ => isExtracted_of_nested hp

/-- The child of the extractor at a place: at the type that the extractor leads to, with those
constraints of a list that are sent there, in the order of the list. -/
def IsExtraction (a : Analyser) (p : Position) (cs : List Constraint) (i : Nat) (k : Child Node) :
    Prop :=
  ∃ x held, a.extractors[i]? = some x ∧ x.resolve p.type = some held ∧
    k = ⟨.extracted x, ⟨p.location.child (.held x.name), held,
      cs.filter (a.sentTo? p.type · == some i), none, []⟩⟩

/-- **The node of a position with a list of constraints.** Those that apply to the type stay, and each
other one is sent to an extractor. There is one child for each extractor that is used, and they come in
the order of first use, before the children of the nested types. -/
structure Holds (a : Analyser) (p : Position) (cs : List Constraint) (nested : List (Child Node))
    (n : Node) : Prop where
  location : n.location = p.location
  type : n.type = p.type
  own : n.constraints = cs.filter (·.kind.applies p.type)
  sent : ∀ c ∈ cs, c.kind.applies p.type = false → (a.sentTo? p.type c).isSome = true
  children : ∃ extracted, n.children = extracted ++ nested ∧
    List.Forall₂ (a.IsExtraction p cs) (cs.filterMap (a.sentTo? p.type)).eraseDups extracted
  nested : ∀ k ∈ nested, k.wrapper.isExtracted = false

theorem Divides.holds {nested : List (Child Node)} {cascade : Option String}
    (h : a.Divides p.type cs placed) (hnested : ∀ k ∈ nested, k.wrapper.isExtracted = false) :
    a.Holds p cs nested ⟨p.location, p.type, placed.own, cascade,
      placed.groups.map (extractedChild p.location) ++ nested⟩ := by
  have hextracted : List.Forall₂ (a.IsExtraction p cs) (cs.filterMap (a.sentTo? p.type)).eraseDups
      (placed.groups.map (extractedChild p.location)) := by
    rw [List.forall₂_map_right_iff]
    refine h.groups.imp fun i g hg => ⟨g.extractor, g.type, hg.extractor, hg.held, ?_⟩
    rw [← hg.constraints, extractedChild]
  exact ⟨rfl, rfl, h.own, fun c hc => (h.placeable c hc).isSome, ⟨_, rfl, hextracted⟩, hnested⟩

/-- **Constraints go to the first extractor.** When the node of an annotated type is built, with any
extractors and whatever is interned, the constraints that are declared there are made in turn, and they
are placed as `Holds` says. But let there be a declaration whose constraint applies neither to the type
nor to one that some extractor leads to, while all before it are made and can be placed. Then, unless
the types nest too deep, the error is that there is no extractor for this constraint from this type at
this location. -/
theorem constraints_go_to_first_extractor (a : Analyser) (location : Location) (t : AnnotatedType)
    (s : ConstraintCache) :
    (∀ n s', Gives (a.build location t) s n s' → ∃ cs s₁ nested,
      Gives (t.declarations.mapM a.constraint) s cs s₁ ∧
        Gives (a.buildNested location t.type) s₁ nested s' ∧ a.Holds ⟨location, t.type⟩ cs nested n) ∧
    ∀ earlier d later cs c s₁ s₂, t.declarations = earlier ++ d :: later →
      location.depth ≤ a.config.maxTypeDepth → Gives (earlier.mapM a.constraint) s cs s₁ →
      (∀ c ∈ cs, a.Placeable t.type c) → Gives (a.constraint d) s₁ c s₂ → ¬ a.Placeable t.type c →
      outcome (a.build location t) s =
        (.error (.noValueExtractor location.render c.render t.type.render), s₂) := by
  have hempty : a.Divides t.type [] .empty := divides_nil
  refine ⟨fun n s' h => ?_, ?_⟩
  · obtain ⟨-, placed, s₁, cascade, nested, hplaced, hnested, -, rfl⟩ := build_gives h
    obtain ⟨cs, hcs, hdivides⟩ := (foldlM_place_gives (p := ⟨location, t.type⟩) hempty).1 _ hplaced
    exact ⟨cs, s₁, nested, hcs, hnested, hdivides.holds (isExtracted_of_buildNested hnested)⟩
  · intro earlier d later cs c s₁ s₂ hsplit hdepth hearlier hplaceable hc hnot
    obtain ⟨placed, hplaced⟩ :=
      (foldlM_place_gives (p := ⟨location, t.type⟩) hempty).2 cs hearlier hplaceable
    have hfails : outcome (t.declarations.foldlM (a.place ⟨location, t.type⟩) .empty) s =
        (.error (.noValueExtractor location.render c.render t.type.render), s₂) := by
      rw [hsplit, List.foldlM_append, outcome_bind, show outcome _ s = _ from hplaced]
      simp only
      rw [List.foldlM_cons, outcome_bind,
        outcome_place_of_not_placeable (p := ⟨location, t.type⟩) hc hnot]
    -- placing comes first, so neither a cascade nor a nested type is looked at
    rw [build_eq, if_neg (Nat.not_lt.2 hdepth), outcome_bind, hfails]

namespace Title

/-- From an optional text to its length. -/
def length : Extractor where
  name := "length"
  resolve
    | .optional ⟨.text, _⟩ => some (.scalar .int)
    | _ => none
  extract
    | .optional (some (.text text)) => some (.int (.ofNat text.length))
    | _ => none

/-- The standard kinds, and one more extractor after the default ones. -/
def analyser : Analyser := ⟨{}, .builtin, Extractor.defaults ++ [length], []⟩

def declare (kind : String) : Annotation := .constraint ⟨kind, .empty⟩

/-- A title, which may be missing. -/
def title : AnnotatedType :=
  ⟨.optional (.plain .text), [declare "size", declare "not_null", declare "positive", declare "size"]⟩

/-- A number, which has no size. -/
def number : AnnotatedType := ⟨.scalar .int, [declare "positive", declare "size", declare "unknown"]⟩

def positive : Constraint := .assemble Builtin.positive .empty []

def size : Constraint :=
  .assemble Builtin.size (.ofList [("min", .int 0), ("max", .int 0x7FFFFFFF)]) []

end Title

open Title in
/-- The constraints on a title that are not for the optional itself are for the text that it holds, or
for the length of the text. But no extractor leads from a number to what has a size. -/
theorem titles_are_extracted : ∃ n s' cs nested,
    Gives (analyser.build (.ofRoot "title") title) .empty n s' ∧
      analyser.Holds ⟨.ofRoot "title", title.type⟩ cs nested n ∧
      n.constraints.map (·.kind.name) = ["not_null"] ∧
      (n.children.map fun k => (k.node.location.render, k.node.constraints.map (·.kind.name))) =
        [("title.@value", ["size", "size"]), ("title.@length", ["positive"])] ∧
      (outcome (analyser.build (.ofRoot "number") number) .empty).1 =
        .error (.noValueExtractor "number" "@size(max=2147483647, min=0)" "int") := by
  have hnames : (outcome (analyser.build (.ofRoot "title") title) .empty).1.toOption.map (fun n =>
      (n.constraints.map (·.kind.name),
        n.children.map fun k => (k.node.location.render, k.node.constraints.map (·.kind.name)))) =
      some (["not_null"], [("title.@value", ["size", "size"]), ("title.@length", ["positive"])]) := by
    decide +kernel
  rcases htitle : outcome (analyser.build (.ofRoot "title") title) .empty with ⟨error | n, s'⟩
  · rw [htitle] at hnames
    cases hnames
  rw [htitle] at hnames
  obtain ⟨hown, hchildren⟩ := Prod.mk.inj (Option.some.inj hnames)
  obtain ⟨cs, s₁, nested, -, -, hholds⟩ :=
    (constraints_go_to_first_extractor analyser (.ofRoot "title") title .empty).1 n s' htitle
  refine ⟨n, s', cs, nested, htitle, hholds, hown, hchildren, ?_⟩
  have hpositive : Gives ([⟨"positive", .empty⟩].mapM analyser.constraint) .empty [positive]
      (ConstraintCache.empty.insert positive.key positive) := rfl
  have hsize : Gives (analyser.constraint ⟨"size", .empty⟩)
      (ConstraintCache.empty.insert positive.key positive) size
      ((ConstraintCache.empty.insert positive.key positive).insert size.key size) := rfl
  have hplaceable : ∀ c ∈ [positive], analyser.Placeable number.type c := by
    intro c hc
    rw [List.mem_singleton.1 hc]
    exact .inl rfl
  have hnot : ¬ analyser.Placeable number.type size := by
    rw [placeable_iff]
    rintro (happlies | hfor)
    · cases happlies
    · cases hfor
  have herror := (constraints_go_to_first_extractor analyser (.ofRoot "number") number .empty).2
    [⟨"positive", .empty⟩] ⟨"size", .empty⟩ [⟨"unknown", .empty⟩] [positive] size _ _ rfl (by decide)
    hpositive hplaceable hsize hnot
  have hrender : size.render = "@size(max=2147483647, min=0)" := by decide +kernel
  rw [herror, hrender]
  rfl

end Validation.Analyser
