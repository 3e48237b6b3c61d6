import Validation.Proofs.Builtin
import Validation.Proofs.Engine.Search
import Validation.Proofs.Verdict.Satisfies

/-!
# Where a path leads

The path of a failure is read from the root: a step goes from a value to a part of it, and between
the steps what an optional holds takes its place. Where the path leads is said here by the declared
types and the value alone, without trees, wrappers or criteria.

* `Navigates`: the path leads from a value of a type to a value in it.
* `DeclaredType.Tests`: what a check at a type tests of a value.
* `Failure.Locates`: the path of a failure leads to what its check tested.
* `heeds_of_laid`: the failures of a laid out tree do, if the answers to its requests do.
-/

namespace Validation

/-- The type of the members of an array or a collection. -/
def DeclaredType.element? : DeclaredType → Option AnnotatedType
  | .array element | .collection _ element => some element
  | _ => none

/-- **The path leads** from a value of a type to a value of another type in it. Which properties a
class has is said by `declares`; a property is read by its accessor, which makes null of a missing
field. -/
inductive Navigates (declares : String → Property → Prop) :
    DeclaredType → Value → List Step → DeclaredType → Value → Prop
  | here {type : DeclaredType} {v : Value} : Navigates declares type v [] type v
  /-- From an object to what the accessor of a property of its class reads. -/
  | property {name className : String} {p : Property} {fields : List (String × Value)}
      {path : List Step} {type : DeclaredType} {reached : Value} (hp : declares name p)
      (h : Navigates declares p.type.type (p.accessor.read (.object className fields)) path type
        reached) :
      Navigates declares (.classOf name) (.object className fields) (.property p.name :: path) type
        reached
  /-- From a list to the item at a position. -/
  | index {container : DeclaredType} {element : AnnotatedType} {items : List Value} {position : Nat}
      {item : Value} {path : List Step} {type : DeclaredType} {reached : Value}
      (helement : container.element? = some element) (hitem : items[position]? = some item)
      (h : Navigates declares element.type item path type reached) :
      Navigates declares container (.list items) (.index position :: path) type reached
  /-- From a map to the key of an entry. -/
  | mapKey {key value : AnnotatedType} {entries : List (Value × Value)} {entry : Value × Value}
      {path : List Step} {type : DeclaredType} {reached : Value} (hentry : entry ∈ entries)
      (h : Navigates declares key.type entry.1 path type reached) :
      Navigates declares (.map key value) (.map entries) (.key entry.1 :: path) type reached
  /-- From a map to the value of an entry. -/
  | mapValue {key value : AnnotatedType} {entries : List (Value × Value)} {entry : Value × Value}
      {path : List Step} {type : DeclaredType} {reached : Value} (hentry : entry ∈ entries)
      (h : Navigates declares value.type entry.2 path type reached) :
      Navigates declares (.map key value) (.map entries) (.key entry.1 :: path) type reached
  /-- From an optional to its content, null if it is empty, without a step. -/
  | held {optional content : DeclaredType} {v : Value} {path : List Step} {type : DeclaredType}
      {reached : Value} (hheld : optional.held? = some content)
      (h : Navigates declares content v.content path type reached) :
      Navigates declares optional v path type reached

/-- **What a check at the type tests** of a value: the value, or the scalar of the type's kind that a
numeric value is converted to. -/
def DeclaredType.Tests (type : DeclaredType) (v tested : Value) : Prop :=
  tested = v ∨ ∃ (kind : ScalarKind) (x : kind.Carrier), type = .scalar kind ∧
    kind.isNumeric = true ∧ kind.ofValue? v = some x ∧ tested = kind.toValue x

/-- **The failure locates what was tested**: its path leads from the value to the place of its own
value. -/
def Failure.Locates (f : Failure) (declares : String → Property → Prop) (type : DeclaredType)
    (v : Value) : Prop :=
  ∃ type' reached, Navigates declares type v f.path type' reached ∧ type'.Tests reached f.value

variable {declares : String → Property → Prop}

/-- A failure of the value itself locates it. -/
theorem Failure.At.locates {f : Failure} {v tested : Value} {type : DeclaredType} (h : f.At tested)
    (htests : type.Tests v tested) : f.Locates declares type v := by
  obtain ⟨hpath, rfl⟩ := h
  refine ⟨type, v, ?_, htests⟩
  rw [hpath]
  exact .here

theorem locates_typeMismatch (expected : String) (v : Value) (type : DeclaredType) :
    (Failure.typeMismatch expected v).Locates declares type v :=
  (Failure.at_typeMismatch expected v).locates (.inl rfl)

/-- A check at a type tests what is taken out of the value for it. -/
theorem tests_of_ofValue? {type : DeclaredType} {shape : Shape} (hshape : shape = type.shape)
    {v : Value} {x : shape.Carrier} (h : shape.ofValue? v = some x) :
    type.Tests v (shape.toValue x) := by
  subst hshape
  cases type with
  | scalar kind =>
    have hscalar : kind.ofValue? v = some x := h
    cases kind with
    | boolean =>
      cases v <;> cases hscalar
      exact .inl rfl
    | char =>
      cases v <;> cases hscalar
      exact .inl rfl
    | _ => exact .inr ⟨_, x, rfl, rfl, hscalar, rfl⟩
  | _ => exact .inl (Option.some.inj h).symm

/-- What an extractor of optionals finds is the content. -/
theorem content_of_present? {v held : Value} (h : Extractor.present? v = some held) :
    v.content = held := by
  cases v with
  | optional content =>
    cases h
    rfl
  | null => cases h
  | _ => exact Option.some.inj h

theorem content_of_absent {v : Value} (h : Extractor.present? v = none) : v.content = .null := by
  cases v with
  | optional content =>
    cases h
    rfl
  | null => rfl
  | _ => cases h

variable {a : Analyser} (hextractors : a.extractors = Extractor.defaults)
include hextractors

/-- **Entering a part** puts its steps in front of a path. -/
theorem Navigates.enter {w : Wrapper} {type part : DeclaredType} (hjoins : a.Joins declares w type part)
    {v x : Value} {steps : List Step} (henters : w.Enters v steps x) {path : List Step}
    {type' : DeclaredType} {reached : Value} (h : Navigates declares part x path type' reached) :
    Navigates declares type v (steps ++ path) type' reached := by
  cases hjoins with
  | property hp =>
    cases henters
    exact .property hp h
  | arrayElement =>
    cases henters with
    | arrayElement hitem => exact .index rfl hitem h
  | iterableElement =>
    cases henters with
    | iterableElement hitem => exact .index rfl hitem h
  | mapKey =>
    cases henters with
    | mapKey hentry => exact .mapKey hentry h
  | mapValue =>
    cases henters with
    | mapValue hentry => exact .mapValue hentry h
  | optionalValue =>
    -- what an optional holds is not a step away from it
    obtain ⟨rfl, rfl⟩ : steps = [] ∧ v.content = x := by
      cases henters with
      | held => exact ⟨rfl, rfl⟩
      | empty => exact ⟨rfl, rfl⟩
      | plain hplain =>
        cases v with
        | optional content => exact absurd rfl (hplain content)
        | _ => exact ⟨rfl, rfl⟩
    exact .held rfl h
  | extracted hmem hresolve =>
    obtain ⟨hheld, hextract⟩ := held_of_mem_defaults (hextractors ▸ hmem) hresolve
    obtain ⟨rfl, rfl⟩ : steps = [] ∧ v.content = x := by
      cases henters with
      | found hfound => exact ⟨rfl, content_of_present? (hextract ▸ hfound)⟩
      | absent habsent => exact ⟨rfl, content_of_absent (hextract ▸ habsent)⟩
    exact .held hheld h

/-- **A node of a laid out tree** reports failures that locate what was tested: those of its
constraints are failures of the value itself, and those of its children are seen through the steps
that lead there. -/
theorem heeds_of_laid {P : Constraint → Prop} (hP : ∀ c, P c → c.Reports Failure.At) {n : Node}
    (h : a.Laid P declares n) :
    n.Heeds (fun _ _ _ _ => True) (fun className v f => f.Locates declares (.classOf className) v)
      (fun type v f => f.Locates declares type v) Engine.linked where
  own := by
    intro c hc s hs v
    obtain ⟨d, kind, -, hPc, -⟩ := h.own c hc
    have hshape : s.shape = n.type.shape := Constraint.shape_of_process hs
    refine ShapedCriterion.meets_lift (fun x hx => ?_) (locates_typeMismatch _ v n.type)
    have hreports := hP c hPc n.position s hs x
    exact hreports.meets fun f hf => hf.locates (tests_of_ofValue? hshape hx)
  asks := fun _ _ _ _ _ _ _ _ _ => trivial
  child := by
    intro k hk v steps x henters f hf
    obtain ⟨type, reached, hpath, htests⟩ := hf
    exact ⟨type, reached, hpath.enter hextractors (h.child k hk) henters, htests⟩
  linked := by
    intro name hname c hlink v
    obtain ⟨htype, -⟩ := h.cascade name hname
    cases hlink
    rw [htype, Criterion.validate, Engine.cascadeCheck]
    split
    · exact Trial.meets_pass
    · exact ⟨trivial, fun verdict hverdict => hverdict⟩

end Validation
