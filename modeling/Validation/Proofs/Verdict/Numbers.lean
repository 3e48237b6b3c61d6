import Validation.Proofs.Checks
import Validation.Proofs.Interning.Coherent
import Validation.Proofs.Verdict.Constraints

/-!
# Numbers at scalar and boxed positions

A standard constraint on numbers stands at scalars, where a value is converted to the kind of the
position before it is looked at, and at boxed scalars, where the number of the value is looked at as it is.
The test of the number is the same. So the two differ by the conversion and by nothing else.

* `ScalarKind.Keeps`: a value whose number the conversion to the kind keeps.
* `NumberTest`: what is accepted at the two positions is one test of numbers.
* `numberTest_of_expand`: a standard constraint on numbers decides by one test of numbers.
* `boxed_and_scalar_positions_agree`: the criteria of a constraint at the two positions.
-/

namespace Validation

/-! ### Numbers and conversions -/

namespace Value

variable {v : Value} {n : Int}

/-- Integers of all widths are ones of 64 bits. -/
theorem integral?_bounds (h : v.integral? = some n) : -2 ^ 63 ≤ n ∧ n < 2 ^ 63 := by
  cases v with
  | byte i =>
    cases h
    have hlow := i.le_toInt
    have hhigh := i.toInt_lt
    omega
  | short i =>
    cases h
    have hlow := i.le_toInt
    have hhigh := i.toInt_lt
    omega
  | int i =>
    cases h
    have hlow := i.le_toInt
    have hhigh := i.toInt_lt
    omega
  | long i =>
    cases h
    exact ⟨i.le_toInt, i.toInt_lt⟩
  | _ => cases h

theorem integralWithin?_eq_some {low high : Int} :
    v.integralWithin? low high = some n ↔ v.integral? = some n ∧ low ≤ n ∧ n ≤ high := by
  rw [integralWithin?, Option.filter_eq_some_iff, Bool.and_eq_true, decide_eq_true_eq,
    decide_eq_true_eq]

section Within

variable {α : Type} {ofInt : Int → α} {toInt : α → Int} {low high : Int} {x : α}

/-- What is made of an integer between the bounds stands for the integer. -/
theorem integral?_of_within (hround : ∀ n, low ≤ n → n ≤ high → toInt (ofInt n) = n)
    (hx : (v.integralWithin? low high).map ofInt = some x) : v.integral? = some (toInt x) := by
  obtain ⟨n, hn, rfl⟩ := Option.map_eq_some_iff.1 hx
  obtain ⟨hn, hlow, hhigh⟩ := integralWithin?_eq_some.1 hn
  rw [hround n hlow hhigh]
  exact hn

/-- And an integer between the bounds is taken out again. -/
theorem within_of_integral? (hround : ofInt (toInt x) = x) (hlow : low ≤ toInt x)
    (hhigh : toInt x ≤ high) (hv : v.integral? = some (toInt x)) :
    (v.integralWithin? low high).map ofInt = some x :=
  Option.map_eq_some_iff.2 ⟨_, integralWithin?_eq_some.2 ⟨hv, hlow, hhigh⟩, hround⟩

end Within

theorem number_of_integral (h : v.integral? = some n) : Number.ofValue? v = some (.int n) := by
  cases v <;> cases h <;> rfl

end Value

namespace ScalarKind

variable {k : ScalarKind} {v : Value}

theorem toValue_ne_null (x : k.Carrier) : k.toValue x ≠ .null := by
  cases k <;> exact nofun

/-- A scalar is found again in its value. -/
theorem ofValue?_toValue (x : k.Carrier) : k.ofValue? (k.toValue x) = some x := by
  cases k with
  | byte =>
    have hlow := Int8.le_toInt x
    have hhigh := Int8.toInt_lt x
    exact Value.within_of_integral? (Int8.ofInt_toInt x) (by omega) (by omega) rfl
  | short =>
    have hlow := Int16.le_toInt x
    have hhigh := Int16.toInt_lt x
    exact Value.within_of_integral? (Int16.ofInt_toInt x) (by omega) (by omega) rfl
  | int =>
    have hlow := Int32.le_toInt x
    have hhigh := Int32.toInt_lt x
    exact Value.within_of_integral? (Int32.ofInt_toInt x) (by omega) (by omega) rfl
  | long => exact Option.map_eq_some_iff.2 ⟨_, rfl, Int64.ofInt_toInt x⟩
  | _ => rfl

/-- What a numeric kind converts has a number. -/
theorem exists_number_of_ofValue? (hk : k.isNumeric = true) {x : k.Carrier}
    (hx : k.ofValue? v = some x) : ∃ n, Number.ofValue? v = some n := by
  cases k with
  | boolean | char => cases hk
  | _ => cases v <;> first | exact ⟨_, rfl⟩ | cases hx

/-- A kind of integers takes the integer out of a value as it is: it fits. -/
theorem integral?_of_ofValue? (hk : k.isIntegral = true) {x : k.Carrier} (hx : k.ofValue? v = some x) :
    ∃ n, v.integral? = some n ∧ (k.toValue x).integral? = some n := by
  cases k with
  | byte =>
    have hround : ∀ n : Int, -0x80 ≤ n → n ≤ 0x7F → (Int8.ofInt n).toInt = n :=
      fun n hlow hhigh => Int8.toInt_ofInt_of_le (by omega) (by omega)
    exact ⟨_, Value.integral?_of_within hround hx, rfl⟩
  | short =>
    have hround : ∀ n : Int, -0x8000 ≤ n → n ≤ 0x7FFF → (Int16.ofInt n).toInt = n :=
      fun n hlow hhigh => Int16.toInt_ofInt_of_le (by omega) (by omega)
    exact ⟨_, Value.integral?_of_within hround hx, rfl⟩
  | int =>
    have hround : ∀ n : Int, -0x80000000 ≤ n → n ≤ 0x7FFFFFFF → (Int32.ofInt n).toInt = n :=
      fun n hlow hhigh => Int32.toInt_ofInt_of_le (by omega) (by omega)
    exact ⟨_, Value.integral?_of_within hround hx, rfl⟩
  | long =>
    obtain ⟨n, hn, rfl⟩ := Option.map_eq_some_iff.1 hx
    obtain ⟨hlow, hhigh⟩ := Value.integral?_bounds hn
    exact ⟨n, hn, congrArg some (Int64.toInt_ofInt_of_le hlow hhigh)⟩
  | _ => cases hk

/-- **The kind keeps the number of the value**: the value is converted, and what it is converted to is the
same number. -/
def Keeps (k : ScalarKind) (v : Value) : Prop :=
  ∃ x, k.ofValue? v = some x ∧ Number.ofValue? (k.toValue x) = Number.ofValue? v

/-- A kind keeps the numbers of its own values. -/
theorem keeps_toValue (x : k.Carrier) : k.Keeps (k.toValue x) := ⟨x, ofValue?_toValue x, rfl⟩

/-- A single is a double of the same number. -/
theorem keeps_double_float (x : Float32) : double.Keeps (.float x) := ⟨Decimal.widen x, rfl, rfl⟩

/-- **A kind of integers keeps what it converts.** -/
theorem keeps_of_isIntegral (hk : k.isIntegral = true) {x : k.Carrier} (hx : k.ofValue? v = some x) :
    k.Keeps v := by
  obtain ⟨n, hn, hn'⟩ := integral?_of_ofValue? hk hx
  exact ⟨x, hx, (Value.number_of_integral hn').trans (Value.number_of_integral hn).symm⟩

end ScalarKind

/-! ### Tests of numbers -/

/-- **What is accepted is one test of numbers**: at boxed scalars of the number of the value, unless the
value is null, and at scalars of the number that the value is converted to. -/
structure NumberTest (accepts : DeclaredType → Value → Prop) (test : Number → Prop) : Prop where
  boxed : ∀ k : ScalarKind, k.isNumeric = true → ∀ v : Value, v ≠ .null →
    (accepts (.boxed k) v ↔ ∃ n, Number.ofValue? v = some n ∧ test n)
  scalar : ∀ k : ScalarKind, k.isNumeric = true → ∀ v : Value,
    (accepts (.scalar k) v ↔
      ∃ x, k.ofValue? v = some x ∧ ∃ n, Number.ofValue? (k.toValue x) = some n ∧ test n)

namespace NumberTest

variable {accepts accepts' : DeclaredType → Value → Prop} {test test' : Number → Prop}

theorem congr (h : NumberTest accepts test)
    (heq : ∀ type, type.isNumeric = true → ∀ v, accepts' type v ↔ accepts type v) :
    NumberTest accepts' test := by
  constructor
  · intro k hk v hv
    rw [heq (.boxed k) hk, h.boxed k hk v hv]
  · intro k hk v
    rw [heq (.scalar k) hk, h.scalar k hk v]

/-- Where nothing is accepted no number passes the test. -/
theorem never (h : ∀ type, type.isNumeric = true → ∀ v, ¬ accepts type v) :
    NumberTest accepts fun _ => False := by
  constructor
  · intro k hk v hv
    exact iff_of_false (h (.boxed k) hk v) fun ⟨_, _, hfalse⟩ => hfalse
  · intro k hk v
    exact iff_of_false (h (.scalar k) hk v) fun ⟨_, _, _, _, hfalse⟩ => hfalse

theorem and (h : NumberTest accepts test) (h' : NumberTest accepts' test') :
    NumberTest (fun type v => accepts type v ∧ accepts' type v) fun n => test n ∧ test' n := by
  constructor
  · intro k hk v hv
    rw [h.boxed k hk v hv, h'.boxed k hk v hv]
    cases Number.ofValue? v <;> simp
  · intro k hk v
    rw [h.scalar k hk v, h'.scalar k hk v]
    cases k.ofValue? v with
    | none => simp
    | some x => cases hn : Number.ofValue? (k.toValue x) <;> simp [hn]

section Positions

variable {k : ScalarKind} {v w : Value}

/-- **Between the two positions lies the conversion.** -/
theorem scalar_iff_boxed (h : NumberTest accepts test) (hk : k.isNumeric = true) (v : Value) :
    accepts (.scalar k) v ↔ ∃ x, k.ofValue? v = some x ∧ accepts (.boxed k) (k.toValue x) :=
  (h.scalar k hk v).trans <| exists_congr fun x => and_congr_right fun _ =>
    (h.boxed k hk _ (ScalarKind.toValue_ne_null x)).symm

/-- Nothing but numbers and null is accepted. -/
theorem not_of_no_number (h : NumberTest accepts test) (hk : k.isNumeric = true) (hv : v ≠ .null)
    (hn : Number.ofValue? v = none) : ¬ accepts (.boxed k) v ∧ ¬ accepts (.scalar k) v := by
  constructor
  · rw [h.boxed k hk v hv, hn]
    exact nofun
  · rw [h.scalar k hk v]
    rintro ⟨x, hx, -⟩
    obtain ⟨n, hn'⟩ := ScalarKind.exists_number_of_ofValue? hk hx
    rw [hn] at hn'
    cases hn'

/-- Boxed values are told apart by their numbers only. -/
theorem boxed_congr (h : NumberTest accepts test) (hk : k.isNumeric = true) (hv : v ≠ .null)
    (hw : w ≠ .null) (hnumber : Number.ofValue? w = Number.ofValue? v) :
    accepts (.boxed k) w ↔ accepts (.boxed k) v := by
  rw [h.boxed k hk w hw, h.boxed k hk v hv, hnumber]

/-- **Where the number is kept, the two positions agree.** -/
theorem boxed_iff_scalar (h : NumberTest accepts test) (hk : k.isNumeric = true) (hv : v ≠ .null)
    (hkeeps : k.Keeps v) : accepts (.boxed k) v ↔ accepts (.scalar k) v := by
  obtain ⟨x, hx, hnumber⟩ := hkeeps
  rw [h.scalar_iff_boxed hk, hx, ← h.boxed_congr hk hv (ScalarKind.toValue_ne_null x) hnumber]
  simp

end Positions

end NumberTest

/-- A check of scalars passes the values that are converted to scalars that it passes. -/
theorem ShapedCriterion.lift_leaf_eq_pass {k : ScalarKind} {check : Check k.Carrier} {v : Value} :
    (⟨.scalar k, .leaf check⟩ : ShapedCriterion).lift.validate v = .pass ↔
      ∃ x, k.ofValue? v = some x ∧ check x = .pass := by
  change ShapedCriterion.validate ⟨.scalar k, .leaf check⟩ v = .pass ↔ _
  simp only [validate, Shape.ofValue?]
  cases hx : k.ofValue? v with
  | some x => simp [Criterion.validate]
  | none => simp [Trial.pass, Trial.fail]

namespace Builtin

variable {k : ScalarKind} {test : Number → Bool} {report : Report}

theorem checkNumber_eq_pass {v : Value} (hv : v ≠ .null) :
    checkNumber k test report v = .pass ↔ ∃ n, Number.ofValue? v = some n ∧ test n = true := by
  have hnull : v.isNull = false := by
    cases v with
    | null => exact absurd rfl hv
    | _ => rfl
  unfold checkNumber
  rw [hnull]
  cases hn : Number.ofValue? v with
  | none => simp [Trial.pass, Trial.fail]
  | some n => cases htest : test n <;> simp [htest, Trial.pass, Trial.fail]

theorem numericCriterion_boxed (hk : k.isNumeric = true) : numericCriterion (.boxed k) test report =
    .ok (.onValues (.leaf (checkNumber k test report))) := if_pos hk

theorem numericCriterion_scalar (hk : k.isNumeric = true) : numericCriterion (.scalar k) test report =
    .ok ⟨.scalar k, .leaf fun x => checkNumber k test report (k.toValue x)⟩ := if_pos hk

/-- The criterion of a test of numbers makes this test at both positions. -/
theorem numberTest_numericCriterion (test : Number → Bool) (report : Report) :
    NumberTest (fun type v => ∃ own, numericCriterion type test report = .ok own ∧
      own.lift.validate v = .pass) fun n => test n = true := by
  constructor
  · intro k hk v hv
    simp only [numericCriterion_boxed hk, Except.ok.injEq, exists_eq_left']
    exact checkNumber_eq_pass hv
  · intro k hk v
    simp only [numericCriterion_scalar hk, Except.ok.injEq, exists_eq_left']
    refine ShapedCriterion.lift_leaf_eq_pass.trans ?_
    exact exists_congr fun x => and_congr_right fun _ =>
      checkNumber_eq_pass (ScalarKind.toValue_ne_null x)

end Builtin

open Builtin (numericCriterion numericCriterion_boxed numericCriterion_scalar
  numberTest_numericCriterion)

/-- **A check of numbers**: it is there for all numeric types, and of its settings it makes one test of
numbers whatever the type, or none at all. -/
structure Factory.TestsNumbers (f : Factory) (kind : String) : Prop where
  applies : f.applies = DeclaredType.isNumeric
  produces : ∀ attributes, (∃ error, ∀ type, f.produce type ⟨kind, attributes⟩ = .error error) ∨
    ∃ test report, ∀ type, f.produce type ⟨kind, attributes⟩ = numericCriterion type test report

namespace Kind

/-- All checks of the kind are ones of numbers. -/
def TestsNumbers (k : Kind) : Prop := ∀ f ∈ k.factories, f.TestsNumbers k.name

variable {k : Kind}

/-- A kind with a single check, which is one of numbers, tests numbers. -/
theorem numberTest_of_factory {f : Factory} (hfactories : k.factories = [f]) (hparts : k.parts = [])
    (hk : k.TestsNumbers) (attributes : Attributes) :
    ∃ test, NumberTest (k.Accepts · · attributes) test := by
  have hf : f.TestsNumbers k.name := hk f (by rw [hfactories]; exact List.mem_singleton_self f)
  have haccepts : ∀ type, type.isNumeric = true → ∀ v, k.Accepts type v attributes ↔
      ∃ own, f.produce type ⟨k.name, attributes⟩ = .ok own ∧ own.lift.validate v = .pass := by
    intro type htype v
    rw [← hf.applies] at htype
    rw [accepts_iff, hparts, isCombinator, hfactories]
    simp [PartsAccept, htype]
  rcases hf.produces attributes with ⟨error, herror⟩ | ⟨test, report, hproduce⟩
  · refine ⟨_, .never fun type htype v h => ?_⟩
    obtain ⟨own, hown, -⟩ := (haccepts type htype v).1 h
    rw [herror] at hown
    cases hown
  · refine ⟨_, (numberTest_numericCriterion test report).congr fun type htype v => ?_⟩
    rw [haccepts type htype, hproduce]

/-- What a single part accepts, if its kind tests numbers. -/
theorem numberTest_part {part : Part Kind}
    (h : ∀ attributes, ∃ test, NumberTest (part.target.Accepts · · attributes) test)
    (outerKind : String) (outer : Attributes) :
    ∃ test, NumberTest (fun type v => ∃ declared attributes,
      part.instantiate outerKind outer = .ok declared ∧
        part.target.resolve declared = .ok attributes ∧ part.target.Accepts type v attributes) test := by
  by_cases hmade : ∃ declared attributes, part.instantiate outerKind outer = .ok declared ∧
      part.target.resolve declared = .ok attributes
  · obtain ⟨declared, attributes, hdeclared, hattributes⟩ := hmade
    obtain ⟨test, htest⟩ := h attributes
    refine ⟨test, htest.congr fun type _ v => ?_⟩
    constructor
    · rintro ⟨declared', attributes', hdeclared', hattributes', haccepts⟩
      obtain rfl : declared = declared' := Except.ok.inj (hdeclared.symm.trans hdeclared')
      obtain rfl : attributes = attributes' := Except.ok.inj (hattributes.symm.trans hattributes')
      exact haccepts
    · exact fun haccepts => ⟨declared, attributes, hdeclared, hattributes, haccepts⟩
  · -- without attributes there is no such part, whatever the type
    refine ⟨_, .never fun type _ v => ?_⟩
    rintro ⟨declared, attributes, hdeclared, hattributes, -⟩
    exact hmade ⟨declared, attributes, hdeclared, hattributes⟩

/-- What several parts accept: the tests of all of them. -/
theorem numberTest_partsAccept (outerKind : String) (outer : Attributes) {parts : List (Part Kind)}
    (hparts : parts ≠ [])
    (h : ∀ part ∈ parts, ∀ attributes, ∃ test, NumberTest (part.target.Accepts · · attributes) test) :
    ∃ test, NumberTest (PartsAccept · · outerKind outer parts) test := by
  induction parts with
  | nil => exact absurd rfl hparts
  | cons part rest ih =>
    obtain ⟨hpart, hrest⟩ := List.forall_mem_cons.1 h
    obtain ⟨test, htest⟩ := numberTest_part hpart outerKind outer
    obtain ⟨target, sources⟩ := part
    -- no parts at all would accept texts too, so the induction starts at a single one
    rcases eq_or_ne rest [] with rfl | hne
    · refine ⟨test, htest.congr fun type _ v => ?_⟩
      rw [PartsAccept, PartsAccept, and_true]
    · obtain ⟨test', htest'⟩ := ih hne hrest
      refine ⟨_, (htest.and htest').congr fun type _ v => ?_⟩
      rw [PartsAccept]

/-- A kind that expands into tests of numbers and makes none itself tests numbers. -/
theorem numberTest_of_parts (hfactories : k.factories = []) (hparts : k.parts ≠ [])
    (h : ∀ part ∈ k.parts, ∀ attributes,
      ∃ test, NumberTest (part.target.Accepts · · attributes) test) (attributes : Attributes) :
    ∃ test, NumberTest (k.Accepts · · attributes) test := by
  obtain ⟨test, htest⟩ := numberTest_partsAccept k.name attributes hparts h
  refine ⟨test, htest.congr fun type _ v => ?_⟩
  rw [accepts_iff, isCombinator, hfactories]
  simp

end Kind

namespace Builtin

/-- The standard kinds of constraints on numbers. -/
def numericKinds : List Kind := [positive, Builtin.min, Builtin.max, range, domain]

theorem testsNumbers_positive : positive.TestsNumbers := by
  intro f hf
  rw [List.mem_singleton.1 hf]
  exact ⟨rfl, fun attributes => .inr ⟨_, _, fun type => rfl⟩⟩

theorem testsNumbers_bound (message : String) (accepts : Ordering → Bool) (kind : String) :
    (bound message accepts).TestsNumbers kind := by
  refine ⟨rfl, fun attributes => ?_⟩
  cases hlimit : Settings.read ⟨kind, attributes⟩ Number.ofAttribute? "value" "expected a number" with
  | error error =>
    refine .inl ⟨error, fun type => ?_⟩
    simp only [bound, hlimit]
    rfl
  | ok limit =>
    refine .inr ⟨fun n => (n.compare? limit).any accepts,
      ⟨kind, message, [("value", limit.render)]⟩, fun type => ?_⟩
    simp only [bound, hlimit]
    rfl

theorem testsNumbers_min : Builtin.min.TestsNumbers := by
  intro f hf
  rw [List.mem_singleton.1 hf]
  exact testsNumbers_bound _ _ _

theorem testsNumbers_max : Builtin.max.TestsNumbers := by
  intro f hf
  rw [List.mem_singleton.1 hf]
  exact testsNumbers_bound _ _ _

theorem testsNumbers_range : range.TestsNumbers := nofun

theorem testsNumbers_domain : domain.TestsNumbers := by
  intro f hf
  rw [List.mem_singleton.1 hf]
  refine ⟨rfl, fun attributes => ?_⟩
  cases hexpression : Settings.text ⟨domain.name, attributes⟩ "value" with
  | error error =>
    refine .inl ⟨error, fun type => ?_⟩
    simp only [hexpression]
    rfl
  | ok expression =>
    cases hdomain : Domain.parse expression with
    | error reason =>
      refine .inl ⟨.malformedExpression domain.name expression reason, fun type => ?_⟩
      simp only [hexpression, ok_bind, hdomain]
      rfl
    | ok domain =>
      refine .inr ⟨domain.contains, ⟨Builtin.domain.name, domainMessage,
        [("value", domain.expression)]⟩, fun type => ?_⟩
      simp only [hexpression, ok_bind, hdomain]

/-- **The standard kinds of constraints on numbers make tests of numbers.** -/
theorem testsNumbers_numeric : ∀ kind ∈ numericKinds, kind.TestsNumbers := by
  simp only [numericKinds, List.forall_mem_cons]
  exact ⟨testsNumbers_positive, testsNumbers_min, testsNumbers_max, testsNumbers_range,
    testsNumbers_domain, by simp⟩

/-- **What they accept is one test of numbers.** -/
theorem numberTest_numeric : ∀ kind ∈ numericKinds, ∀ attributes,
    ∃ test, NumberTest (kind.Accepts · · attributes) test := by
  have hmin := Kind.numberTest_of_factory (k := Builtin.min) rfl rfl testsNumbers_min
  have hmax := Kind.numberTest_of_factory (k := Builtin.max) rfl rfl testsNumbers_max
  have hparts : ∀ part ∈ range.parts, ∀ attributes,
      ∃ test, NumberTest (part.target.Accepts · · attributes) test := by
    simp only [range, List.forall_mem_cons]
    exact ⟨hmin, hmax, by simp⟩
  simp only [numericKinds, List.forall_mem_cons]
  exact ⟨Kind.numberTest_of_factory rfl rfl testsNumbers_positive, hmin, hmax,
    Kind.numberTest_of_parts rfl (List.cons_ne_nil _ _) hparts,
    Kind.numberTest_of_factory rfl rfl testsNumbers_domain, by simp⟩

/-- They expand into each other. -/
theorem every_numeric : ∀ kind ∈ numericKinds, kind.Every (· ∈ numericKinds) := by
  have hnumeric : ∀ kind ∈ numericKinds, kind ∈ numericKinds := fun _ h => h
  simp only [numericKinds, List.forall_mem_cons] at hnumeric
  obtain ⟨hpositive, hmin, hmax, hrange, hdomain, -⟩ := hnumeric
  have hmin : Builtin.min.Every (· ∈ numericKinds) := ⟨hmin, trivial⟩
  have hmax : Builtin.max.Every (· ∈ numericKinds) := ⟨hmax, trivial⟩
  simp only [numericKinds, List.forall_mem_cons]
  exact ⟨⟨hpositive, trivial⟩, hmin, hmax, ⟨hrange, hmin, hmax, trivial⟩, ⟨hdomain, trivial⟩, by simp⟩

theorem isStandard_numeric : ∀ kind ∈ numericKinds, Catalog.IsStandard kind := by
  have hstandard : ∀ kind ∈ Catalog.builtin.kinds, Catalog.IsStandard kind := fun _ h => h
  simp only [Catalog.builtin, List.forall_mem_cons] at hstandard
  obtain ⟨hpositive, hmin, hmax, hrange, -, -, -, hdomain, -⟩ := hstandard
  simp only [numericKinds, List.forall_mem_cons]
  exact ⟨hpositive, hmin, hmax, hrange, hdomain, by simp⟩

end Builtin

/-! ### Criteria at the two positions -/

/-- A check of numbers is made at boxed scalars if and only if it is made at scalars. -/
theorem Factory.TestsNumbers.exists_produce_iff {f : Factory} {kind : String} (hf : f.TestsNumbers kind)
    {k : ScalarKind} (hk : k.isNumeric = true) (attributes : Attributes) :
    (∃ own, f.produce (.boxed k) ⟨kind, attributes⟩ = .ok own ∧ own.shape = .reference) ↔
      ∃ own, f.produce (.scalar k) ⟨kind, attributes⟩ = .ok own ∧ own.shape = .scalar k := by
  rcases hf.produces attributes with ⟨error, herror⟩ | ⟨test, report, hproduce⟩
  · simp only [herror]
    exact iff_of_false nofun nofun
  · simp only [hproduce, numericCriterion_boxed hk, numericCriterion_scalar hk]
    exact iff_of_true ⟨_, rfl, rfl⟩ ⟨_, rfl, rfl⟩

/-- The first check of the kind is the one for every numeric type. -/
theorem Kind.TestsNumbers.factory? {k : Kind} (h : k.TestsNumbers) {type : DeclaredType}
    (htype : type.isNumeric = true) : k.factory? type = k.factories.head? := by
  unfold Kind.factory?
  cases hfactories : k.factories with
  | nil => rfl
  | cons f rest =>
    have hf : f.TestsNumbers k.name := h f (by rw [hfactories]; exact List.mem_cons_self)
    exact List.find?_cons_of_pos (by rw [hf.applies]; exact htype)

namespace Constraint

variable {c : Constraint} {k : ScalarKind} {l l' : Location}

theorem exists_ownCriterion_iff (h : c.kind.TestsNumbers) (hk : k.isNumeric = true) :
    (∃ own, c.ownCriterion ⟨l, .boxed k⟩ = .ok own) ↔
      ∃ own, c.ownCriterion ⟨l', .scalar k⟩ = .ok own := by
  have hboxed : c.kind.factory? (.boxed k) = c.kind.factories.head? := h.factory? hk
  have hscalar : c.kind.factory? (.scalar k) = c.kind.factories.head? := h.factory? hk
  simp only [ownCriterion_eq_ok, hboxed, hscalar]
  cases hhead : c.kind.factories.head? with
  | none => exact iff_of_false nofun nofun
  | some f =>
    have hf := h f (List.mem_of_head? hhead)
    simpa [settings, DeclaredType.shape] using hf.exists_produce_iff hk c.attributes

/-- The constraint and all that it expands into are tests of numbers, so it is made at boxed scalars if
and only if it is made at scalars. -/
theorem exists_process_boxed_iff (h : ∀ d ∈ c.expansion, d.kind.TestsNumbers)
    (hk : k.isNumeric = true) :
    (∃ b, c.process ⟨l, .boxed k⟩ = .ok b) ↔ ∃ s, c.process ⟨l', .scalar k⟩ = .ok s := by
  rw [exists_process_iff, exists_process_iff]
  exact forall₂_congr fun d hd => imp_congr_right fun _ => exists_ownCriterion_iff (h d hd) hk

end Constraint

/-- What is put together of tests of numbers expands into tests of numbers. -/
theorem assembles_testsNumbers :
    Assembles (fun c => ∀ d ∈ c.expansion, d.kind.TestsNumbers) Kind.TestsNumbers := by
  intro kind attributes cs hkind hparts d hd
  rcases Constraint.mem_expansion.1 hd with rfl | ⟨part, hpart, hd⟩
  · exact hkind
  · exact forall_of_internedParts hparts part hpart d hd

open Builtin in
/-- A constraint on numbers decides by one test of numbers. -/
theorem numberTest_of_expand {kind : Kind} (hkind : kind ∈ numericKinds) {declared : Attributes}
    {c : Constraint} (hc : kind.expand declared = .ok c) :
    c.Sound ∧ ∃ test, NumberTest (c.kind.Accepts · · c.attributes) test := by
  have hstandard := (every_numeric kind hkind).mono isStandard_numeric
  obtain ⟨hsound, attributes, -, hkey⟩ := interned_of_expand sound_assemble kind declared c hstandard hc
  have hname : c.kind.name = kind.name := (ConstraintKey.mk.inj hkey).1
  have hsame : c.kind = kind :=
    Catalog.standard_unique hsound.standard (isStandard_numeric kind hkind) hname
  exact ⟨hsound, hsame ▸ numberTest_numeric kind hkind c.attributes⟩

open Builtin in
/-- **Boxed and scalar positions agree**, as far as the conversion keeps the number. Let a standard
constraint on numbers be interned where kinds are told apart by their names. At a boxed scalar and at a
scalar of one numeric kind, wherever they are, it becomes a criterion at both or at none. The criterion at
the scalar passes a value exactly when the kind converts the value and the criterion at the boxed scalar
passes what it is converted to. Of what is not null both pass numbers only, and the one at the boxed scalar
tells them apart by their numbers only. So where the kind keeps the number of a value the two agree on the
value: the kind keeps the numbers of its own values, doubles those of singles, and a kind of integers those
of all that it converts. -/
theorem boxed_and_scalar_positions_agree {S : Kind → Prop} (hS : Kind.Distinct S) {kind : Kind}
    (hkind : kind ∈ numericKinds) (hevery : kind.Every S) {cache cache' : ConstraintCache}
    (hcache : cache.Coherent S) {declared : Attributes} {c : Constraint}
    (hc : Gives (kind.intern declared) cache c cache') {k : ScalarKind} (hk : k.isNumeric = true)
    (l l' : Location) :
    ((∃ b, c.process ⟨l, .boxed k⟩ = .ok b) ↔ ∃ s, c.process ⟨l', .scalar k⟩ = .ok s) ∧
    ∀ b s, c.process ⟨l, .boxed k⟩ = .ok b → c.process ⟨l', .scalar k⟩ = .ok s →
      ∀ answer : String → Value → Verdict,
        let boxed (v : Value) : Prop := (b.lift.validate v).verdict answer = .ok ()
        let scalar (v : Value) : Prop := (s.lift.validate v).verdict answer = .ok ()
        ∀ v, v ≠ .null →
          (scalar v ↔ ∃ x, k.ofValue? v = some x ∧ boxed (k.toValue x)) ∧
          (Number.ofValue? v = none → ¬ boxed v ∧ ¬ scalar v) ∧
          (∀ w, w ≠ .null → Number.ofValue? w = Number.ofValue? v → (boxed w ↔ boxed v)) ∧
          (k.Keeps v → (boxed v ↔ scalar v)) ∧
          ((∃ x, v = k.toValue x) ∨ (∃ x, v = .float x ∧ k = .double) ∨
            (k.isIntegral = true ∧ ∃ x, k.ofValue? v = some x) → k.Keeps v) := by
  obtain ⟨hexpand, -⟩ := (Kind.served_internAt hS kind 0 declared cache hevery hcache).of_gives hc
  have htests := (every_numeric kind hkind).mono testsNumbers_numeric
  have hexpansion := (interned_of_expand assembles_testsNumbers kind declared c htests hexpand).1
  obtain ⟨hsound, test, htest⟩ := numberTest_of_expand hkind hexpand
  refine ⟨Constraint.exists_process_boxed_iff hexpansion hk, ?_⟩
  intro b s hb hs answer boxed scalar v hv
  have hboxed : ∀ w, boxed w ↔ c.kind.Accepts (.boxed k) w c.attributes :=
    hsound.decides answer _ b hb
  have hscalar : ∀ w, scalar w ↔ c.kind.Accepts (.scalar k) w c.attributes :=
    hsound.decides answer _ s hs
  simp only [hboxed, hscalar]
  refine ⟨htest.scalar_iff_boxed hk v, htest.not_of_no_number hk hv,
    fun w hw => htest.boxed_congr hk hv hw, htest.boxed_iff_scalar hk hv, ?_⟩
  rintro (⟨x, rfl⟩ | ⟨x, rfl, rfl⟩ | ⟨hintegral, x, hx⟩)
  · exact ScalarKind.keeps_toValue x
  · exact ScalarKind.keeps_double_float x
  · exact ScalarKind.keeps_of_isIntegral hintegral hx

namespace Age

/-- The constraint of ages, which have to be positive. -/
def constraint : Constraint := .assemble Builtin.positive .empty []

/-- Where ages are integers. -/
def scalar : Position := ⟨.ofRoot "age", .scalar .int⟩
/-- Where ages are integers or null. -/
def boxed : Position := ⟨.ofRoot "age", .boxed .int⟩

theorem gives_constraint : Gives (Builtin.positive.intern .empty) .empty constraint
    ⟨[(⟨"positive", .empty⟩, constraint)]⟩ := rfl

end Age

open Builtin in
/-- A small long is a positive age whether ages may be null or not, and a text is none. -/
theorem small_longs_are_ages_at_both : ∃ b s, Age.constraint.process Age.boxed = .ok b ∧
    Age.constraint.process Age.scalar = .ok s ∧ ∀ answer,
      ((b.lift.validate (.long 5)).verdict answer = .ok () ∧
        (s.lift.validate (.long 5)).verdict answer = .ok ()) ∧
      ¬ (b.lift.validate (.text "5")).verdict answer = .ok () ∧
        ¬ (s.lift.validate (.text "5")).verdict answer = .ok () := by
  have hdistinct : Kind.Distinct Catalog.IsStandard :=
    fun _ _ hk hk' hname => Catalog.standard_unique hk hk' hname
  have hpositive : positive ∈ numericKinds := List.mem_cons_self
  have hstandard := Catalog.standard_builtin positive (isStandard_numeric positive hpositive)
  obtain ⟨hmade, hagree⟩ := boxed_and_scalar_positions_agree hdistinct hpositive hstandard
    ConstraintCache.coherent_empty Age.gives_constraint (k := .int) rfl (.ofRoot "age") (.ofRoot "age")
  have hboxed : (Age.constraint.process Age.boxed).map (·.lift.validate (.long 5)) = .ok .pass := by
    cbv
  obtain ⟨b, hb, hfive⟩ := map_eq_ok.1 hboxed
  obtain ⟨s, hs⟩ := hmade.1 ⟨b, hb⟩
  refine ⟨b, s, hb, hs, fun answer => ?_⟩
  obtain ⟨-, -, -, halike, hkeeps⟩ := hagree b s hb hs answer (.long 5) (by simp)
  obtain ⟨-, hneither, -⟩ := hagree b s hb hs answer (.text "5") (by simp)
  have hpass : (b.lift.validate (.long 5)).verdict answer = .ok () := by
    rw [hfive]
    rfl
  exact ⟨⟨hpass, (halike (hkeeps (.inr (.inr ⟨rfl, 5, rfl⟩)))).1 hpass⟩, hneither rfl⟩

/-- A long that is no integer is a positive age if ages may be null, but not if they may not. And a small
long passes at both, though it is no value of integers. -/
theorem large_longs_are_ages_if_boxed : ∃ cache' b s,
    Gives (Builtin.positive.intern .empty) .empty Age.constraint cache' ∧
    Age.constraint.process Age.boxed = .ok b ∧ Age.constraint.process Age.scalar = .ok s ∧
      b.lift.validate (.long 5000000000) = .pass ∧
      s.lift.validate (.long 5000000000) = .fail (.typeMismatch "int" (.long 5000000000)) ∧
      b.lift.validate (.long 5) = .pass ∧ s.lift.validate (.long 5) = .pass ∧
      ∀ x : ScalarKind.int.Carrier, .long 5 ≠ ScalarKind.int.toValue x := by
  have hboxed : (Age.constraint.process Age.boxed).map (fun b =>
      (b.lift.validate (.long 5000000000), b.lift.validate (.long 5))) = .ok (.pass, .pass) := by
    cbv
  have hscalar : (Age.constraint.process Age.scalar).map (fun s =>
      (s.lift.validate (.long 5000000000), s.lift.validate (.long 5))) =
        .ok (.fail (.typeMismatch "int" (.long 5000000000)), .pass) := by
    cbv
  obtain ⟨b, hb, hboxed⟩ := map_eq_ok.1 hboxed
  obtain ⟨s, hs, hscalar⟩ := map_eq_ok.1 hscalar
  obtain ⟨hlarge, hsmall⟩ := Prod.mk.inj hboxed
  obtain ⟨hlarge', hsmall'⟩ := Prod.mk.inj hscalar
  exact ⟨_, b, s, Age.gives_constraint, hb, hs, hlarge, hlarge', hsmall, hsmall',
    fun x => by simp [ScalarKind.toValue]⟩

end Validation
