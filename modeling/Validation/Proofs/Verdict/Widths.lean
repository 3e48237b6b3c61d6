import Validation.Proofs.Json.Integers
import Validation.Proofs.Projections
import Validation.Proofs.Range

/-!
# Widths of integers at scalars

A criterion on integers of one width is given integers of all widths. It tests the integer if its own
width has room for it, whatever the width it comes in, and says the same of it. It never tests another
integer: a word that is too great is not cut down.

* `ScalarKind.ofWords?`: integers taken out of values in machine words. A value of the kind itself is taken
  as it is, every other one is extended to 64 bits, and cut down again if it lies between the ends.
* `ScalarKind.ofWords?_eq`: these are the integers that criteria on scalars test.
* `Wrapper.Over`: wholes that differ in related parts only.
* `widths_do_not_matter`: what a criterion on integers says of values, of wholes, and of documents.
-/

namespace Validation

/-! ### Machine words -/

namespace Value

/-- The integer of a value in 64 bits, to which narrower ones are extended. -/
def word? : Value → Option Int64
  | byte n => some n.toInt64
  | short n => some n.toInt64
  | int n => some n.toInt64
  | long n => some n
  | _ => none

/-- Extending keeps the integer. -/
theorem map_toInt_word? (v : Value) : v.word?.map Int64.toInt = v.integral? := by
  cases v with
  | byte n => exact congrArg some n.toInt_toInt64
  | short n => exact congrArg some n.toInt_toInt64
  | int n => exact congrArg some n.toInt_toInt64
  | _ => rfl

/-- The long of an integer that fits into 64 bits. -/
theorem integral?_long {n : Int} (h : -2 ^ 63 ≤ n ∧ n < 2 ^ 63) :
    (long (.ofInt n)).integral? = some n :=
  congrArg some (Int64.toInt_ofInt_of_le h.1 h.2)

end Value

section Cut

variable {α : Type} {toInt : α → Int} {cut : Int64 → α} {least greatest w : Int64} {half : Int}
  {size : Nat} {x : α}

/-- **Cutting a word down** only if it lies between the ends gives its integer, or nothing. -/
theorem cut_within_eq_some (hsize : size = 2 * half) (hcut : ∀ w, toInt (cut w) = w.toInt.bmod size)
    (hleast : least.toInt = -half) (hgreatest : greatest.toInt = half - 1)
    (hends : ∀ x, -half ≤ toInt x ∧ toInt x < half) (hinj : ∀ {x y}, toInt x = toInt y → x = y) :
    (if least ≤ w ∧ w ≤ greatest then some (cut w) else none) = some x ↔ toInt x = w.toInt := by
  have hkeep : -half ≤ w.toInt → w.toInt < half → toInt (cut w) = w.toInt := by
    intro hlow hhigh
    rw [hcut, Int.bmod_eq_of_le] <;> omega
  simp only [Int64.le_iff_toInt_le, hleast, hgreatest]
  constructor
  · intro h
    split_ifs at h with hwithin
    obtain rfl : cut w = x := Option.some.inj h
    exact hkeep hwithin.1 (by omega)
  · intro h
    have hends := hends x
    rw [if_pos (by omega), hinj ((hkeep (by omega) (by omega)).trans h.symm)]

end Cut

namespace ScalarKind

variable {k : ScalarKind} {v w : Value} {n : Int} {x : k.Carrier}

/-- The integer in a value of the kind itself. -/
def own? : (k : ScalarKind) → Value → Option k.Carrier
  | byte, .byte n => some n
  | short, .short n => some n
  | int, .int n => some n
  | long, .long n => some n
  | _, _ => none

/-- A word cut down to the kind, if it lies between the ends of the kind. -/
def cut? : (k : ScalarKind) → Int64 → Option k.Carrier
  | byte, w => if Int8.minValue.toInt64 ≤ w ∧ w ≤ Int8.maxValue.toInt64 then some w.toInt8 else none
  | short, w => if Int16.minValue.toInt64 ≤ w ∧ w ≤ Int16.maxValue.toInt64 then some w.toInt16 else none
  | int, w => if Int32.minValue.toInt64 ≤ w ∧ w ≤ Int32.maxValue.toInt64 then some w.toInt32 else none
  | long, w => some w
  | _, _ => none

/-- The integer in a value: as it is in a value of the kind itself, and else as a word of 64 bits that is
cut down. -/
def ofWords? (k : ScalarKind) (v : Value) : Option k.Carrier :=
  (k.own? v).or (v.word?.bind k.cut?)

theorem own?_eq_some (hk : k.isIntegral = true) : k.own? v = some x ↔ v = k.toValue x := by
  cases k with
  | byte | short | int | long => cases v <;> simp [own?, toValue]
  | _ => cases hk

/-- **A word is cut down** to the scalar of the same integer, or not at all. -/
theorem cut?_eq_some (hk : k.isIntegral = true) {word : Int64} :
    k.cut? word = some x ↔ (k.toValue x).integral? = some word.toInt := by
  cases k with
  | byte =>
    have hends : ∀ x : Int8, -2 ^ 7 ≤ x.toInt ∧ x.toInt < 2 ^ 7 := fun x => ⟨x.le_toInt, x.toInt_lt⟩
    have hcut : byte.cut? word = some x ↔ x.toInt = word.toInt :=
      cut_within_eq_some rfl Int64.toInt_toInt8 rfl rfl hends Int8.toInt_inj.1
    rw [hcut]
    exact Option.some_inj.symm
  | short =>
    have hends : ∀ x : Int16, -2 ^ 15 ≤ x.toInt ∧ x.toInt < 2 ^ 15 := fun x => ⟨x.le_toInt, x.toInt_lt⟩
    have hcut : short.cut? word = some x ↔ x.toInt = word.toInt :=
      cut_within_eq_some rfl Int64.toInt_toInt16 rfl rfl hends Int16.toInt_inj.1
    rw [hcut]
    exact Option.some_inj.symm
  | int =>
    have hends : ∀ x : Int32, -2 ^ 31 ≤ x.toInt ∧ x.toInt < 2 ^ 31 := fun x => ⟨x.le_toInt, x.toInt_lt⟩
    have hcut : int.cut? word = some x ↔ x.toInt = word.toInt :=
      cut_within_eq_some rfl Int64.toInt_toInt32 rfl rfl hends Int32.toInt_inj.1
    rw [hcut]
    exact Option.some_inj.symm
  | long =>
    have hinj : x = word ↔ x.toInt = word.toInt := Int64.toInt_inj.symm
    simpa [cut?, toValue, Value.integral?, eq_comm] using hinj
  | _ => cases hk

/-! ### The integers that criteria test -/

/-- Values of the same integer are converted to the same scalar. -/
theorem ofValue?_congr (hk : k.isIntegral = true) (h : v.integral? = w.integral?) :
    k.ofValue? v = k.ofValue? w := by
  cases k with
  | byte | short | int | long => simp only [ofValue?, Value.integralWithin?, h]
  | _ => cases hk

/-- **A kind of integers converts a value** to the scalar of the same integer. -/
theorem ofValue?_eq_some_iff (hk : k.isIntegral = true) :
    k.ofValue? v = some x ↔ ∃ n, v.integral? = some n ∧ (k.toValue x).integral? = some n := by
  constructor
  · exact integral?_of_ofValue? hk
  · rintro ⟨n, hv, hx⟩
    rw [ofValue?_congr hk (hv.trans hx.symm)]
    exact ofValue?_toValue x

/-- **Nothing but integers that it has room for** is converted. -/
theorem ofValue?_eq_none_iff (hk : k.isIntegral = true) :
    k.ofValue? v = none ↔ ∀ n, v.integral? = some n → ¬ k.Holds n := by
  constructor
  · intro hnone n hn hholds
    obtain ⟨x, hx⟩ := (exists_ofValue?_iff hk hn).2 hholds
    rw [hnone] at hx
    cases hx
  · intro h
    refine Option.eq_none_iff_forall_not_mem.2 fun x hx => ?_
    obtain ⟨n, hn, -⟩ := integral?_of_ofValue? hk hx
    exact h n hn ((exists_ofValue?_iff hk hn).1 ⟨x, hx⟩)

/-- What a kind of integers has room for fits into 64 bits. -/
theorem bounds_of_holds (h : k.Holds n) : -2 ^ 63 ≤ n ∧ n < 2 ^ 63 := by
  cases k with
  | byte | short | int | long =>
    unfold Holds at h
    omega
  | _ => cases h

/-- **Every integer that a kind has room for** is that of exactly one of its scalars. -/
theorem exists_scalar (hk : k.isIntegral = true) (h : k.Holds n) :
    ∃ x, ∀ y, (k.toValue y).integral? = some n ↔ y = x := by
  -- there is a value of the integer, the long, and the kind converts it
  have hlong := Value.integral?_long (bounds_of_holds h)
  obtain ⟨x, hx⟩ := (exists_ofValue?_iff hk hlong).2 h
  refine ⟨x, fun y => ?_⟩
  have hy : (k.toValue y).integral? = some n ↔ k.ofValue? (.long (.ofInt n)) = some y := by
    simp [ofValue?_eq_some_iff hk, hlong]
  rw [hy, hx, Option.some_inj]
  exact eq_comm

/-- **Machine words**: what is found of a value in words is what criteria on scalars test. -/
theorem ofWords?_eq (hk : k.isIntegral = true) (v : Value) : k.ofWords? v = k.ofValue? v := by
  unfold ofWords?
  cases hown : k.own? v with
  | some x =>
    -- a value of the kind itself is the value of its scalar
    obtain rfl := (own?_eq_some hk).1 hown
    rw [Option.some_or, ofValue?_toValue]
  | none =>
    rw [Option.none_or]
    refine Option.ext fun x => ?_
    rw [Option.bind_eq_some_iff, ofValue?_eq_some_iff hk, ← Value.map_toInt_word?]
    simp [cut?_eq_some hk, Option.map_eq_some_iff]

/-- The values are told apart by no criterion on scalars of the kind: they are equal, or hold the same
integer, for which the kind has room. -/
def Alike (k : ScalarKind) (v w : Value) : Prop :=
  v = w ∨ ∃ n, k.Holds n ∧ v.integral? = some n ∧ w.integral? = some n

end ScalarKind

/-! ### Criteria on integers -/

namespace ShapedCriterion

variable {k : ScalarKind} {c : Criterion.On k.Carrier} {v v' : Value} {n : Int}

/-- **A criterion tests the integer of a value**, whatever its width. -/
theorem validate_of_integral (hk : k.isIntegral = true) {x : k.Carrier} (hv : v.integral? = some n)
    (hx : (k.toValue x).integral? = some n) :
    validate ⟨.scalar k, c⟩ v = c.validate x ∧ (lift ⟨.scalar k, c⟩).validate v = c.validate x := by
  have hscalar : k.ofValue? v = some x := (ScalarKind.ofValue?_eq_some_iff hk).2 ⟨n, hv, hx⟩
  exact ⟨validate_of_some (s := ⟨.scalar k, c⟩) hscalar,
    lift_validate_of_some (s := ⟨.scalar k, c⟩) hscalar⟩

/-- **Other values are mismatches**: integers for which the kind has no room, and all that are none. -/
theorem validate_of_no_integral (hk : k.isIntegral = true)
    (hv : ∀ n, v.integral? = some n → ¬ k.Holds n) :
    validate ⟨.scalar k, c⟩ v = .fail (.typeMismatch k.name v) := by
  have hnone : k.ofValue? v = none := (ScalarKind.ofValue?_eq_none_iff hk).2 hv
  simp only [validate, Shape.ofValue?, hnone, Shape.name]

theorem lift_validate_alike (hk : k.isIntegral = true) (h : k.Alike v v') :
    (lift ⟨.scalar k, c⟩).validate v = (lift ⟨.scalar k, c⟩).validate v' := by
  rcases h with rfl | ⟨n, hholds, hv, hv'⟩
  · rfl
  · obtain ⟨x, hx⟩ := ScalarKind.exists_scalar hk hholds
    have hxn := (hx x).2 rfl
    rw [(validate_of_integral hk hv hxn).2, (validate_of_integral hk hv' hxn).2]

end ShapedCriterion

/-! ### Wholes -/

namespace Wrapper

/-- **The wholes differ in parts only** that are related. The keys of a map stand in the paths of failures
and are the same. -/
inductive Over (R : Value → Value → Prop) : Wrapper → Value → Value → Prop
  | same (w : Wrapper) (v : Value) : Over R w v v
  | array {items items' : List Value} (h : List.Forall₂ R items items') :
      Over R arrayElement (.list items) (.list items')
  | iterable {items items' : List Value} (h : List.Forall₂ R items items') :
      Over R iterableElement (.list items) (.list items')
  | values {entries entries' : List (Value × Value)}
      (h : List.Forall₂ (fun e e' => e.1 = e'.1 ∧ R e.2 e'.2) entries entries') :
      Over R mapValue (.map entries) (.map entries')
  | content {v v' : Value} (h : R v v') :
      Over R optionalValue (.optional (some v)) (.optional (some v'))
  | property {accessor : Accessor} {name name' : String} {fields fields' : List (String × Value)}
      (h : R (accessor.read (.object name fields)) (accessor.read (.object name' fields'))) :
      Over R (property accessor) (.object name fields) (.object name' fields')
  | extracted {extractor : Extractor} {v v' : Value}
      (h : Option.Rel R (extractor.extract v) (extractor.extract v')) :
      Over R (extracted extractor) v v'

/-- The wholes are put together from related parts in several steps, the innermost one first. -/
def OverAll (R : Value → Value → Prop) : List Wrapper → Value → Value → Prop
  | [] => R
  | w :: above => OverAll (w.Over R) above

/-- A criterion wrapped in several steps, the innermost one first. -/
def wrapAll : List Wrapper → ShapedCriterion → Except AnalysisError ShapedCriterion
  | [], s => .ok s
  | w :: above, s => do wrapAll above (.onValues (← w.wrap s))

variable {R : Value → Value → Prop} {w : Wrapper} {v v' : Value} {inner : Criterion.On Value}

/-- Items that pass and fail alike do so in their places. -/
theorem checkElements_over (hinner : ∀ v v', R v v' → inner.validate v = inner.validate v')
    (expected : String) {items items' : List Value} (h : List.Forall₂ R items items') :
    checkElements expected inner (.list items) = checkElements expected inner (.list items') := by
  have hplaces : ∀ start, List.Forall₂ (fun p p' => R p.1 p'.1 ∧ p.2 = p'.2) (items.zipIdx start)
      (items'.zipIdx start) := by
    induction h with
    | nil => exact fun start => .nil
    | cons hitem _ ih => exact fun start => .cons ⟨hitem, rfl⟩ (ih (start + 1))
  refine Trial.first_of_forall₂ ((hplaces 0).imp ?_)
  rintro ⟨item, position⟩ ⟨item', -⟩ ⟨hitem, rfl⟩
  simp only [hinner _ _ hitem]

/-- **The check of wholes** passes and fails alike if the criterion on the parts does. -/
theorem check_over (hinner : ∀ v v', R v v' → inner.validate v = inner.validate v') (shape : Shape)
    (h : w.Over R v v') : w.check shape inner v = w.check shape inner v' := by
  cases h with
  | same => rfl
  | array h => exact checkElements_over hinner "array" h
  | iterable h => exact checkElements_over hinner "iterable" h
  | values h =>
    refine Trial.first_of_forall₂ (h.imp ?_)
    rintro ⟨key, v⟩ ⟨-, v'⟩ ⟨rfl, hv⟩
    simp only [hinner _ _ hv]
  | content h => exact hinner _ _ h
  | property h => simp only [check, checkProperty, hinner _ _ h]
  | @extracted extractor _ _ h =>
    simp only [check, checkExtracted]
    generalize extractor.extract v = held at h ⊢
    generalize extractor.extract v' = held' at h ⊢
    cases h with
    | none => rfl
    | some h => exact hinner _ _ h

theorem wrap_over {s : ShapedCriterion} {wrapped : Criterion.On Value}
    (hs : ∀ v v', R v v' → s.lift.validate v = s.lift.validate v') (hw : w.wrap s = .ok wrapped)
    (h : w.Over R v v') : wrapped.validate v = wrapped.validate v' := by
  obtain ⟨-, rfl⟩ := wrap_eq_ok.1 hw
  split_ifs
  · rfl
  · exact check_over hs s.shape h

/-- **A criterion that is wrapped in several steps** does not tell wholes apart whose parts the criterion
itself does not. -/
theorem wrapAll_over {ws : List Wrapper} {s wrapped : ShapedCriterion}
    (hs : ∀ v v', R v v' → s.lift.validate v = s.lift.validate v') (hw : wrapAll ws s = .ok wrapped)
    (h : OverAll R ws v v') : wrapped.lift.validate v = wrapped.lift.validate v' := by
  induction ws generalizing R s with
  | nil =>
    obtain rfl : s = wrapped := Except.ok.inj hw
    exact hs v v' h
  | cons w above ih =>
    obtain ⟨c, hc, hw⟩ := bind_eq_ok.1 hw
    -- one step further out, what was the whole is the part
    have hstep : ∀ v v', w.Over R v v' →
        (ShapedCriterion.onValues c).lift.validate v = (ShapedCriterion.onValues c).lift.validate v' :=
      fun v v' => wrap_over hs hc
    exact ih hstep hw h

end Wrapper

/-! ### All of it -/

/-- **What a criterion on integers of a kind says of values**, and of wholes. -/
structure TestsIntegers (k : ScalarKind) (c : Criterion.On k.Carrier) : Prop where
  /-- An integer for which the kind has room is that of one scalar. This is tested, in all widths. -/
  held : ∀ n, k.Holds n → ∃ x, (∀ y, (k.toValue y).integral? = some n ↔ y = x) ∧
    ∀ v, v.integral? = some n → ShapedCriterion.validate ⟨.scalar k, c⟩ v = c.validate x
  /-- Every other integer is a mismatch. -/
  notHeld : ∀ n v, ¬ k.Holds n → v.integral? = some n →
    ShapedCriterion.validate ⟨.scalar k, c⟩ v = .fail (.typeMismatch k.name v)
  /-- And so is what is no integer. -/
  noInteger : ∀ v, v.integral? = none →
    ShapedCriterion.validate ⟨.scalar k, c⟩ v = .fail (.typeMismatch k.name v)
  /-- Wholes pass and fail alike that differ in widths only, however they are put together. -/
  wholes : ∀ ws wrapped, Wrapper.wrapAll ws ⟨.scalar k, c⟩ = .ok wrapped →
    ∀ v v', Wrapper.OverAll k.Alike ws v v' → wrapped.lift.validate v = wrapped.lift.validate v'

theorem testsIntegers {k : ScalarKind} (hk : k.isIntegral = true) (c : Criterion.On k.Carrier) :
    TestsIntegers k c := by
  refine ⟨fun n hn => ?_, fun n v hn hv => ?_, fun v hv => ?_, fun ws wrapped hw v v' => ?_⟩
  · obtain ⟨x, hx⟩ := ScalarKind.exists_scalar hk hn
    exact ⟨x, hx, fun v hv => (ShapedCriterion.validate_of_integral hk hv ((hx x).2 rfl)).1⟩
  · refine ShapedCriterion.validate_of_no_integral hk fun m hm => ?_
    obtain rfl : n = m := Option.some.inj (hv.symm.trans hm)
    exact hn
  · refine ShapedCriterion.validate_of_no_integral hk fun m hm => ?_
    rw [hv] at hm
    cases hm
  · exact Wrapper.wrapAll_over (fun v v' => ShapedCriterion.lift_validate_alike hk) hw

/-- A scalar that is written as it stands in a message is read as a long of the same integer. -/
theorem ScalarKind.ofJson?_render {k : ScalarKind} (hk : k.isIntegral = true) (x : k.Carrier) :
    ∃ n, (k.toValue x).integral? = some n ∧
      Value.ofJson? (k.toValue x).render = some (.long (.ofInt n)) := by
  obtain ⟨n, hn, hrender⟩ : ∃ n, (k.toValue x).integral? = some n ∧
      (k.toValue x).render = toString n := by
    cases k with
    | byte | short | int | long => exact ⟨_, rfl, rfl⟩
    | _ => cases hk
  obtain ⟨hlow, hhigh⟩ := Value.integral?_bounds hn
  exact ⟨n, hn, by rw [hrender, Value.ofJson?_toString hlow hhigh]⟩

/-- **The width of an integer does not matter** to a criterion on integers. What the criterion tests is
what is found in machine words. It is the same for all values of an integer, in which no width has part,
and for all wholes with such parts. The integers of documents are longs, however deep they stand and also
in instances, so what is read of a document is tested as the scalars that are written in it. -/
theorem widths_do_not_matter {k : ScalarKind} (hk : k.isIntegral = true) (c : Criterion.On k.Carrier) :
    (∀ v, k.ofWords? v = k.ofValue? v) ∧ TestsIntegers k c ∧
    (∀ text v, Value.ofJson? text = some v → v.Decoded ∧
      ∀ className name x, (v.asInstance className).field? name = some x → x.Decoded) ∧
    (∀ (v : Value) n, v.Decoded → v.integral? = some n → v = .long (.ofInt n)) ∧
    ∀ x, ∃ v, Value.ofJson? (k.toValue x).render = some v ∧
      ShapedCriterion.validate ⟨.scalar k, c⟩ v = c.validate x ∧
      ShapedCriterion.validate ⟨.scalar k, c⟩ (k.toValue x) = c.validate x := by
  refine ⟨ScalarKind.ofWords?_eq hk, testsIntegers hk c, fun text v hv => ?_,
    fun v n => Value.Decoded.eq_long, fun x => ?_⟩
  · have hdecoded := Value.decoded_of_ofJson? hv
    exact ⟨hdecoded, fun className name x => Value.decoded_field hdecoded⟩
  · obtain ⟨n, hn, hread⟩ := ScalarKind.ofJson?_render hk x
    have hlong := Value.integral?_long (Value.integral?_bounds hn)
    exact ⟨_, hread, (ShapedCriterion.validate_of_integral hk hlong hn).1,
      (ShapedCriterion.validate_of_integral hk hn hn).1⟩

/-! ### A byte -/

/-- That an age is above zero. -/
def aboveZero : Criterion.On Int8 :=
  .enhanced (.all [.leaf fun n : Int8 =>
    if 0 < n then .pass else .fail (.new "positive" "not above zero" (.byte n))]) (·.within (.property "age"))

/-- The ages of all in a list. -/
def agesOfAll : List Wrapper := [.property ⟨"age", none⟩, .iterableElement]

/-- One passes in all widths. The last eight bits of 257 are those of one, but 257 is a mismatch, and so
is the text of one. A document in which one is written is read as a long, and passes. And a list of
instances fails with the same, whether it is made of a document or of bytes. -/
theorem bytes_of_all_widths :
    ScalarKind.byte.isIntegral = true ∧
    (∃ x : Int8, aboveZero.validate x = .pass ∧
      ShapedCriterion.validate ⟨.scalar .byte, aboveZero⟩ (.long 1) = aboveZero.validate x ∧
      ShapedCriterion.validate ⟨.scalar .byte, aboveZero⟩ (.short 1) = aboveZero.validate x) ∧
    aboveZero.validate (Int64.toInt8 257) = .pass ∧
    ShapedCriterion.validate ⟨.scalar .byte, aboveZero⟩ (.long 257) =
      .fail (.typeMismatch "byte" (.long 257)) ∧
    ShapedCriterion.validate ⟨.scalar .byte, aboveZero⟩ (.text "1") =
      .fail (.typeMismatch "byte" (.text "1")) ∧
    (∃ v, Value.ofJson? "1" = some v ∧
      ShapedCriterion.validate ⟨.scalar .byte, aboveZero⟩ v = .pass) ∧
    ∃ wrapped, Wrapper.wrapAll agesOfAll ⟨.scalar .byte, aboveZero⟩ = .ok wrapped ∧
      wrapped.lift.validate (.list [.object "Person" [("age", .byte (-1))]]) =
        wrapped.lift.validate (.list [(Value.map [(.text "age", .long (-1))]).asInstance "Person"]) := by
  have hk : ScalarKind.byte.isIntegral = true := rfl
  obtain ⟨-, htests, -, -, hwritten⟩ := widths_do_not_matter hk aboveZero
  refine ⟨hk, ?_, rfl, htests.notHeld 257 _ (by decide) rfl, htests.noInteger _ rfl, ?_, ?_⟩
  · obtain ⟨x, hx, hsame⟩ := htests.held 1 (by decide)
    obtain rfl : (1 : Int8) = x := (hx 1).1 rfl
    exact ⟨1, rfl, hsame _ rfl, hsame _ rfl⟩
  · obtain ⟨v, hv, hpass, -⟩ := hwritten 1
    exact ⟨v, hv, hpass⟩
  · have hage : ScalarKind.byte.Alike (.byte (-1)) (.long (-1)) := .inr ⟨-1, by decide, rfl, rfl⟩
    have hages : Wrapper.OverAll ScalarKind.byte.Alike agesOfAll
        (.list [.object "Person" [("age", .byte (-1))]])
        (.list [(Value.map [(.text "age", .long (-1))]).asInstance "Person"]) :=
      .iterable (.cons (.property hage) .nil)
    exact ⟨_, rfl, htests.wholes _ _ rfl _ _ hages⟩

end Validation
