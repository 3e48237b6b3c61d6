import Mathlib.Tactic.Ring
import Validation.Proofs.Card.HongKong
import Validation.Proofs.Card.Mainland
import Validation.Proofs.Except

/-!
# Card checks in machine arithmetic

The checks of card numbers once more, step by step, with unsigned integers of 32 bits and with octets that
are taken from their places. Here a difference below zero, a number too large for its width and a place
outside of a run or a table end the computation with a fault. None of this ever happens: the forms leave only
octets from that of `0` on, at least one for each character, and what is summed up is small.

* `Fault`, `Checked.get`, `Checked.slice`, `Checked.sub`, `Checked.fit`: the steps that may fail.
* `Numeric`: octets that digits may be read from.
* `Checked.number_eq`, `Checked.weighted_eq`: numbers and sums of such octets, within their bounds.
* `Checked.card_checks_never_fail`: **no check fails**, and each comes to what `Region.accepts` says.
-/

namespace Validation.IdCard

open Text

/-- What ends a computation in machine arithmetic. -/
inductive Fault where
  /-- A place, or an end of a slice, is not one of the run or table. -/
  | place
  /-- A difference of unsigned integers is below zero. -/
  | underflow
  /-- A number has no room in its width. -/
  | overflow
deriving DecidableEq

namespace Checked

/-! ### Steps -/

/-- The member at a place. -/
def get {α : Type} (xs : List α) (i : Nat) : Except Fault α :=
  match xs[i]? with
  | some x => .ok x
  | none => .error .place

/-- The members from one place up to another. -/
def slice {α : Type} (xs : List α) (start stop : Nat) : Except Fault (List α) :=
  if start ≤ stop ∧ stop ≤ xs.length then .ok ((xs.drop start).take (stop - start))
  else .error .place

/-- A difference of unsigned integers. -/
def sub (a b : Nat) : Except Fault Nat := if b ≤ a then .ok (a - b) else .error .underflow

/-- A number in a width of bits. -/
def fit (width n : Nat) : Except Fault Nat := if n < 2 ^ width then .ok n else .error .overflow

/-- A sum in 32 bits. -/
def add (a b : Nat) : Except Fault Nat := fit 32 (a + b)

/-- A product in 32 bits. -/
def mul (a b : Nat) : Except Fault Nat := fit 32 (a * b)

section Steps

variable {α : Type} {xs : List α} {x : α} {i start stop a b width n : Nat}

theorem get_eq (h : xs[i]? = some x) : get xs i = .ok x := by rw [get, h]

theorem slice_eq (hstart : start ≤ stop) (hstop : stop ≤ xs.length) :
    slice xs start stop = .ok ((xs.drop start).take (stop - start)) := if_pos ⟨hstart, hstop⟩

theorem sub_eq (h : b ≤ a) : sub a b = .ok (a - b) := if_pos h

theorem fit_eq (h : n < 2 ^ width) : fit width n = .ok n := if_pos h

theorem add_eq (h : a + b < 2 ^ 32) : add a b = .ok (a + b) := fit_eq h

theorem mul_eq (h : a * b < 2 ^ 32) : mul a b = .ok (a * b) := fit_eq h

end Steps

/-! ### Numbers and sums of octets -/

/-- The digit that an octet stands for. -/
def digit (octet : Nat) : Except Fault Nat := sub octet '0'.toNat

/-- The number that a run of octets stands for, behind the digits of another number. -/
def number : Nat → List Nat → Except Fault Nat
  | n, [] => .ok n
  | n, o :: os => do number (← add (← mul n 10) (← digit o)) os

/-- The number that the octets from one place up to another stand for. -/
def numberAt (os : List Nat) (start stop : Nat) : Except Fault Nat := do
  number 0 (← slice os start stop)

/-- The sum of the digits times their weights, as far as both go, added to a sum. -/
def weighted : Nat → List Nat → List Nat → Except Fault Nat
  | sum, o :: os, weight :: weights => do
    weighted (← add sum (← mul (← digit o) weight)) os weights
  | sum, _, _ => .ok sum

/-- Octets that digits may be read from. -/
def Numeric (os : List Nat) : Prop := ∀ o ∈ os, '0'.toNat ≤ o ∧ o < 256

section Sums

variable {o n sum start stop : Nat} {os ws : List Nat} {cs : List Char}

/-- **The octets of characters from `0` on** are such octets. -/
theorem numeric_octets (h : ∀ c ∈ cs, '0'.toNat ≤ c.toNat) : Numeric (octets cs) := fun _ ho =>
  ⟨zero_le_of_mem_octets h ho, lt_of_mem_octets ho⟩

theorem Numeric.slice (h : Numeric os) (start n : Nat) : Numeric ((os.drop start).take n) := fun o ho =>
  h o (List.mem_of_mem_drop (List.mem_of_mem_take ho))

theorem digit_lt (h : o < 256) : IdCard.digit o < 208 := by
  simp only [IdCard.digit, Char.reduceToNat]
  omega

theorem digit_mul_le {w : Nat} (ho : o < 256) (hw : w ≤ 10) : IdCard.digit o * w ≤ 2070 := by
  have hdigit := digit_lt ho
  exact Nat.mul_le_mul (by omega : IdCard.digit o ≤ 207) hw

theorem digit_eq (h : '0'.toNat ≤ o) : digit o = .ok (IdCard.digit o) := sub_eq h

/-- **A number of a few octets has room.** A digit is at most 207, so with each octet what is to be bounded
grows by the factor ten. -/
theorem number_eq (hos : Numeric os) (hn : (n + 23) * 10 ^ os.length ≤ 2 ^ 32) :
    number n os = .ok (os.foldl (fun n o => 10 * n + IdCard.digit o) n) := by
  induction os generalizing n with
  | nil => rfl
  | cons o os ih =>
    obtain ⟨ho, hos⟩ := List.forall_mem_cons.1 hos
    have hdigit := digit_lt ho.2
    have hpos : 0 < 10 ^ os.length := Nat.pow_pos (by decide)
    have hstep : (n + 23) * 10 ^ (os.length + 1) = (n * 10 + 230) * 10 ^ os.length := by ring
    rw [List.length_cons, hstep] at hn
    have hroom : n * 10 + 230 ≤ 2 ^ 32 := (Nat.le_mul_of_pos_right _ hpos).trans hn
    have hnext : (n * 10 + IdCard.digit o + 23) * 10 ^ os.length ≤ 2 ^ 32 :=
      (Nat.mul_le_mul_right _ (by omega)).trans hn
    rw [number, mul_eq (by omega), digit_eq ho.1, ok_bind, ok_bind, add_eq (by omega), ok_bind,
      ih hos hnext, List.foldl_cons, Nat.mul_comm n 10]

/-- A number of a few octets is small. -/
theorem number_le (hos : Numeric os) (n : Nat) :
    os.foldl (fun n o => 10 * n + IdCard.digit o) n + 23 ≤ (n + 23) * 10 ^ os.length := by
  induction os generalizing n with
  | nil => simp
  | cons o os ih =>
    obtain ⟨ho, hos⟩ := List.forall_mem_cons.1 hos
    have hdigit := digit_lt ho.2
    have hstep : (n + 23) * 10 ^ (os.length + 1) = (10 * n + 230) * 10 ^ os.length := by ring
    rw [List.foldl_cons, List.length_cons, hstep]
    exact (ih hos _).trans (Nat.mul_le_mul_right _ (by omega))

theorem pow_length_slice_le (os : List Nat) {start stop : Nat} (hshort : stop - start ≤ 4) :
    10 ^ ((os.drop start).take (stop - start)).length ≤ 10 ^ 4 := by
  refine Nat.pow_le_pow_right (by decide) ?_
  rw [List.length_take]
  omega

theorem numberAt_eq (hos : Numeric os) (hstart : start ≤ stop) (hstop : stop ≤ os.length)
    (hshort : stop - start ≤ 4) : numberAt os start stop = .ok (IdCard.numberAt os start stop) := by
  have hpow := pow_length_slice_le os hshort
  rw [numberAt, slice_eq hstart hstop, ok_bind, number_eq (hos.slice _ _) (by omega)]
  rfl

theorem numberAt_lt (hos : Numeric os) (hshort : stop - start ≤ 4) :
    IdCard.numberAt os start stop < 23 * 10 ^ 4 := by
  have hpow := pow_length_slice_le os hshort
  have hle : IdCard.numberAt os start stop + 23 ≤ _ := number_le (hos.slice start (stop - start)) 0
  omega

/-- A sum of a few octets is small. -/
theorem weighted_le (hos : Numeric os) (hws : ∀ w ∈ ws, w ≤ 10) :
    IdCard.weighted os ws ≤ 2070 * ws.length := by
  induction os generalizing ws with
  | nil => exact Nat.zero_le _
  | cons o os ih =>
    obtain ⟨ho, hos⟩ := List.forall_mem_cons.1 hos
    cases ws with
    | nil => exact Nat.zero_le _
    | cons w ws =>
      obtain ⟨hw, hws⟩ := List.forall_mem_cons.1 hws
      have hproduct := digit_mul_le ho.2 hw
      have hrest := ih hos hws
      rw [IdCard.weighted, List.length_cons]
      omega

/-- **A sum with a few weights has room.** -/
theorem weighted_eq (hos : Numeric os) (hws : ∀ w ∈ ws, w ≤ 10)
    (hsum : sum + 2070 * ws.length < 2 ^ 32) :
    weighted sum os ws = .ok (sum + IdCard.weighted os ws) := by
  induction os generalizing sum ws with
  | nil => rfl
  | cons o os ih =>
    obtain ⟨ho, hos⟩ := List.forall_mem_cons.1 hos
    cases ws with
    | nil => rfl
    | cons w ws =>
      obtain ⟨hw, hws⟩ := List.forall_mem_cons.1 hws
      have hproduct := digit_mul_le ho.2 hw
      rw [List.length_cons] at hsum
      rw [weighted, digit_eq ho.1, ok_bind, mul_eq (by omega), ok_bind, add_eq (by omega), ok_bind,
        ih hos hws (by omega), IdCard.weighted, Nat.add_assoc]

end Sums

/-! ### The checks -/

/-- The check of a mainland number, of the old form first if this is admitted. -/
def isMainland (legacy : Bool) (cs : List Char) : Except Fault Bool :=
  let os := octets cs
  if legacy && isLegacyForm cs then do
    let year ← add 1900 (← numberAt os 6 8)
    return isDate year (← numberAt os 8 10) (← numberAt os 10 12)
  else if isMainlandForm cs then do
    if isDate (← numberAt os 6 10) (← numberAt os 10 12) (← numberAt os 12 14) then
      let sum ← weighted 0 (← slice os 0 17) mainlandWeights
      return (← get mainlandChecks (sum % 11)).toNat == upper (← get os 17)
    else return false
  else return false

/-- The form of a Taiwanese number. -/
def isTaiwanForm : List Char → Bool
  | letter :: sex :: digits =>
    isAsciiUpper letter && (sex == '1' || sex == '2') && digits.length == 8 && digits.all isDigit
  | _ => false

/-- The check of a Taiwanese number. -/
def isTaiwan (cs : List Char) : Except Fault Bool :=
  let os := octets cs
  if isTaiwanForm cs then do
    let area ← get taiwanLetters (← sub (← get os 0) 'A'.toNat)
    let body ← weighted 0 (← slice os 1 9) [8, 7, 6, 5, 4, 3, 2, 1]
    let sum ← add (← add (← add (area / 10) (← mul (area % 10) 9)) body) (← digit (← get os 9))
    return sum % 10 == 0
  else return false

/-- The number of a letter of a Hong Kong number. -/
def letterNumber (octet : Nat) : Except Fault Nat := do add (← sub octet 'A'.toNat) 10

/-- The part of the sum that the letters of a Hong Kong number make up. -/
def letterSum? : List Nat → Except Fault (Option Nat)
  | [single] => do return some (← add (36 * 9) (← mul (← letterNumber single) 8))
  | [first, second] => do
    return some (← add (← mul (← letterNumber first) 9) (← mul (← letterNumber second) 8))
  | _ => return none

/-- The octet of the check character of a sum. -/
def hongKongCheck (sum : Nat) : Except Fault Nat := do
  match (← sub 11 (sum % 11)) % 11 with
  | 10 => return 'A'.toNat
  | n => fit 8 ('0'.toNat + n)

/-- The check of a Hong Kong number. -/
def isHongKong (cs : List Char) : Except Fault Bool :=
  match hongKongParts? cs with
  | none => return false
  | some p => do
    match ← letterSum? (octets p.letters) with
    | none => return false
    | some letters =>
      let body ← weighted 0 (octets p.digits) hongKongWeights
      let expected ← hongKongCheck (← add letters body)
      return (← get (octets [p.check]) 0) == expected

/-- Whether a text is a card number of a region, with those of the old form if this is admitted. -/
def accepts (r : Region) (legacy : Bool) (number : String) : Except Fault Bool :=
  match r with
  | .mainland => isMainland legacy number.toList
  | .taiwan => isTaiwan number.toList
  | .hongKong => isHongKong number.toList

/-! ### No check fails -/

section Checks

variable {cs : List Char}

theorem zero_le_of_isAsciiUpper {c : Char} (h : isAsciiUpper c = true) : '0'.toNat ≤ c.toNat :=
  Nat.le_trans (by decide) (isAsciiUpper_iff.1 h).1

theorem isMainland_eq (legacy : Bool) (cs : List Char) : isMainland legacy cs =
    .ok (if legacy && isLegacyForm cs then isLegacyDate cs else IdCard.isMainland cs) := by
  have hlong := length_le_length_octets cs
  simp only [isMainland]
  split_ifs with hold hform
  · -- fifteen digits have fifteen octets at least, and the date ends with the twelfth
    have hlegacy : isLegacyForm cs = true := (Bool.and_eq_true_iff.1 hold).2
    simp only [isLegacyForm, Bool.and_eq_true, beq_iff_eq, List.all_eq_true] at hlegacy
    have hos : Numeric (octets cs) := numeric_octets fun c hc => zero_le_of_isDigit (hlegacy.2 c hc)
    have hyear : IdCard.numberAt (octets cs) 6 8 < 23 * 10 ^ 4 := numberAt_lt hos (by decide)
    rw [numberAt_eq hos (by decide) (by omega) (by decide), ok_bind, add_eq (by omega), ok_bind,
      numberAt_eq hos (by decide) (by omega) (by decide), ok_bind,
      numberAt_eq hos (by decide) (by omega) (by decide), ok_bind]
    rfl
  · -- the letter X behind the digits is above `0` as well
    have hshape := isMainlandForm_iff.1 hform
    have hos : Numeric (octets cs) := numeric_octets fun c hc => by
      rcases hshape.forall_mem c hc with hdigit | rfl | rfl
      · exact zero_le_of_isDigit hdigit
      · decide
      · decide
    rw [hshape.length] at hlong
    have hweights : ∀ w ∈ mainlandWeights, w ≤ 10 := by decide
    obtain ⟨c, hc⟩ : ∃ c,
        mainlandChecks[IdCard.weighted ((octets cs).take 17) mainlandWeights % 11]? = some c :=
      ⟨_, List.getElem?_eq_getElem (Nat.mod_lt _ (by decide))⟩
    obtain ⟨o, ho⟩ : ∃ o, (octets cs)[17]? = some o := ⟨_, List.getElem?_eq_getElem (by omega)⟩
    rw [numberAt_eq hos (by decide) (by omega) (by decide), ok_bind,
      numberAt_eq hos (by decide) (by omega) (by decide), ok_bind,
      numberAt_eq hos (by decide) (by omega) (by decide), ok_bind,
      slice_eq (by decide) (by omega), ok_bind, weighted_eq (hos.slice _ _) hweights (by decide), ok_bind,
      List.drop_zero, Nat.zero_add, get_eq hc, ok_bind, get_eq ho, ok_bind]
    simp only [IdCard.isMainland, hform, Bool.true_and, hc, ho]
    cases isDate _ _ _ <;> rfl
  · have hrefused : IdCard.isMainland cs = false := by
      simp only [IdCard.isMainland, Bool.not_eq_true] at *
      simp [hform]
    rw [hrefused]
    rfl

theorem isTaiwanForm_of_isTaiwan (h : IdCard.isTaiwan cs = true) : isTaiwanForm cs = true := by
  match cs, h with
  | letter :: sex :: digits, h =>
    unfold IdCard.isTaiwan at h
    exact (Bool.and_eq_true_iff.1 h).1

theorem taiwanLetters_lt : ∀ area ∈ taiwanLetters, area < 36 := by decide

/-- The first octet of a Taiwanese number leads to the number of its area. -/
theorem exists_area {letter : Char} (hletter : isAsciiUpper letter = true) (cs : List Char) :
    (octets (letter :: cs))[0]? = some letter.toNat ∧ 'A'.toNat ≤ letter.toNat ∧
      ∃ area, taiwanLetters[letter.toNat - 'A'.toNat]? = some area ∧ area < 36 := by
  obtain ⟨hlow, hhigh⟩ := isAsciiUpper_iff.1 hletter
  have hplace : letter.toNat - 'A'.toNat < taiwanLetters.length := by
    simp only [Char.reduceToNat, taiwanLetters, List.length_cons, List.length_nil]
    omega
  refine ⟨?_, hlow, _, List.getElem?_eq_getElem hplace, taiwanLetters_lt _ (List.getElem_mem hplace)⟩
  rw [octets_cons, octets_singleton_of_ascii (by omega)]
  rfl

theorem isTaiwan_eq (cs : List Char) : isTaiwan cs = .ok (IdCard.isTaiwan cs) := by
  simp only [isTaiwan]
  split_ifs with hform
  · match cs, hform with
    | letter :: sex :: digits, hform =>
    simp only [isTaiwanForm] at hform
    have hparts := hform
    simp only [Bool.and_eq_true, Bool.or_eq_true, beq_iff_eq, List.all_eq_true] at hparts
    obtain ⟨⟨⟨hletter, hsex⟩, hlength⟩, hdigits⟩ := hparts
    obtain ⟨hfirst, hlow, area, harea, harea_lt⟩ := exists_area hletter (sex :: digits)
    have hos : Numeric (octets (letter :: sex :: digits)) := by
      refine numeric_octets (List.forall_mem_cons.2 ⟨zero_le_of_isAsciiUpper hletter,
        List.forall_mem_cons.2 ⟨?_, fun c hc => zero_le_of_isDigit (hdigits c hc)⟩⟩)
      rcases hsex with rfl | rfl <;> decide
    have hlong := length_le_length_octets (letter :: sex :: digits)
    simp only [List.length_cons, hlength] at hlong
    simp only [IdCard.isTaiwan, hform, Bool.true_and, harea, Option.getD_some]
    -- from here on the octets count only: there are ten of them, from that of `0` on
    generalize octets (letter :: sex :: digits) = os at *
    obtain ⟨o, ho⟩ : ∃ o, os[9]? = some o := ⟨_, List.getElem?_eq_getElem (by omega)⟩
    have hlast := hos o (List.mem_of_getElem? ho)
    have hlast_lt := digit_lt hlast.2
    have hslice : slice os 1 9 = .ok ((os.drop 1).take 8) := slice_eq (by decide) (by omega)
    have hweights : ∀ w ∈ [8, 7, 6, 5, 4, 3, 2, 1], w ≤ 10 := by decide
    have hbody : IdCard.weighted ((os.drop 1).take 8) [8, 7, 6, 5, 4, 3, 2, 1] ≤ 2070 * 8 :=
      weighted_le (hos.slice 1 8) hweights
    rw [get_eq hfirst, ok_bind, sub_eq hlow, ok_bind, get_eq harea, ok_bind, hslice, ok_bind,
      weighted_eq (hos.slice 1 8) hweights (by decide), ok_bind, mul_eq (by omega), ok_bind,
      add_eq (by omega), ok_bind, add_eq (by omega), ok_bind, get_eq ho, ok_bind, digit_eq hlast.1,
      ok_bind, add_eq (by omega), ok_bind, ho, Option.getD_some, Nat.zero_add]
    rfl
  · have hrefused : IdCard.isTaiwan cs = false :=
      Bool.eq_false_iff.2 fun h => hform (isTaiwanForm_of_isTaiwan h)
    rw [hrefused]
    rfl

/-- The letters of a Hong Kong number have small numbers. -/
theorem letterNumber_eq {c : Char} (h : isAsciiUpper c = true) :
    letterNumber c.toNat = .ok (IdCard.letterNumber c) ∧ IdCard.letterNumber c < 36 := by
  obtain ⟨hlow, hhigh⟩ := isAsciiUpper_iff.1 h
  simp only [letterNumber, IdCard.letterNumber, Char.reduceToNat]
  refine ⟨?_, by omega⟩
  rw [sub_eq hlow, ok_bind, add_eq (by omega)]

theorem letterSum?_eq {letters : List Char} (h : ∀ c ∈ letters, isAsciiUpper c = true) :
    letterSum? (letters.map Char.toNat) = .ok (IdCard.letterSum? letters) ∧
      ∀ sum, IdCard.letterSum? letters = some sum → sum < 1000 := by
  match letters with
  | [] => exact ⟨rfl, nofun⟩
  | [single] =>
    obtain ⟨hsingle, hlt⟩ := letterNumber_eq (h single (by simp))
    refine ⟨?_, fun sum hsum => ?_⟩
    · rw [List.map_singleton, letterSum?, hsingle, ok_bind, mul_eq (by omega), ok_bind,
        add_eq (by omega)]
      rfl
    · obtain rfl := Option.some.inj hsum
      omega
  | [first, second] =>
    obtain ⟨hfirst, hfirst_lt⟩ := letterNumber_eq (h first (by simp))
    obtain ⟨hsecond, hsecond_lt⟩ := letterNumber_eq (h second (by simp))
    refine ⟨?_, fun sum hsum => ?_⟩
    · rw [List.map_cons, List.map_singleton, letterSum?, hfirst, ok_bind, mul_eq (by omega), ok_bind,
        hsecond, ok_bind, mul_eq (by omega), ok_bind, add_eq (by omega)]
      rfl
    · obtain rfl := Option.some.inj hsum
      omega
  | _ :: _ :: _ :: _ => exact ⟨rfl, nofun⟩

theorem hongKongCheck_eq (sum : Nat) :
    hongKongCheck sum = .ok (IdCard.hongKongCheck sum).toNat := by
  have hlt : (11 - sum % 11) % 11 < 11 := Nat.mod_lt _ (by decide)
  rw [hongKongCheck, IdCard.hongKongCheck, sub_eq (by omega), ok_bind]
  generalize (11 - sum % 11) % 11 = n at hlt
  interval_cases n <;> rfl

theorem isHongKong_eq (cs : List Char) : isHongKong cs = .ok (IdCard.isHongKong cs) := by
  rw [isHongKong, IdCard.isHongKong_eq]
  cases hparts : hongKongParts? cs with
  | none => rfl
  | some p =>
    -- the digits may have more octets than there are weights; the sum takes the first ones
    have hp := isPartsOf_of_eq_some hparts
    have hos : Numeric (octets p.digits) := numeric_octets fun c hc =>
      zero_le_of_isDigit (hp.isDigit_of_mem c hc)
    have hweights : ∀ w ∈ hongKongWeights, w ≤ 10 := by decide
    have hbody : IdCard.weighted (octets p.digits) hongKongWeights ≤ 2070 * 6 := weighted_le hos hweights
    have hcheck : get (octets [p.check]) 0 = .ok p.check.toNat := by
      rw [octets_singleton_of_ascii hp.check_lt]
      rfl
    obtain ⟨hletters, hletters_lt⟩ := letterSum?_eq hp.isAsciiUpper_of_mem
    rw [← octets_of_ascii hp.isAscii_letters] at hletters
    simp only [hletters, ok_bind, Option.any_some, HongKongParts.checksOut]
    cases hsum : IdCard.letterSum? p.letters with
    | none => rfl
    | some sum =>
      have hsum_lt := hletters_lt sum hsum
      have hsame : ∀ c d : Char, (c.toNat == d.toNat) = (d == c) := by
        intro c d
        rw [Bool.eq_iff_iff, beq_iff_eq, beq_iff_eq, Char.toNat_inj, eq_comm]
      change (weighted 0 _ _ >>= _) = _
      rw [weighted_eq hos hweights (by decide), ok_bind, Nat.zero_add, add_eq (by omega), ok_bind,
        hongKongCheck_eq, ok_bind, hcheck, ok_bind, hsame]
      rfl

end Checks

/-- **No check of a card number fails.** For every text, every region and with the old form or without,
the check in machine arithmetic looks at places that exist only, takes differences that are not below zero,
and finds room for its sums, although a digit may take several octets. It comes to what the region accepts. -/
theorem card_checks_never_fail (r : Region) (legacy : Bool) (number : String) :
    accepts r legacy number = .ok (r.accepts legacy number) := by
  cases r with
  | mainland => exact isMainland_eq legacy number.toList
  | taiwan => exact isTaiwan_eq number.toList
  | hongKong => exact isHongKong_eq number.toList

/-- It is the form that keeps the faults away: before `0` there is no digit, and behind the end nothing. -/
example : number 0 (octets ['4', '/']) = .error .underflow ∧
    numberAt (octets ['1', '9', '4']) 0 4 = .error .place := by
  decide

end Checked

end Validation.IdCard
