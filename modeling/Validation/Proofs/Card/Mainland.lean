import Mathlib.Data.List.Induction
import Mathlib.Data.Nat.Digits.Defs
import Mathlib.Tactic.IntervalCases
import Validation.Proofs.Card.CheckSum
import Validation.Proofs.Card.Octets

/-!
# Mainland numbers

A mainland number is a row of seventeen digits and a check character, with a date of the Gregorian calendar
from the seventh digit on, whose values times the powers of two sum up to 1 modulo 11. All but the form is
taken from octets. So a text of ASCII characters is accepted exactly if it is such a number; a text with
digits of other scripts, if its octets read like one at the places where ASCII characters would be.

* `isDate_iff`: the dates that are accepted are those of the Gregorian calendar from 1800 on.
* `checks_iff`: the table of check characters completes each sum to 1 modulo 11.
* `isMainland_iff`: what is accepted, by octets.
* `isMainlandNumber_iff`: **the numbers by characters are the accepted texts in ASCII**.
-/

namespace Validation.IdCard

open Text

/-! ### Dates -/

/-- A leap year of the Gregorian calendar: every fourth, but of the full centuries every fourth only. -/
def IsLeapYear (year : Nat) : Prop := 4 ∣ year ∧ (100 ∣ year → 400 ∣ year)

/-- The lengths of the months of a common year. -/
def monthLengths : List Nat := [31, 28, 31, 30, 31, 30, 31, 31, 30, 31, 30, 31]

/-- A date of the Gregorian calendar. -/
structure IsGregorian (year month day : Nat) : Prop where
  month_mem : 1 ≤ month ∧ month ≤ 12
  day_pos : 1 ≤ day
  day_le : day ≤ monthLengths.getD (month - 1) 0 ∨ month = 2 ∧ day = 29 ∧ IsLeapYear year

theorem isLeap_iff (year : Nat) : isLeap year = true ↔ IsLeapYear year := by
  simp only [isLeap, IsLeapYear, Bool.or_eq_true, Bool.and_eq_true, beq_iff_eq, bne_iff_ne]
  omega

/-- The length of a month is that of a common year, with one day more in the February of a leap year. -/
theorem daysOf_eq {year month : Nat} (hmonth : 1 ≤ month ∧ month ≤ 12) : daysOf year month =
    monthLengths.getD (month - 1) 0 + if month = 2 ∧ isLeap year = true then 1 else 0 := by
  obtain ⟨hpos, hle⟩ := hmonth
  interval_cases month <;> cases hleap : isLeap year <;> simp [daysOf, monthLengths, hleap]

theorem daysOf_eq_zero {year month : Nat} (hmonth : ¬ (1 ≤ month ∧ month ≤ 12)) :
    daysOf year month = 0 := by
  simp only [daysOf, List.mem_cons, List.not_mem_nil, or_false]
  split_ifs <;> omega

/-- **The dates that are accepted** are those of the Gregorian calendar from 1800 on. -/
theorem isDate_iff (year month day : Nat) :
    isDate year month day = true ↔ 1800 ≤ year ∧ IsGregorian year month day := by
  simp only [isDate, Bool.and_eq_true, decide_eq_true_eq]
  by_cases hmonth : 1 ≤ month ∧ month ≤ 12
  · have hfebruary : month = 2 → monthLengths.getD (month - 1) 0 = 28 := by
      rintro rfl
      rfl
    have hleap := isLeap_iff year
    rw [daysOf_eq hmonth]
    constructor
    · rintro ⟨⟨hyear, hpos⟩, hle⟩
      refine ⟨hyear, hmonth, hpos, ?_⟩
      split_ifs at hle with h
      · have := hfebruary h.1
        by_cases h29 : day = 29
        · exact .inr ⟨h.1, h29, hleap.1 h.2⟩
        · exact .inl (by omega)
      · exact .inl hle
    · rintro ⟨hyear, -, hpos, hle | ⟨h2, h29, hyes⟩⟩
      · exact ⟨⟨hyear, hpos⟩, by omega⟩
      · have := hfebruary h2
        rw [if_pos ⟨h2, hleap.2 hyes⟩]
        exact ⟨⟨hyear, hpos⟩, by omega⟩
  -- there is no such month, so it has no days
  · rw [daysOf_eq_zero hmonth]
    exact iff_of_false (by omega) fun h => hmonth h.2.month_mem

/-! ### Codes

A code is the octet or the character code that stands at a place. -/

variable {cs : List Char} {os : List Nat} {o r : Nat}

/-- The number that the codes from one place up to another are the decimal digits of. -/
def numeral (codes : List Nat) (start stop : Nat) : Nat :=
  Nat.ofDigits 10 (((codes.drop start).take (stop - start)).map digit).reverse

/-- The value of a code in the sum: ten for the letter X, and else that of the digit. -/
def checkValue (code : Nat) : Nat := if code = 'X'.toNat ∨ code = 'x'.toNat then 10 else digit code

/-- The code of a digit or of the letter X. -/
def IsCheckCode (code : Nat) : Prop :=
  ('0'.toNat ≤ code ∧ code ≤ '9'.toNat) ∨ code = 'X'.toNat ∨ code = 'x'.toNat

instance : DecidablePred IsCheckCode := fun _ => inferInstanceAs (Decidable (_ ∨ _))

/-- What the codes of a mainland number say: a date from the seventh on, a digit or the letter X at the
eighteenth, and a sum of 1 modulo 11. -/
structure ChecksOut (codes : List Nat) : Prop where
  recent : 1800 ≤ numeral codes 6 10
  date : IsGregorian (numeral codes 6 10) (numeral codes 10 12) (numeral codes 12 14)
  check : ∃ code, codes[17]? = some code ∧ IsCheckCode code
  sum : dot (codes.map checkValue) (doublings 18) ≡ 1 [MOD 11]

theorem number_eq_ofDigits (os : List Nat) : number os = Nat.ofDigits 10 (os.map digit).reverse := by
  induction os using List.reverseRecOn with
  | nil => rfl
  | append_singleton os o ih =>
    have hnumber : number (os ++ [o]) = 10 * number os + digit o := by simp [number]
    rw [hnumber, ih, List.map_append, List.map_singleton, List.reverse_append, List.reverse_singleton,
      List.singleton_append, Nat.ofDigits_cons, Nat.add_comm]

theorem numberAt_eq_numeral (os : List Nat) (start stop : Nat) :
    numberAt os start stop = numeral os start stop := number_eq_ofDigits _

/-! ### The check character -/

/-- Only a capital letter X and the digits are capitals among the check codes, and each is told by its
value. -/
theorem upper_eq_iff {code : Nat} (hcode : IsCheckCode code) (hcapital : code ≠ 'x'.toNat) :
    upper o = code ↔ IsCheckCode o ∧ checkValue o = checkValue code := by
  unfold IsCheckCode at *
  simp only [upper, checkValue, digit, Char.reduceToNat] at *
  split_ifs <;> omega

theorem checkValue_lt (h : IsCheckCode o) : checkValue o < 11 := by
  unfold IsCheckCode at h
  simp only [checkValue, digit, Char.reduceToNat] at *
  split_ifs <;> omega

/-- The check characters of the table are capitals that complete the remainders to 1. -/
theorem mainlandChecks_complete : ∀ r : Fin mainlandChecks.length,
    IsCheckCode mainlandChecks[r].toNat ∧ mainlandChecks[r].toNat ≠ 'x'.toNat ∧
      (r + checkValue mainlandChecks[r].toNat) % 11 = 1 := by
  decide

/-- **The check character** of a sum is, in either case, the one that completes it to 1 modulo 11. -/
theorem checks_iff (hr : r < 11) : (mainlandChecks[r]?).map (·.toNat) = some (upper o) ↔
    IsCheckCode o ∧ r + checkValue o ≡ 1 [MOD 11] := by
  have hc : mainlandChecks[r]? = some mainlandChecks[r] := List.getElem?_eq_getElem hr
  obtain ⟨hcode, hne, hsum⟩ : IsCheckCode mainlandChecks[r].toNat ∧ _ :=
    mainlandChecks_complete ⟨r, hr⟩
  generalize mainlandChecks[r] = c at *
  rw [hc, Option.map_some, Option.some.injEq, eq_comm, upper_eq_iff hcode hne, and_congr_right_iff]
  intro ho
  have hvalue := checkValue_lt ho
  have hvalue' := checkValue_lt hcode
  constructor
  · intro heq
    rw [heq]
    exact hsum
  · intro hmod
    have hsame : r + checkValue o ≡ r + checkValue c.toNat [MOD 11] := hmod.trans (Eq.symm hsum)
    exact (hsame.add_left_cancel' r).eq_of_lt_of_lt hvalue hvalue'

/-- **The sum of a mainland number**: that of its digits, taken with the weights, and of its check
character. -/
theorem sum_eq_weighted (hdigits : ∀ o ∈ os.take 17, checkValue o = digit o) (ho : os[17]? = some o) :
    weighted (os.take 17) mainlandWeights % 11 + checkValue o ≡
      dot (os.map checkValue) (doublings 18) [MOD 11] := by
  obtain ⟨hlt, rfl⟩ := List.getElem?_eq_some_iff.1 ho
  -- octets behind the eighteenth have no weight
  have hsplit : os.map checkValue =
      (os.take 17).map digit ++ checkValue os[17] :: (os.drop 18).map checkValue := by
    conv_lhs => rw [← List.take_append_drop 17 os, List.map_append, List.drop_eq_getElem_cons hlt]
    rw [List.map_congr_left hdigits, List.map_cons]
  have hlength : ((os.take 17).map digit).length = mainlandWeights.length := by
    rw [List.length_map, List.length_take, Nat.min_eq_left (by omega)]
    rfl
  have hsum : dot (os.map checkValue) ((doublings 18).map (· % 11)) =
      weighted (os.take 17) mainlandWeights + checkValue os[17] := by
    rw [← mainlandWeights_eq, hsplit, dot_append hlength, dot_cons_cons, dot_nil_right, weighted_eq_dot,
      Nat.mul_one, Nat.add_zero]
  calc weighted (os.take 17) mainlandWeights % 11 + checkValue os[17]
      ≡ weighted (os.take 17) mainlandWeights + checkValue os[17] [MOD 11] :=
        (Nat.mod_modEq _ 11).add_right _
    _ = dot (os.map checkValue) ((doublings 18).map (· % 11)) := hsum.symm
    _ ≡ dot (os.map checkValue) (doublings 18) [MOD 11] := dot_mod 11 _ _

/-! ### The form -/

/-- The form of a mainland number, with digits of a class. -/
structure HasMainlandForm (isDigit : Char → Bool) (cs : List Char) : Prop where
  length : cs.length = 18
  digits : ∀ c ∈ cs.take 17, isDigit c = true
  last : ∀ c ∈ cs.drop 17, isDigit c = true ∨ c = 'X' ∨ c = 'x'

/-- A mainland number by its characters. -/
def IsMainlandNumber (cs : List Char) : Prop :=
  HasMainlandForm isAsciiDigit cs ∧ ChecksOut (cs.map Char.toNat)

theorem isMainlandForm_iff : isMainlandForm cs = true ↔ HasMainlandForm isDigit cs := by
  simp only [isMainlandForm, Bool.and_eq_true, beq_iff_eq, List.all_eq_true, Bool.or_eq_true, or_assoc]
  exact ⟨fun ⟨⟨hlength, hdigits⟩, hlast⟩ => ⟨hlength, hdigits, hlast⟩,
    fun h => ⟨⟨h.length, h.digits⟩, h.last⟩⟩

theorem HasMainlandForm.forall_mem {isDigit : Char → Bool} (h : HasMainlandForm isDigit cs) :
    ∀ c ∈ cs, isDigit c = true ∨ c = 'X' ∨ c = 'x' := by
  intro c hc
  rw [← List.take_append_drop 17 cs, List.mem_append] at hc
  exact hc.elim (fun hc => .inl (h.digits c hc)) (h.last c)

/-- **The form with ASCII digits** is the form in ASCII. -/
theorem hasMainlandForm_isAsciiDigit_iff :
    HasMainlandForm isAsciiDigit cs ↔ HasMainlandForm isDigit cs ∧ IsAscii cs := by
  constructor
  · intro h
    refine ⟨⟨h.length, fun c hc => isDigit_of_isAsciiDigit (h.digits c hc),
      fun c hc => (h.last c hc).imp_left isDigit_of_isAsciiDigit⟩, fun c hc => ?_⟩
    rcases h.forall_mem c hc with hdigit | rfl | rfl
    · have := (isAsciiDigit_iff.1 hdigit).2
      omega
    · decide
    · decide
  · rintro ⟨h, hascii⟩
    have hsame : ∀ c ∈ cs, isDigit c = true → isAsciiDigit c = true := fun c hc =>
      (isDigit_eq_isAsciiDigit (hascii c hc)).symm.trans
    exact ⟨h.length, fun c hc => hsame c (List.mem_of_mem_take hc) (h.digits c hc),
      fun c hc => (h.last c hc).imp_left (hsame c (List.mem_of_mem_drop hc))⟩

/-- Among the first seventeen octets there is no letter X. -/
theorem checkValue_of_mem_take_octets (h : HasMainlandForm isDigit cs) (ho : o ∈ (octets cs).take 17) :
    checkValue o = digit o := by
  rw [take_octets] at ho
  obtain ⟨c, hc, hmem⟩ := exists_octet_of_mem_octets (List.mem_of_mem_take ho)
  refine if_neg ?_
  simp only [Char.reduceToNat]
  rcases isAsciiDigit_or_of_isDigit (h.digits c hc) with hascii | hlarge
  · have hcode := (isAsciiDigit_iff.1 hascii).2
    rw [octets_singleton_of_ascii (by omega), List.mem_singleton] at hmem
    omega
  · have := ascii_lt_of_mem_octets_singleton hlarge hmem
    omega

/-! ### What is accepted -/

/-- **What is accepted**: a text of the form, in digits of any scripts, whose octets check out. -/
theorem isMainland_iff :
    isMainland cs = true ↔ HasMainlandForm isDigit cs ∧ ChecksOut (octets cs) := by
  simp only [isMainland, Bool.and_eq_true, isMainlandForm_iff, isDate_iff, beq_iff_eq,
    numberAt_eq_numeral, and_assoc, and_congr_right_iff]
  intro hform
  -- eighteen characters have at least eighteen octets, so one stands at the place of the check character
  have hlong := length_le_length_octets cs
  rw [hform.length] at hlong
  obtain ⟨o, ho⟩ : ∃ o, (octets cs)[17]? = some o := ⟨_, List.getElem?_eq_getElem (by omega)⟩
  have hr : weighted ((octets cs).take 17) mainlandWeights % 11 < 11 := Nat.mod_lt _ (by decide)
  have hsum := sum_eq_weighted (fun _ => checkValue_of_mem_take_octets hform) ho
  rw [ho, Option.map_some, checks_iff hr]
  constructor
  · rintro ⟨hrecent, hdate, hcode, hone⟩
    exact ⟨hrecent, hdate, ⟨o, ho, hcode⟩, hsum.symm.trans hone⟩
  · rintro ⟨hrecent, hdate, ⟨code, hmem, hcode⟩, hone⟩
    obtain rfl : o = code := Option.some.inj (ho.symm.trans hmem)
    exact ⟨hrecent, hdate, hcode, hsum.trans hone⟩

/-- **The numbers by characters are the accepted texts in ASCII.** -/
theorem isMainlandNumber_iff : IsMainlandNumber cs ↔ isMainland cs = true ∧ IsAscii cs := by
  rw [isMainland_iff, IsMainlandNumber, hasMainlandForm_isAsciiDigit_iff]
  constructor
  · rintro ⟨⟨hform, hascii⟩, hchecks⟩
    rw [← octets_of_ascii hascii] at hchecks
    exact ⟨⟨hform, hchecks⟩, hascii⟩
  · rintro ⟨⟨hform, hchecks⟩, hascii⟩
    rw [octets_of_ascii hascii] at hchecks
    exact ⟨⟨hform, hascii⟩, hchecks⟩

/-- **Mainland numbers are accepted by their octets.** A text is accepted if it consists of seventeen
digits of any scripts and a digit or the letter X, and its octets have a date of the Gregorian calendar from
the seventh on, a digit or the letter X at the eighteenth, and a sum of 1 modulo 11. The mainland numbers by
characters are the texts among them that are in ASCII, so what is accepted wrongly is exactly what is
accepted with a digit of another script. -/
theorem mainland_numbers_are_accepted_by_octets (number : String) :
    (Region.mainland.accepts false number = true ↔
      HasMainlandForm isDigit number.toList ∧ ChecksOut (octets number.toList)) ∧
    (IsMainlandNumber number.toList ↔
      Region.mainland.accepts false number = true ∧ IsAscii number.toList) :=
  ⟨isMainland_iff, isMainlandNumber_iff⟩

/-- A digit of three octets shifts the others by two places. The date is then found two characters earlier,
and the last two characters are not looked at. -/
theorem shifted_number_is_accepted :
    Region.mainland.accepts false "५12319491231002177" = true ∧
      ¬ IsMainlandNumber "५12319491231002177".toList := by
  refine ⟨by decide +kernel, fun h => ?_⟩
  have hdigit : isAsciiDigit '५' = true := h.1.digits '५' (by decide)
  exact absurd hdigit (by decide)

end Validation.IdCard
