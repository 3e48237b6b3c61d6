import Mathlib.Data.List.TakeWhile
import Validation.Catalog.Domain

/-!
# Integers and blanks as they are written

An integer is written in decimal digits, with a sign or without and with any number of zeros before
them, and is read back as it is. Its characters are none of those that an expression is made of
otherwise, so it is found again wherever it stands between such characters and blanks.

* `Spells`: the ways to write an integer.
* `readNumber_of_spells`: an integer of 64 bits is read as itself.
* `Pads`: a text with blanks around it.
* `trim_of_pads`: the blanks are taken off again.
* `scan_of_pads`: a padded text before a character at which the reading stops.
-/

namespace Validation.Domain

open Text Decimal

variable {n : Int} {c : Char} {cs text padded rest : List Char}

/-! ### Integers -/

/-- The decimal digits of a natural number, with zeros before them. -/
def digits (zeros n : Nat) : List Char := List.replicate zeros '0' ++ Nat.toDigits 10 n

/-- **The ways to write an integer.** -/
inductive Spells : Int → List Char → Prop
  | plain (zeros n : Nat) : Spells n (digits zeros n)
  | plus (zeros n : Nat) : Spells n ('+' :: digits zeros n)
  | minus (zeros n : Nat) : Spells (-n) ('-' :: digits zeros n)

/-- Whether an integer may be written with the character. -/
def isNumeral (c : Char) : Bool := isAsciiDigit c || c == '+' || c == '-'

theorem isAsciiDigit_of_mem_digits {zeros n : Nat} (hc : c ∈ digits zeros n) :
    isAsciiDigit c = true := by
  rcases List.mem_append.1 hc with hc | hc
  · rw [List.eq_of_mem_replicate hc]
    decide
  · have hdigit : c.isDigit = true := Nat.isDigit_of_mem_toDigits (by decide) (by decide) hc
    simpa [isAsciiDigit, Char.isDigit, Char.le_def] using hdigit

theorem digits_ne_nil (zeros n : Nat) : digits zeros n ≠ [] := by
  simp [digits, Nat.toDigits_ne_nil]

theorem valueOf_digits (zeros n : Nat) : valueOf (digits zeros n) = n := by
  rw [valueOf, ← Nat.ofDigitChars_eq_foldl, digits, Nat.ofDigitChars_append,
    Nat.ofDigitChars_replicate_zero, Nat.mul_zero, Nat.ofDigitChars_ten_toDigits]

theorem readNat?_digits (zeros n : Nat) : readNat? (digits zeros n) = some n := by
  have hne : (digits zeros n).isEmpty = false := by simpa using digits_ne_nil zeros n
  have hall : (digits zeros n).all isAsciiDigit = true :=
    List.all_eq_true.2 fun c hc => isAsciiDigit_of_mem_digits hc
  rw [readNat?, hne, if_neg Bool.false_ne_true, if_pos hall, valueOf_digits]

theorem readSign_digits (zeros n : Nat) : readSign (digits zeros n) = (false, digits zeros n) := by
  have hdigits : ∀ c ∈ digits zeros n, isAsciiDigit c = true := fun c => isAsciiDigit_of_mem_digits
  cases hcs : digits zeros n with
  | nil => rfl
  | cons c cs =>
    rw [hcs] at hdigits
    have hc : isAsciiDigit c = true := hdigits c List.mem_cons_self
    -- a digit is no sign
    unfold readSign
    split
    case h_1 heq =>
      cases heq
      cases hc
    case h_2 heq =>
      cases heq
      cases hc
    case h_3 => rfl

/-- **An integer is read back as it is written.** -/
theorem readInt?_of_spells (h : Spells n cs) : readInt? cs = some n := by
  cases h with
  | plain zeros n => simp [readInt?, readSign_digits, readNat?_digits]
  | plus zeros n => simp [readInt?, readSign, readNat?_digits]
  | minus zeros n => simp [readInt?, readSign, readNat?_digits]

theorem readNumber_of_spells {v : Int64} (h : Spells v.toInt cs) :
    readNumber cs = .ok (.int v.toInt) := by
  have hrange : decide (-0x8000000000000000 ≤ v.toInt) && decide (v.toInt ≤ 0x7FFFFFFFFFFFFFFF) := by
    have hlow := v.le_toInt
    have hhigh := v.toInt_lt
    simp only [Bool.and_eq_true, decide_eq_true_eq]
    omega
  rw [readNumber, readInt?_of_spells h, Option.filter_some, if_pos hrange]

theorem Spells.isNumeral (h : Spells n cs) : ∀ c ∈ cs, isNumeral c = true := by
  have hdigits : ∀ zeros n : Nat, ∀ c ∈ digits zeros n, Domain.isNumeral c = true := by
    intro zeros n c hc
    rw [Domain.isNumeral, isAsciiDigit_of_mem_digits hc]
    rfl
  cases h with
  | plain zeros n => exact hdigits zeros n
  | plus zeros n => exact List.forall_mem_cons.2 ⟨rfl, hdigits zeros n⟩
  | minus zeros n => exact List.forall_mem_cons.2 ⟨rfl, hdigits zeros n⟩

theorem Spells.ne_nil (h : Spells n cs) : cs ≠ [] := by
  cases h with
  | plain zeros n => exact digits_ne_nil zeros n
  | plus zeros n => exact List.cons_ne_nil _ _
  | minus zeros n => exact List.cons_ne_nil _ _

/-- An integer is spelled as it stands in a message. -/
theorem spells_toString (n : Int) : Spells n (toString n).toList := by
  cases n with
  | ofNat n =>
    have hdigits : (toString (Int.ofNat n)).toList = digits 0 n := by
      simp [Int.toString_eq_repr, Int.repr, digits]
    rw [hdigits]
    exact .plain 0 n
  | negSucc n =>
    have hdigits : (toString (Int.negSucc n)).toList = '-' :: digits 0 (n + 1) := by
      simp [Int.toString_eq_repr, Int.repr, digits]
    rw [hdigits]
    exact .minus 0 (n + 1)

/-- Every integer can be written. -/
theorem exists_spells (n : Int) : ∃ cs, Spells n cs := by
  rcases Int.eq_nat_or_neg n with ⟨n, rfl | rfl⟩
  · exact ⟨_, .plain 0 n⟩
  · exact ⟨_, .minus 0 n⟩

/-- A character with which integers are written is neither blank nor one of those between which they
stand. -/
theorem not_isBlank_of_isNumeral (h : isNumeral c = true) : isBlank c = false := by
  have hcode : c.toNat = 43 ∨ c.toNat = 45 ∨ 48 ≤ c.toNat ∧ c.toNat ≤ 57 := by
    simp only [isNumeral, isAsciiDigit, Bool.or_eq_true, Bool.and_eq_true, decide_eq_true_eq,
      beq_iff_eq] at h
    rcases h with (⟨hlow, hhigh⟩ | rfl) | rfl
    · exact .inr (.inr ⟨hlow, hhigh⟩)
    · exact .inl rfl
    · exact .inr (.inl rfl)
  simp only [isBlank, inRanges, blankRanges, List.any_cons, List.any_nil, Bool.or_false,
    Bool.or_eq_false_iff, Bool.and_eq_false_iff, decide_eq_false_iff_not]
  omega

/-! ### Blanks -/

/-- A text with blanks before it and after it. -/
def Pads (text padded : List Char) : Prop :=
  ∃ before after, (∀ c ∈ before, isBlank c = true) ∧ (∀ c ∈ after, isBlank c = true) ∧
    padded = before ++ text ++ after

/-- There are no blanks at the ends of the text. -/
structure Trimmed (text : List Char) : Prop where
  start : trimStart text = text
  finish : trimEnd text = text

theorem trimStart_append (h : ∀ c ∈ cs, isBlank c = true) : trimStart (cs ++ rest) = trimStart rest :=
  List.dropWhile_append_of_pos h

theorem trimEnd_append (h : ∀ c ∈ rest, isBlank c = true) : trimEnd (cs ++ rest) = trimEnd cs := by
  rw [trimEnd, List.reverse_append, List.dropWhile_append_of_pos fun c hc => h c (List.mem_reverse.1 hc),
    trimEnd]

theorem trimStart_cons (h : isBlank c = false) : trimStart (c :: rest) = c :: rest :=
  List.dropWhile_cons_of_neg (by simp [h])

theorem trimEnd_concat (h : isBlank c = false) : trimEnd (cs ++ [c]) = cs ++ [c] := by
  rw [trimEnd, List.reverse_append, List.reverse_singleton, List.singleton_append,
    List.dropWhile_cons_of_neg (by simp [h])]
  simp

theorem trimmed_of_not_blank (h : ∀ c ∈ text, isBlank c = false) : Trimmed text := by
  refine ⟨?_, ?_⟩
  · cases text with
    | nil => rfl
    | cons c cs => exact trimStart_cons (h c List.mem_cons_self)
  · rcases List.eq_nil_or_concat text with rfl | ⟨cs, c, rfl⟩
    · rfl
    · rw [List.concat_eq_append] at h ⊢
      exact trimEnd_concat (h c (by simp))

/-- **The blanks around a text** are taken off again. -/
theorem trim_of_pads (h : Pads text padded) (htext : Trimmed text) : trim padded = text := by
  obtain ⟨before, after, hbefore, hafter, rfl⟩ := h
  rw [trim, List.append_assoc, trimStart_append hbefore]
  cases text with
  | nil =>
    have hnil : trimStart after = [] := List.dropWhile_eq_nil_iff.2 hafter
    rw [List.nil_append, hnil]
    rfl
  | cons c cs =>
    have hc : isBlank c = false := by
      simpa using List.dropWhile_eq_self_iff.1 htext.start (Nat.succ_pos _)
    rw [List.cons_append, trimStart_cons hc, ← List.cons_append, trimEnd_append hafter, htext.finish]

/-- **A padded text before a character at which the reading stops**: after the blanks before it are
skipped it is read, and once those after it are skipped as well, the character is next. -/
theorem scan_of_pads (within : Char → Bool) (stop : Char) (rest : List Char) (h : Pads text padded)
    (hblank : ∀ c, isBlank c = true → within c = false) (htext : ∀ c ∈ text, within c = true)
    (hwithin : within stop = false) (hstop : isBlank stop = false) :
    (trimStart (padded ++ stop :: rest)).takeWhile within = text ∧
      trimStart ((trimStart (padded ++ stop :: rest)).dropWhile within) = stop :: rest := by
  obtain ⟨before, after, hbefore, hafter, rfl⟩ := h
  have hstart : trimStart (before ++ text ++ after ++ stop :: rest) =
      trimStart (text ++ (after ++ stop :: rest)) := by
    rw [List.append_assoc, List.append_assoc, trimStart_append hbefore]
  have hafterwards : trimStart (after ++ stop :: rest) = stop :: rest := by
    rw [trimStart_append hafter, trimStart_cons hstop]
  rw [hstart]
  cases text with
  | nil =>
    rw [List.nil_append, hafterwards, List.takeWhile_cons_of_neg (by simp [hwithin]),
      List.dropWhile_cons_of_neg (by simp [hwithin]), trimStart_cons hstop]
    exact ⟨rfl, rfl⟩
  | cons c cs =>
    have hc : isBlank c = false := by
      by_contra hc
      rw [Bool.not_eq_false] at hc
      exact absurd (htext c List.mem_cons_self) (by simp [hblank c hc])
    -- what follows the text starts with a blank or with the character to stop at
    have hnext : (after ++ stop :: rest).takeWhile within = [] ∧
        (after ++ stop :: rest).dropWhile within = after ++ stop :: rest := by
      cases after with
      | nil => simp [hwithin]
      | cons b after => simp [hblank b (hafter b List.mem_cons_self)]
    rw [List.cons_append, trimStart_cons hc, ← List.cons_append, List.takeWhile_append_of_pos htext,
      List.dropWhile_append_of_pos htext, hnext.1, hnext.2, hafterwards, List.append_nil]
    exact ⟨rfl, rfl⟩

theorem not_mem_of_pads (h : Pads text padded) (hc : isBlank c = false) (htext : c ∉ text) :
    c ∉ padded := by
  obtain ⟨before, after, hbefore, hafter, rfl⟩ := h
  intro hmem
  rcases List.mem_append.1 hmem with hmem | hmem
  · rcases List.mem_append.1 hmem with hmem | hmem
    · exact absurd (hbefore c hmem) (by simp [hc])
    · exact htext hmem
  · exact absurd (hafter c hmem) (by simp [hc])

theorem not_mem_intercalate {texts : List (List Char)} (hstop : c ∉ cs)
    (htexts : ∀ text ∈ texts, c ∉ text) : c ∉ cs.intercalate texts := by
  induction texts with
  | nil => exact List.not_mem_nil
  | cons text texts ih =>
    obtain ⟨htext, hrest⟩ := List.forall_mem_cons.1 htexts
    cases texts with
    | nil => rwa [List.intercalate_singleton]
    | cons text' texts =>
      rw [List.intercalate_cons_cons, List.mem_append, List.mem_append, not_or, not_or]
      exact ⟨⟨htext, hstop⟩, ih hrest⟩

theorem pads_self (text : List Char) : Pads text text := ⟨[], [], nofun, nofun, by simp⟩

end Validation.Domain
