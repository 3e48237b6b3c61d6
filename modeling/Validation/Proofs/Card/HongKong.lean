import Validation.Proofs.Card.Octets

/-!
# The parts of a Hong Kong number

The form of a Hong Kong number singles out its letters, its digits and its check character, however this is
written. The sum is taken from the parts.

* `hongKongParts?`: the parts of a text.
* `IsPartsOf`, `isPartsOf_of_eq_some`: what they are.
* `isHongKong_eq`: a number is accepted by its parts.
-/

namespace Validation.IdCard

open Text

variable {cs : List Char} {c : Char}

/-- The parts of a Hong Kong number. -/
structure HongKongParts where
  letters : List Char
  digits : List Char
  check : Char

/-- The weights of the digits. -/
def hongKongWeights : List Nat := [7, 6, 5, 4, 3, 2]

/-- The parts of a text of the form of a Hong Kong number. -/
def hongKongParts? (cs : List Char) : Option HongKongParts :=
  let letters := cs.takeWhile isAsciiUpper
  let rest := cs.drop letters.length
  let digits := rest.take 6
  if (letters.length = 1 ∨ letters.length = 2) ∧ digits.length = 6 ∧ digits.all isDigit = true then
    (writtenCheck? (rest.drop 6)).map fun check => ⟨letters, digits, check⟩
  else none

/-- A text is made of these parts. -/
structure HongKongParts.IsPartsOf (p : HongKongParts) (cs : List Char) : Prop where
  letters_eq : p.letters = cs.takeWhile isAsciiUpper
  letters_length : p.letters.length = 1 ∨ p.letters.length = 2
  digits_length : p.digits.length = 6
  isDigit_of_mem : ∀ c ∈ p.digits, isDigit c = true
  spelled : ∃ written, cs = p.letters ++ (p.digits ++ written) ∧ writtenCheck? written = some p.check

/-- Whether the check character is that of the sum. -/
def HongKongParts.checksOut (p : HongKongParts) : Bool :=
  (letterSum? p.letters).any fun sum =>
    hongKongCheck (sum + weighted (octets p.digits) hongKongWeights) == p.check

/-- Only one letter or two have a part in the sum. -/
theorem isSome_letterSum?_iff {letters : List Char} :
    (letterSum? letters).isSome = true ↔ letters.length = 1 ∨ letters.length = 2 := by
  match letters with
  | [] => simp [letterSum?]
  | [_] => simp [letterSum?]
  | [_, _] => simp [letterSum?]
  | _ :: _ :: _ :: _ => simp [letterSum?]

/-- **A number is accepted by its parts.** -/
theorem isHongKong_eq (cs : List Char) :
    isHongKong cs = (hongKongParts? cs).any HongKongParts.checksOut := by
  simp only [isHongKong, hongKongParts?]
  generalize cs.takeWhile isAsciiUpper = letters
  generalize cs.drop letters.length = rest
  simp only [← isSome_letterSum?_iff]
  by_cases hdigits : (rest.take 6).length = 6 ∧ (rest.take 6).all isDigit = true
  · cases hsum : letterSum? letters <;> cases writtenCheck? (rest.drop 6) <;>
      simp [HongKongParts.checksOut, hongKongWeights, hsum, hdigits]
  · have hrefused : ((rest.take 6).length == 6 && (rest.take 6).all isDigit) = false := by
      rwa [← Bool.not_eq_true, Bool.and_eq_true, beq_iff_eq]
    rw [hrefused, if_neg fun h => hdigits h.2]
    split <;> rfl

/-- **The check character** is a digit or the letter A, in parentheses or without. -/
theorem writtenCheck?_eq_some {written : List Char} (h : writtenCheck? written = some c) :
    (isAsciiDigit c = true ∨ c = 'A') ∧ (written = [c] ∨ written = ['(', c, ')']) := by
  have hcheck : ∀ d, (if (isAsciiDigit d || d == 'A') = true then some d else none) = some c →
      (isAsciiDigit c = true ∨ c = 'A') ∧ d = c := by
    intro d hd
    obtain ⟨hclass, hsome⟩ := Option.ite_none_right_eq_some.1 hd
    obtain rfl := Option.some.inj hsome
    exact ⟨by simpa using hclass, rfl⟩
  unfold writtenCheck? at h
  split at h
  · obtain ⟨hclass, rfl⟩ := hcheck _ h
    exact ⟨hclass, .inl rfl⟩
  · obtain ⟨hclass, rfl⟩ := hcheck _ h
    exact ⟨hclass, .inr rfl⟩
  · cases h

/-- **The parts of a text** are what its form says. -/
theorem isPartsOf_of_eq_some {p : HongKongParts} (h : hongKongParts? cs = some p) : p.IsPartsOf cs := by
  simp only [hongKongParts?] at h
  have hsplit : cs.takeWhile isAsciiUpper ++ cs.drop (cs.takeWhile isAsciiUpper).length = cs :=
    List.prefix_iff_eq_append.1 (List.takeWhile_prefix _)
  split at h
  · next hform =>
    obtain ⟨check, hcheck, rfl⟩ := Option.map_eq_some_iff.1 h
    obtain ⟨hletters, hlength, hdigits⟩ := hform
    refine ⟨rfl, hletters, hlength, List.all_eq_true.1 hdigits, _, ?_, hcheck⟩
    rw [List.take_append_drop, hsplit]
  · cases h

namespace HongKongParts.IsPartsOf

variable {p : HongKongParts}

theorem isAsciiUpper_of_mem (h : p.IsPartsOf cs) : ∀ c ∈ p.letters, isAsciiUpper c = true := by
  intro c hc
  rw [h.letters_eq] at hc
  exact List.all_eq_true.1 List.all_takeWhile c hc

theorem isAscii_letters (h : p.IsPartsOf cs) : IsAscii p.letters := by
  intro c hc
  have := (isAsciiUpper_iff.1 (h.isAsciiUpper_of_mem c hc)).2
  omega

theorem check_lt (h : p.IsPartsOf cs) : p.check.toNat < 128 := by
  obtain ⟨written, -, hwritten⟩ := h.spelled
  rcases (writtenCheck?_eq_some hwritten).1 with hdigit | heq
  · have := (isAsciiDigit_iff.1 hdigit).2
    omega
  · rw [heq]
    decide

end HongKongParts.IsPartsOf

end Validation.IdCard
