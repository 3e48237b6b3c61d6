import Mathlib.Tactic.SplitIfs
import Validation.Catalog.IdCard

/-!
# The octets of a card number

The form of a card number speaks of characters, its dates and sums of octets. Both have the same places in
a text of ASCII characters only. A digit of another script takes several octets, none of which is one of a
text in ASCII, so places shift from there on. In any case there are at least as many octets as characters,
and an octet of a digit or a letter is at least that of `0`.

* `octets_of_ascii`: the octets of ASCII characters are their codes.
* `length_le_length_octets`, `take_octets`: the places of octets and those of characters.
* `zero_le_of_mem_octets`: octets that a digit may be read from.
* `isAsciiDigit_or_of_isDigit`: a digit of some script is one in ASCII, or no ASCII character.
-/

namespace Validation.IdCard

open Text

variable {c : Char} {cs : List Char} {o : Nat}

/-- The characters are all of ASCII. -/
def IsAscii (cs : List Char) : Prop := ∀ c ∈ cs, c.toNat < 128

instance (cs : List Char) : Decidable (IsAscii cs) := List.decidableBAll _ cs

theorem octets_cons (c : Char) (cs : List Char) : octets (c :: cs) = octets [c] ++ octets cs := by
  simp [octets]

theorem octets_append (cs ds : List Char) : octets (cs ++ ds) = octets cs ++ octets ds :=
  List.flatMap_append

theorem exists_octet_of_mem_octets (h : o ∈ octets cs) : ∃ c ∈ cs, o ∈ octets [c] := by
  obtain ⟨c, hc, ho⟩ := List.mem_flatMap.1 h
  exact ⟨c, hc, List.mem_flatMap.2 ⟨c, List.mem_singleton_self c, ho⟩⟩

/-! ### One character -/

theorem octets_singleton_of_ascii (hc : c.toNat < 128) : octets [c] = [c.toNat] := by
  have hencode : String.utf8EncodeChar c = [UInt8.ofNat c.toNat] := by
    unfold String.utf8EncodeChar
    exact if_pos (Nat.le_of_lt_succ hc)
  have hoctet : (UInt8.ofNat c.toNat).toNat = c.toNat := by
    rw [UInt8.toNat_ofNat']
    omega
  simp only [octets, List.flatMap_cons, List.flatMap_nil, List.append_nil, hencode, List.map_cons,
    List.map_nil, hoctet]

/-- **No octet of another character is one of ASCII.** -/
theorem ascii_lt_of_mem_octets_singleton (hc : 128 ≤ c.toNat) (ho : o ∈ octets [c]) : 128 ≤ o := by
  have hmem : o ∈ (String.utf8EncodeChar c).map (·.toNat) := by simpa [octets] using ho
  have hlarge : 127 < c.val.toNat := hc
  have hvalid : c.val.toNat < 0x110000 := by
    have := c.valid
    unfold UInt32.isValidChar Nat.isValidChar at this
    omega
  unfold String.utf8EncodeChar at hmem
  rw [if_neg (by omega)] at hmem
  -- leading octets are at least 192, and all that follow at least 128
  split_ifs at hmem <;>
    simp only [List.map_cons, List.map_nil, List.mem_cons, List.not_mem_nil, or_false,
      UInt8.toNat_ofNat'] at hmem <;> omega

theorem lt_of_mem_octets (ho : o ∈ octets cs) : o < 256 := by
  obtain ⟨c, -, hmem⟩ := List.mem_flatMap.1 ho
  obtain ⟨b, -, rfl⟩ := List.mem_map.1 hmem
  exact b.toNat_lt

/-! ### Texts -/

/-- **The octets of ASCII characters** are their codes, so that both have the same places. -/
theorem octets_of_ascii (h : IsAscii cs) : octets cs = cs.map Char.toNat := by
  induction cs with
  | nil => rfl
  | cons c cs ih =>
    obtain ⟨hc, hcs⟩ := List.forall_mem_cons.1 h
    rw [octets_cons, octets_singleton_of_ascii hc, ih hcs]
    rfl

/-- There are at least as many octets as characters. -/
theorem length_le_length_octets (cs : List Char) : cs.length ≤ (octets cs).length := by
  induction cs with
  | nil => exact Nat.le_refl 0
  | cons c cs ih =>
    have hpos : 0 < (octets [c]).length := by
      simp [octets, String.length_utf8EncodeChar, Char.utf8Size_pos]
    rw [octets_cons, List.length_append, List.length_cons]
    omega

/-- The first octets belong to the first characters. -/
theorem take_octets (n : Nat) (cs : List Char) :
    (octets cs).take n = (octets (cs.take n)).take n := by
  have hsplit : octets cs = octets (cs.take n) ++ octets (cs.drop n) := by
    rw [← octets_append, List.take_append_drop]
  by_cases hn : n ≤ cs.length
  · have hlong := length_le_length_octets (cs.take n)
    rw [List.length_take, Nat.min_eq_left hn] at hlong
    rw [hsplit, List.take_append_of_le_length hlong]
  · rw [List.take_of_length_le (by omega : cs.length ≤ n)]

/-- **Octets to read a digit from**: those of characters from `0` on are from that of `0` on. -/
theorem zero_le_of_mem_octets (h : ∀ c ∈ cs, '0'.toNat ≤ c.toNat) (ho : o ∈ octets cs) :
    '0'.toNat ≤ o := by
  obtain ⟨c, hc, hmem⟩ := exists_octet_of_mem_octets ho
  by_cases hascii : c.toNat < 128
  · rw [octets_singleton_of_ascii hascii, List.mem_singleton] at hmem
    exact hmem ▸ h c hc
  · have := ascii_lt_of_mem_octets_singleton (Nat.le_of_not_lt hascii) hmem
    exact Nat.le_trans (by decide) this

/-! ### Digits -/

theorem isAsciiDigit_iff : isAsciiDigit c = true ↔ 48 ≤ c.toNat ∧ c.toNat ≤ 57 := by
  simp only [isAsciiDigit, Bool.and_eq_true, decide_eq_true_eq]
  exact Iff.rfl

theorem isAsciiUpper_iff : isAsciiUpper c = true ↔ 65 ≤ c.toNat ∧ c.toNat ≤ 90 := by
  simp only [isAsciiUpper, Bool.and_eq_true, decide_eq_true_eq]
  exact Iff.rfl

/-- **A digit of some script** is one of `0` to `9`, or no ASCII character. -/
theorem isAsciiDigit_or_of_isDigit (h : isDigit c = true) : isAsciiDigit c = true ∨ 128 ≤ c.toNat := by
  have hranges : ∀ range ∈ digitRanges, range = ('0'.toNat, '9'.toNat) ∨ 128 ≤ range.1 := by decide
  obtain ⟨⟨low, high⟩, hmem, hin⟩ := List.any_eq_true.1 h
  simp only [Bool.and_eq_true, decide_eq_true_eq] at hin
  rcases hranges _ hmem with heq | hlarge
  · obtain ⟨rfl, rfl⟩ := Prod.mk.inj heq
    exact .inl (isAsciiDigit_iff.2 hin)
  · exact .inr (Nat.le_trans hlarge hin.1)

theorem isDigit_of_isAsciiDigit (h : isAsciiDigit c = true) : isDigit c = true := by
  refine List.any_eq_true.2 ⟨('0'.toNat, '9'.toNat), by decide, ?_⟩
  simp only [Bool.and_eq_true, decide_eq_true_eq]
  exact isAsciiDigit_iff.1 h

theorem isDigit_eq_isAsciiDigit (hc : c.toNat < 128) : isDigit c = isAsciiDigit c := by
  rw [Bool.eq_iff_iff]
  refine ⟨fun h => (isAsciiDigit_or_of_isDigit h).resolve_right (by omega), isDigit_of_isAsciiDigit⟩

theorem zero_le_of_isDigit (h : isDigit c = true) : '0'.toNat ≤ c.toNat := by
  rcases isAsciiDigit_or_of_isDigit h with hascii | hlarge
  · exact (isAsciiDigit_iff.1 hascii).1
  · exact Nat.le_trans (by decide) hlarge

end Validation.IdCard
