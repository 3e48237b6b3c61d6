import Validation.Proofs.Card.HongKong
import Validation.Proofs.Card.Mainland

/-!
# What check characters notice

Two accepted numbers are never one slip apart. Were two mainland numbers to differ in one place, or by two
neighbours swapped, their sums would have different remainders, but both have the remainder 1. Were two Hong
Kong numbers with the same letters to differ in one digit, their sums would have different remainders and
thus different check characters; and a check character alone does not change without the sum.

* `HasMainlandForm.checkValue_inj`: the characters of a number are told by their values.
* `mainland_differsOnce`, `mainland_swapped`: the slips in a mainland number.
* `hongKongCheck_inj`: the check characters of a Hong Kong number are told by the remainders.
* `hongKong_differsOnce`: the slip in a Hong Kong number.
* `accepted_numbers_are_no_slip_apart`: both.
-/

namespace Validation.IdCard

open Text

variable {s t cs : List Char} {c d : Char}

/-! ### Mainland numbers -/

/-- A text with each small letter X made a capital. In a mainland number there is at most one, at the
end. -/
def capitalised (cs : List Char) : List Char := cs.map fun c => if c = 'x' then 'X' else c

/-- The sum of a mainland number, by its characters. -/
def mainlandSum (cs : List Char) : Nat := dot (cs.map fun c => checkValue c.toNat) (doublings 18)

theorem mainlandSum_capitalised (cs : List Char) : mainlandSum (capitalised cs) = mainlandSum cs := by
  have hvalue : ∀ c : Char, checkValue (if c = 'x' then 'X' else c).toNat = checkValue c.toNat := by
    intro c
    split_ifs with h
    · rw [h]
      rfl
    · rfl
  rw [mainlandSum, mainlandSum, capitalised, List.map_map]
  simp only [Function.comp_def, hvalue]

theorem IsMainlandNumber.sum_modEq (h : IsMainlandNumber cs) : mainlandSum cs ≡ 1 [MOD 11] := by
  have hsum := h.2.sum
  rwa [List.map_map] at hsum

theorem IsMainlandNumber.isCheckCode_of_mem (h : IsMainlandNumber cs) (hc : c ∈ cs) :
    IsCheckCode c.toNat := by
  rcases h.1.forall_mem c hc with hdigit | rfl | rfl
  · exact .inl (isAsciiDigit_iff.1 hdigit)
  · exact .inr (.inl rfl)
  · exact .inr (.inr rfl)

/-- Capital check characters are told by their values. -/
theorem eq_of_checkValue_eq (hc : IsCheckCode c.toNat) (hd : IsCheckCode d.toNat) (hcx : c ≠ 'x')
    (hdx : d ≠ 'x') (heq : checkValue c.toNat = checkValue d.toNat) : c = d := by
  have hne : ∀ {e : Char}, e ≠ 'x' → e.toNat ≠ 'x'.toNat := fun he h => he (Char.toNat_inj.1 h)
  have hupper : upper c.toNat = c.toNat := (upper_eq_iff hc (hne hcx)).2 ⟨hc, rfl⟩
  have hupper' : upper c.toNat = d.toNat := (upper_eq_iff hd (hne hdx)).2 ⟨hc, heq⟩
  exact Char.toNat_inj.1 (hupper.symm.trans hupper')

theorem IsMainlandNumber.forall_mem_capitalised (h : IsMainlandNumber cs) :
    ∀ c ∈ capitalised cs, IsCheckCode c.toNat ∧ c ≠ 'x' := by
  intro c hc
  obtain ⟨d, hd, rfl⟩ := List.mem_map.1 hc
  by_cases hx : d = 'x'
  · rw [if_pos hx]
    exact ⟨.inr (.inl rfl), by decide⟩
  · rw [if_neg hx]
    exact ⟨h.isCheckCode_of_mem hd, hx⟩

/-- **One character changed** makes no mainland number of a mainland number. -/
theorem mainland_differsOnce (hs : IsMainlandNumber s) (ht : IsMainlandNumber t) :
    ¬ DiffersOnce (capitalised s) (capitalised t) := by
  intro h
  have hvalues := h.map (f := fun c => checkValue c.toNat) fun c hc d hd =>
    eq_of_checkValue_eq (hs.forall_mem_capitalised c hc).1 (ht.forall_mem_capitalised d hd).1
      (hs.forall_mem_capitalised c hc).2 (ht.forall_mem_capitalised d hd).2
  have hlt : ∀ {cs : List Char}, IsMainlandNumber cs →
      ∀ x ∈ (capitalised cs).map fun c => checkValue c.toNat, x < 11 := fun hcs =>
    List.forall_mem_map.2 fun c hc => checkValue_lt (hcs.forall_mem_capitalised c hc).1
  have hlength : ((capitalised s).map fun c => checkValue c.toNat).length ≤ (doublings 18).length := by
    rw [List.length_map, capitalised, List.length_map, hs.1.length, length_doublings]
  refine dot_of_differsOnce hvalues (hlt hs) (hlt ht) (coprime_doublings 18) hlength ?_
  change mainlandSum (capitalised s) ≡ mainlandSum (capitalised t) [MOD 11]
  rw [mainlandSum_capitalised, mainlandSum_capitalised]
  exact hs.sum_modEq.trans ht.sum_modEq.symm

theorem checkValue_lt_ten_iff (hc : IsCheckCode c.toNat) :
    checkValue c.toNat < 10 ↔ isAsciiDigit c = true := by
  unfold IsCheckCode at hc
  simp only [isAsciiDigit_iff, checkValue, digit, Char.reduceToNat] at *
  split_ifs <;> omega

/-- The characters of one number are told by their values, since a letter X stands at the end only. -/
theorem IsMainlandNumber.checkValue_inj (h : IsMainlandNumber cs) (hc : c ∈ cs) (hd : d ∈ cs)
    (heq : checkValue c.toNat = checkValue d.toNat) : c = d := by
  have hcode := h.isCheckCode_of_mem hc
  have hcode' := h.isCheckCode_of_mem hd
  have hdigits : isAsciiDigit c = isAsciiDigit d := by
    rw [Bool.eq_iff_iff, ← checkValue_lt_ten_iff hcode, ← checkValue_lt_ten_iff hcode', heq]
  -- of equal values, both are those of digits or both are ten
  by_cases hdigit : isAsciiDigit c = true
  · have hne : ∀ {e : Char}, isAsciiDigit e = true → e ≠ 'x' := by
      rintro e he rfl
      exact absurd he (by decide)
    exact eq_of_checkValue_eq hcode hcode' (hne hdigit) (hne (hdigits ▸ hdigit)) heq
  · obtain ⟨last, hlast⟩ : ∃ last, cs.drop 17 = [last] :=
      List.length_eq_one_iff.1 (by rw [List.length_drop, h.1.length])
    have hend : ∀ e ∈ cs, isAsciiDigit e ≠ true → e = last := by
      intro e he hno
      rw [← List.take_append_drop 17 cs, hlast, List.mem_append, List.mem_singleton] at he
      exact he.resolve_left fun hmem => hno (h.1.digits e hmem)
    exact (hend c hc hdigit).trans (hend d hd (hdigits ▸ hdigit)).symm

/-- **Two neighbours swapped** make no mainland number of a mainland number. -/
theorem mainland_swapped (hs : IsMainlandNumber s) (ht : IsMainlandNumber t) : ¬ Swapped s t := by
  intro h
  have hvalues := h.map (f := fun c => checkValue c.toNat) fun c hc d hd => hs.checkValue_inj hc hd
  have hlt : ∀ x ∈ s.map fun c => checkValue c.toNat, x < 11 :=
    List.forall_mem_map.2 fun c hc => checkValue_lt (hs.isCheckCode_of_mem hc)
  have hlength : (s.map fun c => checkValue c.toNat).length = 18 := by rw [List.length_map, hs.1.length]
  exact dot_of_swapped hvalues hlt (by decide) hlength (hs.sum_modEq.trans ht.sum_modEq.symm)

/-! ### Hong Kong numbers -/

theorem hongKongCheck_mod (sum : Nat) : hongKongCheck sum = hongKongCheck (sum % 11) := by
  rw [hongKongCheck, hongKongCheck, Nat.mod_mod]

/-- **The check characters of a Hong Kong number** are told by the remainders of the sums. -/
theorem hongKongCheck_inj {a b : Nat} : hongKongCheck a = hongKongCheck b ↔ a ≡ b [MOD 11] := by
  have hinj : ∀ a < 11, ∀ b < 11, hongKongCheck a = hongKongCheck b → a = b := by decide
  constructor
  · intro h
    rw [hongKongCheck_mod a, hongKongCheck_mod b] at h
    exact hinj _ (Nat.mod_lt a (by decide)) _ (Nat.mod_lt b (by decide)) h
  · intro h
    rw [hongKongCheck_mod a, hongKongCheck_mod b, h]

variable {p q : HongKongParts}

theorem HongKongParts.checksOut_iff : p.checksOut = true ↔ ∃ sum, letterSum? p.letters = some sum ∧
    hongKongCheck (sum + weighted (octets p.digits) hongKongWeights) = p.check := by
  simp only [checksOut, Option.any_eq_true, beq_iff_eq]

theorem HongKongParts.IsPartsOf.isAsciiDigit_of_mem (hp : p.IsPartsOf cs) (hcs : IsAscii cs) :
    ∀ c ∈ p.digits, isAsciiDigit c = true := by
  obtain ⟨written, hspelled, -⟩ := hp.spelled
  intro c hc
  rw [← isDigit_eq_isAsciiDigit (hcs c (by simp [hspelled, hc]))]
  exact hp.isDigit_of_mem c hc

/-- The sum of digits in ASCII is that of their values. -/
theorem weighted_octets_eq_dot (hp : p.IsPartsOf cs) (hcs : IsAscii cs) :
    weighted (octets p.digits) hongKongWeights =
      dot (p.digits.map fun c => digit c.toNat) hongKongWeights := by
  obtain ⟨written, hspelled, -⟩ := hp.spelled
  have hascii : IsAscii p.digits := fun c hc => hcs c (by simp [hspelled, hc])
  rw [octets_of_ascii hascii, weighted_eq_dot, List.map_map]
  rfl

/-- **One digit changed** changes the sum of the digits. -/
theorem weighted_of_differsOnce (hp : p.IsPartsOf s) (hq : q.IsPartsOf t) (hs : IsAscii s)
    (ht : IsAscii t) (h : DiffersOnce p.digits q.digits) :
    ¬ weighted (octets p.digits) hongKongWeights ≡ weighted (octets q.digits) hongKongWeights [MOD 11] := by
  have hvalues := h.map (f := fun c => digit c.toNat) fun c hc d hd heq => by
    have hc := isAsciiDigit_iff.1 (hp.isAsciiDigit_of_mem hs c hc)
    have hd := isAsciiDigit_iff.1 (hq.isAsciiDigit_of_mem ht d hd)
    simp only [digit, Char.reduceToNat] at heq
    exact Char.toNat_inj.1 (by omega)
  have hlt : ∀ {r : HongKongParts} {cs : List Char}, r.IsPartsOf cs → IsAscii cs →
      ∀ x ∈ r.digits.map fun c => digit c.toNat, x < 11 := by
    intro r cs hr hcs
    refine List.forall_mem_map.2 fun c hc => ?_
    have := isAsciiDigit_iff.1 (hr.isAsciiDigit_of_mem hcs c hc)
    simp only [digit, Char.reduceToNat]
    omega
  have hcoprime : ∀ w ∈ hongKongWeights, Nat.Coprime 11 w := by decide
  rw [weighted_octets_eq_dot hp hs, weighted_octets_eq_dot hq ht]
  refine dot_of_differsOnce hvalues (hlt hp hs) (hlt hq ht) hcoprime ?_
  rw [List.length_map, hp.digits_length]
  decide

theorem exists_parts_of_isHongKong (h : isHongKong cs = true) :
    ∃ p, hongKongParts? cs = some p ∧ p.IsPartsOf cs ∧ p.checksOut = true := by
  rw [isHongKong_eq, Option.any_eq_true] at h
  obtain ⟨p, hp, hchecks⟩ := h
  exact ⟨p, hp, isPartsOf_of_eq_some hp, hchecks⟩

/-- **One character changed** makes no Hong Kong number of a Hong Kong number, unless it is a letter. -/
theorem hongKong_differsOnce (hs : isHongKong s = true) (ht : isHongKong t = true) (hsa : IsAscii s)
    (hta : IsAscii t) (hletters : s.takeWhile isAsciiUpper = t.takeWhile isAsciiUpper) :
    ¬ DiffersOnce s t := by
  intro h
  obtain ⟨p, -, hp, hpsum⟩ := exists_parts_of_isHongKong hs
  obtain ⟨q, -, hq, hqsum⟩ := exists_parts_of_isHongKong ht
  -- the letters make up the same part of both sums
  have hsame : p.letters = q.letters := by rw [hp.letters_eq, hq.letters_eq, hletters]
  obtain ⟨sum, hsum, hcheck⟩ := HongKongParts.checksOut_iff.1 hpsum
  obtain ⟨sum', hsum', hcheck'⟩ := HongKongParts.checksOut_iff.1 hqsum
  obtain rfl : sum = sum' := Option.some.inj (hsum.symm.trans (hsame ▸ hsum'))
  obtain ⟨written, hspelled, hwritten⟩ := hp.spelled
  obtain ⟨written', hspelled', hwritten'⟩ := hq.spelled
  have hdiffers := h
  rw [hspelled, hspelled', hsame] at hdiffers
  obtain ⟨hfalse, -⟩ | ⟨-, hdiffers⟩ := hdiffers.split rfl
  · exact hfalse.ne rfl
  obtain ⟨hdigits, htail⟩ | ⟨hdigits, htail⟩ :=
    hdiffers.split (hp.digits_length.trans hq.digits_length.symm)
  · -- one of the digits: the sums have different remainders, but the check characters are the same
    have hchecks : p.check = q.check := Option.some.inj (hwritten.symm.trans (htail ▸ hwritten'))
    have hmod := hongKongCheck_inj.1 (hcheck.trans (hchecks.trans hcheck'.symm))
    exact weighted_of_differsOnce hp hq hsa hta hdigits (hmod.add_left_cancel' sum)
  · -- behind the digits: the check characters are the same, so they are not written alike
    have hchecks : p.check = q.check := by rw [← hcheck, ← hcheck', hdigits]
    have hlength := htail.length_eq
    refine htail.ne ?_
    rcases (writtenCheck?_eq_some hwritten).2 with rfl | rfl <;>
      rcases (writtenCheck?_eq_some hwritten').2 with rfl | rfl
    · rw [hchecks]
    · cases hlength
    · cases hlength
    · rw [hchecks]

/-- **Accepted numbers are no slip apart.** Of two accepted mainland numbers in ASCII, the second is not
the first with one character changed, be the letter X at the end small or capital, nor with two different
neighbours swapped. Of two accepted Hong Kong numbers in ASCII with the same letters, the second is not the
first with one character changed, be it one of the digits or the check character. -/
theorem accepted_numbers_are_no_slip_apart {s t : String} (hs : IsAscii s.toList)
    (ht : IsAscii t.toList) :
    (Region.mainland.accepts false s = true → Region.mainland.accepts false t = true →
      ¬ DiffersOnce (capitalised s.toList) (capitalised t.toList) ∧ ¬ Swapped s.toList t.toList) ∧
    (∀ legacy, Region.hongKong.accepts legacy s = true → Region.hongKong.accepts legacy t = true →
      s.toList.takeWhile isAsciiUpper = t.toList.takeWhile isAsciiUpper →
      ¬ DiffersOnce s.toList t.toList) := by
  constructor
  · intro hsm htm
    have hsn : IsMainlandNumber s.toList := isMainlandNumber_iff.2 ⟨hsm, hs⟩
    have htn : IsMainlandNumber t.toList := isMainlandNumber_iff.2 ⟨htm, ht⟩
    exact ⟨mainland_differsOnce hsn htn, mainland_swapped hsn htn⟩
  · intro legacy hsk htk hletters
    exact hongKong_differsOnce hsk htk hs ht hletters

/-- With two neighbours swapped, the check character changes as well. -/
theorem swapped_digits_have_another_check :
    (Region.mainland.accepts false "11010519491231002X" = true ∧
      Region.mainland.accepts false "110105194912310206" = true ∧
      ¬ DiffersOnce (capitalised "11010519491231002X".toList) (capitalised "110105194912310206".toList) ∧
      ¬ Swapped "11010519491231002X".toList "110105194912310206".toList) ∧
    Region.hongKong.accepts false "A123456(3)" = true ∧
      Region.hongKong.accepts false "A123465(2)" = true ∧
      ¬ DiffersOnce "A123456(3)".toList "A123465(2)".toList := by
  have haccepted : Region.mainland.accepts false "11010519491231002X" = true := by decide +kernel
  have hother : Region.mainland.accepts false "110105194912310206" = true := by decide +kernel
  have hwritten : Region.hongKong.accepts false "A123456(3)" = true := by decide +kernel
  have hrewritten : Region.hongKong.accepts false "A123465(2)" = true := by decide +kernel
  have hmainland := (accepted_numbers_are_no_slip_apart (s := "11010519491231002X")
    (t := "110105194912310206") (by decide) (by decide)).1 haccepted hother
  have hhongKong := (accepted_numbers_are_no_slip_apart (s := "A123456(3)") (t := "A123465(2)")
    (by decide) (by decide)).2 false hwritten hrewritten (by decide)
  exact ⟨⟨haccepted, hother, hmainland⟩, hwritten, hrewritten, hhongKong⟩

end Validation.IdCard
