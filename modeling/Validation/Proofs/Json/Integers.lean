import Mathlib.Algebra.Ring.Int.Defs
import Validation.Json.Value
import Validation.Proofs.Domain.Spelling
import Validation.Proofs.Failure

/-!
# Integers of documents

A document knows one width of integers. However deep an integer stands in the value of a document, it has
64 bits, and an integer of 64 bits is read as it stands in a message.

* `Value.Decoded`: values without integers of another width.
* `Value.decoded_of_ofJson?`: the value of a text is one of them.
* `Value.decoded_field`: so are the fields of an instance.
* `Value.ofJson?_toString`: the value of the text of an integer.
-/

namespace Validation

open Text Decimal

/-- What a list is built up from, entry by entry, is all that is in it. -/
theorem mem_of_mem_foldl {α : Type} {add : List α → α → List α}
    (hadd : ∀ {kept a e}, e ∈ add kept a → e = a ∨ e ∈ kept) {entries kept : List α} {e : α}
    (h : e ∈ entries.foldl add kept) : e ∈ kept ∨ e ∈ entries := by
  induction entries generalizing kept with
  | nil => exact .inl h
  | cons a rest ih =>
    rcases ih h with h | h
    · rcases hadd h with rfl | h
      · exact .inr List.mem_cons_self
      · exact .inl h
    · exact .inr (List.mem_cons_of_mem a h)

/-! ### One width -/

/-- **The values that documents stand for.** No integer has another width than 64 bits, and maps are under
texts. -/
inductive Value.Decoded : Value → Prop
  | null : Decoded .null
  | bool (b : Bool) : Decoded (.bool b)
  | long (n : Int64) : Decoded (.long n)
  | double (x : Float) : Decoded (.double x)
  | text (s : String) : Decoded (.text s)
  | list {items : List Value} (hitems : ∀ v ∈ items, Decoded v) : Decoded (.list items)
  | map {entries : List (Value × Value)} (hkeys : ∀ e ∈ entries, ∃ key, e.1 = .text key)
      (hvalues : ∀ e ∈ entries, Decoded e.2) : Decoded (.map entries)

namespace Json

theorem decoded_of_number {spelling : JsonNumber} {v : Value} (h : spelling.value? = some v) :
    v.Decoded := by
  unfold JsonNumber.value? at h
  split at h
  · cases h
    exact .long _
  · obtain ⟨x, -, rfl⟩ := Option.map_eq_some_iff.1 h
    exact .double _

mutual

/-- The value of a document is one of them. -/
theorem decoded_of_value? : ∀ {depth : Nat} {document : Json} {v : Value},
    value? depth document = some v → v.Decoded
  | _, null, _, h => by
    rw [value?] at h
    cases h
    exact .null
  | _, bool b, _, h => by
    rw [value?] at h
    cases h
    exact .bool b
  | _, number spelling, _, h => by
    rw [value?] at h
    exact decoded_of_number h
  | _, text spelling, _, h => by
    rw [value?] at h
    obtain ⟨cs, -, rfl⟩ := Option.map_eq_some_iff.1 h
    exact .text _
  | 0, array items, _, h => by
    rw [value?] at h
    cases h
  | depth + 1, array items, _, h => by
    rw [value?] at h
    obtain ⟨vs, hvs, rfl⟩ := Option.map_eq_some_iff.1 h
    exact .list (decoded_of_values? hvs)
  | 0, object entries, _, h => by
    rw [value?] at h
    cases h
  | depth + 1, object entries, _, h => by
    rw [value?] at h
    obtain ⟨read, hread, rfl⟩ := Option.map_eq_some_iff.1 h
    have hvalues := decoded_of_entries? hread
    refine .map (fun e he => ?_) fun e he => ?_
    · obtain ⟨⟨key, v⟩, -, rfl⟩ := List.mem_map.1 he
      exact ⟨key, rfl⟩
    · obtain ⟨⟨key, v⟩, hkept, rfl⟩ := List.mem_map.1 he
      -- sorting by keys keeps entries that were read, and adds none
      rcases mem_of_mem_foldl mem_insertEntry hkept with hnone | hkept
      · exact absurd hnone List.not_mem_nil
      · exact hvalues _ hkept

theorem decoded_of_values? : ∀ {depth : Nat} {items : List Json} {vs : List Value},
    values? depth items = some vs → ∀ v ∈ vs, v.Decoded
  | _, [], _, h => by
    rw [values?] at h
    cases h
    exact nofun
  | depth, item :: rest, _, h => by
    rw [values?] at h
    simp only [Option.bind_eq_bind, Option.bind_eq_some_iff, Option.pure_def, Option.some.injEq] at h
    obtain ⟨v, hv, vs, hvs, rfl⟩ := h
    exact List.forall_mem_cons.2 ⟨decoded_of_value? hv, decoded_of_values? hvs⟩

theorem decoded_of_entries? : ∀ {depth : Nat} {entries : List (List Char × Json)}
    {read : List (String × Value)}, entries? depth entries = some read → ∀ e ∈ read, e.2.Decoded
  | _, [], _, h => by
    rw [entries?] at h
    cases h
    exact nofun
  | depth, (key, item) :: rest, _, h => by
    rw [entries?] at h
    simp only [Option.bind_eq_bind, Option.bind_eq_some_iff, Option.pure_def, Option.some.injEq] at h
    obtain ⟨key, -, v, hv, read, hread, rfl⟩ := h
    exact List.forall_mem_cons.2 ⟨decoded_of_value? hv, decoded_of_entries? hread⟩

end

end Json

namespace Value

variable {v : Value} {n : Int}

/-- **An integer of a document** has 64 bits. -/
theorem Decoded.eq_long (h : v.Decoded) (hn : v.integral? = some n) : v = .long (.ofInt n) := by
  cases h with
  | long i =>
    obtain rfl : i.toInt = n := Option.some.inj hn
    rw [Int64.ofInt_toInt]
  | _ => cases hn

theorem decoded_of_ofJson? {s : String} (h : ofJson? s = some v) : v.Decoded := by
  obtain ⟨document, -, hv⟩ := Option.bind_eq_some_iff.1 h
  exact Json.decoded_of_value? hv

/-- The fields of an instance that is made of the value of a document. -/
theorem decoded_field {className name : String} {x : Value} (h : v.Decoded)
    (hx : (v.asInstance className).field? name = some x) : x.Decoded := by
  have hmem : (name, x) ∈ v.asFields := mem_of_lookup hx
  cases h with
  | @map entries _ hvalues =>
    have hadd : ∀ {kept : List (String × Value)} {a e : String × Value},
        e ∈ setField a.1 a.2 kept → e = a ∨ e ∈ kept := fun h => (mem_setField h).symm
    rcases mem_of_mem_foldl hadd hmem with hnone | hmem
    · exact absurd hnone List.not_mem_nil
    · obtain ⟨⟨key, y⟩, hentry, hfield⟩ := List.mem_filterMap.1 hmem
      obtain ⟨text, -, htext⟩ := Option.map_eq_some_iff.1 hfield
      cases htext
      exact hvalues _ hentry
  | _ => exact absurd hmem List.not_mem_nil

end Value

/-! ### Integers as they are written -/

/-- The digits of a positive number start with none that is zero. -/
theorem head?_toDigits_ne_zero {n : Nat} (hn : 0 < n) : (Nat.toDigits 10 n).head? ≠ some '0' := by
  induction n using Nat.strong_induction_on with
  | h n ih =>
    rw [Nat.toDigits_eq_if (by decide)]
    split_ifs with hdigit
    · intro hzero
      have hzero : n.digitChar = '0' := Option.some.inj hzero
      rw [Nat.digitChar_eq_zero] at hzero
      omega
    · have hrest := ih (n / 10) (by omega) (by omega)
      rwa [List.head?_append_of_ne_nil _ Nat.toDigits_ne_nil]

namespace Json

/-- The digits of a number, after its sign if it is negative. -/
def signed (negative : Bool) (n : Nat) : List Char :=
  if negative then '-' :: Domain.digits 0 n else Domain.digits 0 n

theorem toList_toString (n : Int) : (toString n).toList = signed (decide (n < 0)) n.natAbs := by
  cases n with
  | ofNat n => simp [Int.toString_eq_repr, Int.repr, signed, Domain.digits]
  | negSucc n =>
    have hneg : Int.negSucc n < 0 := Int.negSucc_lt_zero n
    simp [Int.toString_eq_repr, Int.repr, signed, Domain.digits, hneg]

/-- A number starts with a digit or with a sign. -/
theorem exists_signed_eq_cons (negative : Bool) (n : Nat) :
    ∃ c cs, signed negative n = c :: cs ∧ (isAsciiDigit c || c == '-') = true := by
  cases negative with
  | true => exact ⟨'-', _, rfl, rfl⟩
  | false =>
    obtain ⟨c, cs, hcs⟩ := List.exists_cons_of_ne_nil (Domain.digits_ne_nil 0 n)
    have hc : isAsciiDigit c = true := Domain.isAsciiDigit_of_mem_digits (hcs ▸ List.mem_cons_self)
    exact ⟨c, cs, hcs, by rw [hc, Bool.true_or]⟩

/-- What starts so is read as a number. -/
theorem readValue?_of_number {c : Char} {cs : List Char} (h : (isAsciiDigit c || c == '-') = true)
    (fuel : Nat) :
    readValue? (fuel + 1) (c :: cs) =
      (readNumber? (c :: cs)).map fun (spelling, rest) => (number spelling, rest) := by
  have hskip : skip (c :: cs) = c :: cs := by
    refine List.dropWhile_cons_of_neg ?_
    intro hseparator
    simp only [isSeparator, Bool.or_eq_true, beq_iff_eq] at hseparator
    rcases hseparator with ((rfl | rfl) | rfl) | rfl <;> exact absurd h (by decide)
  rw [readValue?, hskip]
  -- the other kinds of documents start with other characters
  split <;> first | rfl | (rename_i heq; cases heq; exact absurd h (by decide))

theorem readNumber?_signed (negative : Bool) (n : Nat) :
    readNumber? (signed negative n) = some (⟨negative, Domain.digits 0 n, [], none⟩, []) := by
  have hdigits : ∀ c ∈ Domain.digits 0 n, isAsciiDigit c = true :=
    fun c => Domain.isAsciiDigit_of_mem_digits
  have htake : (Domain.digits 0 n).takeWhile isAsciiDigit = Domain.digits 0 n :=
    List.takeWhile_eq_self_iff.2 hdigits
  have hdrop : (Domain.digits 0 n).dropWhile isAsciiDigit = [] := List.dropWhile_eq_nil_iff.2 hdigits
  have hne : (Domain.digits 0 n).isEmpty = false := by simpa using Domain.digits_ne_nil 0 n
  -- only the zero starts with one, and it stands alone
  have hzero : ((Domain.digits 0 n).head? == some '0' && 1 < (Domain.digits 0 n).length) = false := by
    rcases Nat.eq_zero_or_pos n with rfl | hn
    · rfl
    · have hhead : (Domain.digits 0 n).head? ≠ some '0' := head?_toDigits_ne_zero hn
      rw [beq_eq_false_iff_ne.2 hhead, Bool.false_and]
  cases negative with
  | true =>
    simp only [readNumber?, signed, if_true, htake, hdrop, hne, hzero, readExponent?]
    rfl
  | false =>
    obtain ⟨c, cs, hcs⟩ := List.exists_cons_of_ne_nil (Domain.digits_ne_nil 0 n)
    have hc : isAsciiDigit c = true := hdigits c (hcs ▸ List.mem_cons_self)
    have hsign : ∀ rest, c :: cs = '-' :: rest → False := by
      intro rest heq
      cases heq
      cases hc
    rw [hcs] at htake hdrop hne hzero
    rw [signed, if_neg Bool.false_ne_true, hcs, readNumber?]
    · simp only [htake, hdrop, hne, hzero, readExponent?]
      rfl
    · exact hsign

/-- **An integer of 64 bits** that is no zero with a sign. -/
theorem integer?_signed {n : Int} (hlow : -2 ^ 63 ≤ n) (hhigh : n < 2 ^ 63) :
    (JsonNumber.mk (decide (n < 0)) (Domain.digits 0 n.natAbs) [] none).integer? = some n := by
  by_cases hneg : n < 0
  · have hbounds : 0 < n.natAbs ∧ n.natAbs ≤ 0x8000000000000000 := by omega
    have hn : -(n.natAbs : Int) = n := by omega
    rw [decide_eq_true hneg]
    simp only [JsonNumber.integer?, Domain.valueOf_digits, if_pos hbounds, hn]
    rfl
  · have hbound : n.natAbs ≤ 0x7FFFFFFFFFFFFFFF := by omega
    have hn : (n.natAbs : Int) = n := by omega
    rw [decide_eq_false hneg]
    simp only [JsonNumber.integer?, Domain.valueOf_digits, if_pos hbound, hn]
    rfl

end Json

/-- **An integer is read as it stands in a message.** -/
theorem Value.ofJson?_toString {n : Int} (hlow : -2 ^ 63 ≤ n) (hhigh : n < 2 ^ 63) :
    ofJson? (toString n) = some (.long (.ofInt n)) := by
  obtain ⟨c, cs, hcs, hc⟩ := Json.exists_signed_eq_cons (decide (n < 0)) n.natAbs
  have hread := Json.readNumber?_signed (decide (n < 0)) n.natAbs
  have hparse : Json.parse? (toString n) =
      some (.number ⟨decide (n < 0), Domain.digits 0 n.natAbs, [], none⟩) := by
    rw [Json.parse?, Json.toList_toString]
    simp only [hcs, Json.readValue?_of_number hc]
    rw [← hcs, hread]
    rfl
  rw [ofJson?, hparse, Option.bind_some, Json.value?, JsonNumber.value?, Json.integer?_signed hlow hhigh]

end Validation
