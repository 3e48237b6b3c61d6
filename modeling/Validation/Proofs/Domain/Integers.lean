import Mathlib.Data.Set.Basic
import Validation.Proofs.Domain.Alternatives
import Validation.Proofs.Domain.Spelling

/-!
# Domains of integers

An alternative of integers is an interval whose ends are integers of 64 bits or missing, or a list of
such integers. It is written with blanks wherever they may stand, and it is read back as the alternative
that it is, unless its ends are crossed. What is read then holds the integers that are meant.

* `IntegerAlternative`: alternatives of integers, and the sets that they are.
* `IntegerAlternative.Writes`, `IsExpression`: the ways to write an alternative, and a domain.
* `readAlternative_of_writes`: an alternative is read back.
* `integer_domains_round_trip`: expressions of integers describe the unions of their alternatives.
-/

namespace Validation.Domain

open Text

/-- **An alternative of integers**: an interval, in which either end may be missing, or a list of
integers, at least one. -/
inductive IntegerAlternative
  | interval (lowInclusive : Bool) (low high : Option Int64) (highInclusive : Bool)
  | values (first : Int64) (rest : List Int64)

namespace IntegerAlternative

/-- The integers from a low end up. -/
def above (inclusive : Bool) : Option Int64 → Set Int
  | none => Set.univ
  | some low => if inclusive then {n | low.toInt ≤ n} else {n | low.toInt < n}

/-- The integers up to a high end. -/
def below (inclusive : Bool) : Option Int64 → Set Int
  | none => Set.univ
  | some high => if inclusive then {n | n ≤ high.toInt} else {n | n < high.toInt}

/-- The integers in the alternative. -/
def toSet : IntegerAlternative → Set Int
  | interval lowInclusive low high highInclusive => above lowInclusive low ∩ below highInclusive high
  | values first rest => {n | ∃ member ∈ first :: rest, n = member.toInt}

/-- Whether both ends are there, but the low one is beyond the high one, or the same while one of them
does not belong to the interval. -/
def IsCrossed : IntegerAlternative → Prop
  | interval lowInclusive (some low) (some high) highInclusive =>
    high.toInt < low.toInt ∨ low = high ∧ ¬ (lowInclusive = true ∧ highInclusive = true)
  | _ => False

instance : DecidablePred IsCrossed
  | interval _ (some _) (some _) _ => inferInstanceAs (Decidable (_ ∨ _))
  | interval _ none _ _ | interval _ (some _) none _ | values _ _ => inferInstanceAs (Decidable False)

/-- The text of an end: an integer, or nothing if it is missing. -/
def SpellsEnd : Option Int64 → List Char → Prop
  | none, text => text = []
  | some v, text => Spells v.toInt text

/-- The text of a member, with blanks around it. -/
def SpellsMember (v : Int64) (padded : List Char) : Prop :=
  ∃ text, Spells v.toInt text ∧ Pads text padded

/-- **The ways to write an alternative.** Ends and members may have blanks around them. -/
inductive Writes : IntegerAlternative → List Char → Prop
  | interval {lowInclusive highInclusive : Bool} {low high : Option Int64}
      {lowText highText lowPadded highPadded : List Char} (hlow : SpellsEnd low lowText)
      (hlowPads : Pads lowText lowPadded) (hhigh : SpellsEnd high highText)
      (hhighPads : Pads highText highPadded) :
      Writes (.interval lowInclusive low high highInclusive)
        ((if lowInclusive then '[' else '(') :: (lowPadded ++ ',' :: (highPadded ++
          [if highInclusive then ']' else ')'])))
  | values {first : Int64} {rest : List Int64} {members : List (List Char)}
      (h : List.Forall₂ SpellsMember (first :: rest) members) :
      Writes (.values first rest) ('{' :: ([','].intercalate members ++ ['}']))

/-- The bound at an end that is there. -/
def bound (inclusive : Bool) (v : Int64) : Bound := ⟨.int v.toInt, inclusive⟩

/-- What the alternative is read as. -/
def alternative : IntegerAlternative → Alternative
  | interval lowInclusive low high highInclusive =>
    .interval (low.map (bound lowInclusive)) (high.map (bound highInclusive))
  | values first rest => .values ((first :: rest).map fun v => .int v.toInt)

variable {a : IntegerAlternative} {v : Int64} {low high : Option Int64} {text : List Char}
  {lowInclusive highInclusive inclusive : Bool} {n : Int} {c : Char}

/-! ### Membership -/

theorem compare?_int (n m : Int) : (Number.int n).compare? (.int m) =
    some (if n < m then .lt else if n = m then .eq else .gt) := rfl

theorem compare?_eq_some_lt {m : Int} : (Number.int n).compare? (.int m) = some .lt ↔ n < m := by
  rw [compare?_int]
  split_ifs <;> simp [*]

theorem compare?_eq_some_eq {m : Int} : (Number.int n).compare? (.int m) = some .eq ↔ n = m := by
  rw [compare?_int]
  split_ifs with hlt heq
  · simp [hlt.ne]
  · simp [heq]
  · simp [heq]

theorem compare?_eq_some_gt {m : Int} : (Number.int n).compare? (.int m) = some .gt ↔ m < n := by
  rw [compare?_int]
  split_ifs <;> simp <;> omega

/-- A number is on the side of an end that a bound admits, or it is the end itself. -/
theorem bound_admits {side : Ordering} (hside : side ≠ .eq) :
    (bound inclusive v).admits side (.int n) = true ↔
      (Number.int n).compare? (.int v.toInt) = some side ∨ n = v.toInt ∧ inclusive = true := by
  rw [← compare?_eq_some_eq, Bound.admits, bound]
  rcases (Number.int n).compare? (.int v.toInt) with _ | o
  · simp
  · cases o <;> cases side <;> simp at hside ⊢

theorem admits_low : (low.map (bound inclusive)).all (·.admits .gt (.int n)) = true ↔
    n ∈ above inclusive low := by
  cases low with
  | none => simp [above]
  | some v =>
    rw [Option.map_some, Option.all_some, bound_admits (by decide), compare?_eq_some_gt, above]
    cases inclusive <;> simp [le_iff_lt_or_eq, eq_comm]

theorem admits_high : (high.map (bound inclusive)).all (·.admits .lt (.int n)) = true ↔
    n ∈ below inclusive high := by
  cases high with
  | none => simp [below]
  | some v =>
    rw [Option.map_some, Option.all_some, bound_admits (by decide), compare?_eq_some_lt, below]
    cases inclusive <;> simp [le_iff_lt_or_eq]

/-- **What an alternative is read as holds its integers.** -/
theorem contains_alternative : a.alternative.contains (.int n) = true ↔ n ∈ a.toSet := by
  cases a with
  | interval lowInclusive low high highInclusive =>
    rw [alternative, Alternative.contains, Bool.and_eq_true, admits_low, admits_high, toSet,
      Set.mem_inter_iff]
  | values first rest =>
    simp only [alternative, Alternative.contains, List.any_map, List.any_eq_true, Function.comp_apply,
      beq_iff_eq, compare?_eq_some_eq, toSet, Set.mem_ofPred_eq]

/-! ### Reading an alternative -/

theorem readBound_of_spellsEnd (h : SpellsEnd low text) :
    readBound text inclusive = .ok (low.map (bound inclusive)) := by
  cases low with
  | none =>
    rw [SpellsEnd] at h
    rw [h]
    rfl
  | some v =>
    have hne : text.isEmpty = false := by simpa using Spells.ne_nil h
    rw [readBound, hne, if_neg Bool.false_ne_true, readNumber_of_spells h]
    rfl

theorem SpellsEnd.isNumeral (h : SpellsEnd low text) : ∀ c ∈ text, isNumeral c = true := by
  cases low with
  | none =>
    rw [SpellsEnd] at h
    rw [h]
    exact nofun
  | some v => exact Spells.isNumeral h

theorem readHigh?_of_pads {lowText highText highPadded : List Char} (hhigh : SpellsEnd high highText)
    (hpads : Pads highText highPadded) :
    readHigh? lowInclusive lowText (highPadded ++ [if highInclusive then ']' else ')']) =
      some ⟨lowInclusive, lowText, highText, highInclusive⟩ := by
  have hwithin : ∀ c, isNumeral c = true → (c != ']' && c != ')' && !isBlank c) = true := by
    intro c hc
    rw [not_isBlank_of_isNumeral hc, Bool.not_false, Bool.and_true, Bool.and_eq_true, bne_iff_ne,
      bne_iff_ne]
    refine ⟨?_, ?_⟩ <;> rintro rfl <;> cases hc
  -- either bracket ends the number, and it is what is left behind the blanks
  have hscan : ∀ stop, stop = ']' ∨ stop = ')' →
      (trimStart (highPadded ++ [stop])).takeWhile (fun c => c != ']' && c != ')' && !isBlank c) =
        highText ∧
      trimStart ((trimStart (highPadded ++ [stop])).dropWhile
        fun c => c != ']' && c != ')' && !isBlank c) = [stop] := by
    intro stop hstop
    refine scan_of_pads _ stop [] hpads ?_ (fun c hc => hwithin c (hhigh.isNumeral c hc)) ?_ ?_
    · intro c hc
      simp [hc]
    · rcases hstop with rfl | rfl <;> decide
    · rcases hstop with rfl | rfl <;> decide
  unfold readHigh?
  cases highInclusive with
  | true =>
    obtain ⟨htake, hdrop⟩ := hscan ']' (.inl rfl)
    simp only [if_true, htake, hdrop]
  | false =>
    obtain ⟨htake, hdrop⟩ := hscan ')' (.inr rfl)
    simp only [Bool.false_eq_true, if_false, htake, hdrop]

/-- **The parts of an interval** are found as they are written. -/
theorem readInterval?_of_pads {lowText highText lowPadded highPadded : List Char}
    (hlow : SpellsEnd low lowText) (hlowPads : Pads lowText lowPadded)
    (hhigh : SpellsEnd high highText) (hhighPads : Pads highText highPadded) :
    readInterval? ((if lowInclusive then '[' else '(') :: (lowPadded ++ ',' :: (highPadded ++
      [if highInclusive then ']' else ')']))) =
      some ⟨lowInclusive, lowText, highText, highInclusive⟩ := by
  -- there is no comma in a numeral, so the first comma is the one between the ends
  have hwithin : ∀ c ∈ lowText, (c != ',' && !isBlank c) = true := by
    intro c hc
    have hnumeral := hlow.isNumeral c hc
    rw [not_isBlank_of_isNumeral hnumeral, Bool.not_false, Bool.and_true, bne_iff_ne]
    rintro rfl
    cases hnumeral
  obtain ⟨htake, hdrop⟩ := scan_of_pads (fun c => c != ',' && !isBlank c) ','
    (highPadded ++ [if highInclusive then ']' else ')']) hlowPads (fun c hc => by simp [hc]) hwithin
    (by decide) (by decide)
  have hbracket : (if lowInclusive then '[' else '(') = '[' ∨ (if lowInclusive then '[' else '(') = '(' := by
    cases lowInclusive <;> simp
  have hinclusive : decide ((if lowInclusive then '[' else '(') = '[') = lowInclusive := by
    cases lowInclusive <;> decide
  rw [readInterval?, if_pos hbracket]
  simp only [htake, hdrop, hinclusive]
  exact readHigh?_of_pads hhigh hhighPads

theorem isEmptyBetween_iff {l h : Int64} :
    isEmptyBetween (bound lowInclusive l) (bound highInclusive h) = true ↔
      (interval lowInclusive (some l) (some h) highInclusive).IsCrossed := by
  simp only [isEmptyBetween, bound, compare?_int, IsCrossed]
  rcases lt_trichotomy l.toInt h.toInt with hlt | heq | hgt
  · have hne : l ≠ h := fun heq => absurd (heq ▸ hlt) (lt_irrefl _)
    simp [hlt, hlt.not_gt, hne]
  · obtain rfl := Int64.toInt_inj.1 heq
    cases lowInclusive <;> cases highInclusive <;> simp
  · simp [hgt, hgt.ne', hgt.not_gt]

theorem braced?_interval (cs : List Char) :
    braced? ((if lowInclusive then '[' else '(') :: cs) = none := by
  cases lowInclusive <;> rfl

theorem braced?_values {cs : List Char} (h : ∀ c ∈ cs, c ≠ '{' ∧ c ≠ '}') :
    braced? ('{' :: (cs ++ ['}'])) = some cs := by
  have hall : (cs.reverse.all fun c => c != '{' && c != '}') = true := by
    simpa using h
  simp only [braced?, List.reverse_append, List.reverse_singleton, List.singleton_append, hall, if_true,
    List.reverse_reverse]

/-- A member and the blanks around it are none of the characters between which members stand. -/
theorem not_mem_member {vs : List Int64} {members : List (List Char)}
    (h : List.Forall₂ SpellsMember vs members) (hnumeral : isNumeral c = false)
    (hblank : isBlank c = false) : ∀ member ∈ members, c ∉ member := by
  intro member hmember
  obtain ⟨v, -, text, hspells, hpads⟩ := exists_mem_of_forall₂ h member hmember
  refine not_mem_of_pads hpads hblank fun hc => ?_
  rw [hspells.isNumeral c hc] at hnumeral
  cases hnumeral

/-- The members of a list are found as they are written, and read as the integers that they are. -/
theorem readMembers {vs : List Int64} {members : List (List Char)}
    (h : List.Forall₂ SpellsMember vs members) :
    members.mapM (fun member => readNumber (trim member)) = .ok (vs.map fun v => .int v.toInt) := by
  rw [mapM_eq_ok, List.forall₂_map_right_iff]
  refine h.flip.imp ?_
  rintro member v ⟨text, hspells, hpads⟩
  have htrimmed : Trimmed text :=
    trimmed_of_not_blank fun c hc => not_isBlank_of_isNumeral (hspells.isNumeral c hc)
  rw [trim_of_pads hpads htrimmed, readNumber_of_spells hspells]

theorem readAlternative_values {first : Int64} {rest : List Int64} {members : List (List Char)}
    (h : List.Forall₂ SpellsMember (first :: rest) members) :
    readAlternative ('{' :: ([','].intercalate members ++ ['}'])) =
      .ok (values first rest).alternative := by
  have hne : members ≠ [] := by
    rintro rfl
    cases h
  have hbraces : ∀ c ∈ [','].intercalate members, c ≠ '{' ∧ c ≠ '}' := by
    intro c hc
    refine ⟨?_, ?_⟩ <;> rintro rfl
    · exact not_mem_intercalate (by decide) (not_mem_member h rfl (by decide)) hc
    · exact not_mem_intercalate (by decide) (not_mem_member h rfl (by decide)) hc
  have hsplit : splitOn ',' ([','].intercalate members) = members := by
    rw [splitOn_eq]
    exact List.splitOn_intercalate ',' (not_mem_member h rfl (by decide)) hne
  rw [readAlternative, List.isEmpty_cons, if_neg Bool.false_ne_true, braced?_values hbraces]
  simp only [hsplit, readMembers h]
  rfl

/-- **An alternative is read back**, unless its ends are crossed. -/
theorem readAlternative_of_writes (h : a.Writes text) (read : Alternative) :
    readAlternative text = .ok read ↔ ¬ a.IsCrossed ∧ read = a.alternative := by
  cases h with
  | @interval lowInclusive highInclusive low high _ _ _ _ hlow hlowPads hhigh hhighPads =>
    rw [readAlternative, List.isEmpty_cons, if_neg Bool.false_ne_true, braced?_interval,
      readInterval?_of_pads hlow hlowPads hhigh hhighPads]
    simp only [readBound_of_spellsEnd hlow, readBound_of_spellsEnd hhigh, ok_bind]
    -- with an end missing there is nothing to compare
    cases low with
    | none => simp [IsCrossed, alternative, @eq_comm _ read]
    | some l =>
      cases high with
      | none => simp [IsCrossed, alternative, @eq_comm _ read]
      | some h =>
        rw [← isEmptyBetween_iff]
        simp only [Option.map_some]
        split_ifs with hempty
        · refine iff_of_false (fun hread => ?_) fun hread => hread.1 hempty
          cases hread
        · simp [hempty, alternative, @eq_comm _ read]
  | values hmembers =>
    rw [readAlternative_values hmembers]
    simp [IsCrossed, eq_comm]

/-! ### The text of an alternative -/

theorem Writes.trimmed (h : a.Writes text) : Trimmed text := by
  cases h with
  | @interval lowInclusive highInclusive =>
    refine ⟨trimStart_cons (by cases lowInclusive <;> decide), ?_⟩
    rw [← List.cons_append, ← List.cons_append, ← List.append_assoc]
    exact trimEnd_concat (by cases highInclusive <;> decide)
  | values =>
    refine ⟨trimStart_cons (by decide), ?_⟩
    rw [← List.cons_append]
    exact trimEnd_concat (by decide)

/-- There is no bar in the text of an alternative. -/
theorem Writes.bar_not_mem (h : a.Writes text) : '|' ∉ text := by
  have hend : ∀ {v : Option Int64} {text : List Char}, SpellsEnd v text → '|' ∉ text :=
    fun hspells hmem => nomatch hspells.isNumeral '|' hmem
  cases h with
  | @interval lowInclusive highInclusive _ _ _ _ _ _ hlow hlowPads hhigh hhighPads =>
    have hlow := not_mem_of_pads hlowPads (by decide) (hend hlow)
    have hhigh := not_mem_of_pads hhighPads (by decide) (hend hhigh)
    cases lowInclusive <;> cases highInclusive <;> simp [hlow, hhigh]
  | @values first rest members hmembers =>
    have hmember : '|' ∉ [','].intercalate members :=
      not_mem_intercalate (by decide) (not_mem_member hmembers rfl (by decide))
    simp [hmember]

theorem exists_spellsEnd (v : Option Int64) : ∃ text, SpellsEnd v text := by
  cases v with
  | none => exact ⟨[], rfl⟩
  | some v => exact exists_spells v.toInt

/-- Every alternative can be written. -/
theorem exists_writes (a : IntegerAlternative) : ∃ text, a.Writes text := by
  cases a with
  | interval lowInclusive low high highInclusive =>
    obtain ⟨lowText, hlow⟩ := exists_spellsEnd low
    obtain ⟨highText, hhigh⟩ := exists_spellsEnd high
    exact ⟨_, .interval hlow (pads_self lowText) hhigh (pads_self highText)⟩
  | values first rest =>
    choose text htext using fun v : Int64 => exists_spells v.toInt
    refine ⟨'{' :: ([','].intercalate ((first :: rest).map text) ++ ['}']), .values ?_⟩
    rw [List.forall₂_map_right_iff, List.forall₂_same]
    exact fun v _ => ⟨text v, htext v, pads_self _⟩

end IntegerAlternative

/-! ### Expressions -/

/-- **The ways to write alternatives**: each with any blanks around it, and bars between them. -/
def IsExpression (alternatives : List IntegerAlternative) (e : String) : Prop :=
  ∃ parts, List.Forall₂ (fun a part => ∃ text, a.Writes text ∧ Pads text part) alternatives parts ∧
    e.toList = ['|'].intercalate parts

variable {as : List IntegerAlternative} {e : String}

theorem exists_isExpression (as : List IntegerAlternative) : ∃ e, IsExpression as e := by
  choose text htext using IntegerAlternative.exists_writes
  refine ⟨String.ofList (['|'].intercalate (as.map text)), as.map text, ?_, String.toList_ofList⟩
  rw [List.forall₂_map_right_iff, List.forall₂_same]
  exact fun a _ => ⟨text a, htext a, pads_self _⟩

/-- **The texts of an expression** are those of its alternatives. -/
theorem texts_of_isExpression (has : as ≠ []) (h : IsExpression as e) :
    List.Forall₂ (fun a text => a.Writes text) as (texts e) := by
  obtain ⟨parts, hparts, he⟩ := h
  have hne : parts ≠ [] := by
    rintro rfl
    cases hparts
    exact has rfl
  have hbar : ∀ part ∈ parts, '|' ∉ part := by
    intro part hpart
    obtain ⟨a, -, text, hwrites, hpads⟩ := exists_mem_of_forall₂ hparts part hpart
    exact not_mem_of_pads hpads (by decide) hwrites.bar_not_mem
  rw [texts, he, splitOn_eq, List.splitOn_intercalate '|' hbar hne, List.forall₂_map_right_iff]
  refine hparts.imp ?_
  rintro a part ⟨text, hwrites, hpads⟩
  rwa [trim_of_pads hpads hwrites.trimmed]

/-- **Domains of integers round-trip.** Alternatives of integers, at least one, can be written, and in
whatever way they are, the expression describes a domain unless the ends of some interval are crossed.
The integers in the domain are then those in the union of the alternatives. -/
theorem integer_domains_round_trip (has : as ≠ []) :
    (∃ e, IsExpression as e) ∧ ∀ e, IsExpression as e →
      ((∃ d, parse e = .ok d) ↔ ∀ a ∈ as, ¬ a.IsCrossed) ∧
      ∀ d, parse e = .ok d → ∀ n : Int, d.contains (.int n) = true ↔ ∃ a ∈ as, n ∈ a.toSet := by
  refine ⟨exists_isExpression as, fun e he => ?_⟩
  have htexts := texts_of_isExpression has he
  refine ⟨?_, fun d hd n => ?_⟩
  · rw [exists_parse_iff]
    constructor
    · intro hread a ha
      obtain ⟨text, htext, hwrites⟩ := exists_mem_right_of_forall₂ htexts a ha
      obtain ⟨read, hread⟩ := hread text htext
      exact ((IntegerAlternative.readAlternative_of_writes hwrites read).1 hread).1
    · intro hcrossed text htext
      obtain ⟨a, ha, hwrites⟩ := exists_mem_of_forall₂ htexts text htext
      exact ⟨_, (IntegerAlternative.readAlternative_of_writes hwrites _).2 ⟨hcrossed a ha, rfl⟩⟩
  · rw [contains_iff hd]
    constructor
    · rintro ⟨text, htext, read, hread, hn⟩
      obtain ⟨a, ha, hwrites⟩ := exists_mem_of_forall₂ htexts text htext
      obtain ⟨-, rfl⟩ := (IntegerAlternative.readAlternative_of_writes hwrites read).1 hread
      exact ⟨a, ha, IntegerAlternative.contains_alternative.1 hn⟩
    · rintro ⟨a, ha, hn⟩
      obtain ⟨text, htext, hwrites⟩ := exists_mem_right_of_forall₂ htexts a ha
      -- since there is a domain, the alternative is read as something, which can only be what it is
      obtain ⟨read, hread⟩ := exists_parse_iff.1 ⟨d, hd⟩ text htext
      obtain ⟨-, rfl⟩ := (IntegerAlternative.readAlternative_of_writes hwrites read).1 hread
      exact ⟨text, htext, _, hread, IntegerAlternative.contains_alternative.2 hn⟩

/-- The integers from -5 up to 7, which is left out, and 42. -/
def around : List IntegerAlternative := [.interval true (some (-5)) (some 7) false, .values 42 []]

/-- An expression for them. -/
def aroundText : String := " [ -5 ,+007)|{ 42}"

theorem isExpression_around : IsExpression around aroundText := by
  have hlow : IntegerAlternative.SpellsEnd (some (-5)) ['-', '5'] := Spells.minus 0 5
  have hhigh : IntegerAlternative.SpellsEnd (some 7) ['+', '0', '0', '7'] := Spells.plus 2 7
  have hmember : Spells (42 : Int64).toInt ['4', '2'] := .plain 0 42
  have hspace : ∀ c ∈ [' '], isBlank c = true := List.forall_mem_singleton.2 rfl
  refine ⟨[" [ -5 ,+007)".toList, "{ 42}".toList], .cons ⟨"[ -5 ,+007)".toList, ?_, ?_⟩
    (.cons ⟨"{ 42}".toList, ?_, ?_⟩ .nil), by decide⟩
  · exact .interval hlow ⟨[' '], [' '], hspace, hspace, rfl⟩ hhigh (pads_self _)
  · exact ⟨[' '], [], hspace, nofun, rfl⟩
  · change IntegerAlternative.Writes _ ('{' :: ([','].intercalate [[' ', '4', '2']] ++ ['}']))
    exact .values (.cons ⟨_, hmember, [' '], [], hspace, nofun, rfl⟩ .nil)
  · exact pads_self _

/-- With the sign, the zeros and the blanks that are written there the expression says what is meant: its
domain ends at -5, which it holds, and at 7, which it does not. -/
theorem around_round_trips : ∃ d, parse aroundText = .ok d ∧ d.contains (.int (-5)) = true ∧
    d.contains (.int 42) = true ∧ d.contains (.int 7) = false := by
  have hne : around ≠ [] := by decide
  obtain ⟨hparse, hcontains⟩ := (integer_domains_round_trip hne).2 _ isExpression_around
  obtain ⟨d, hd⟩ := hparse.2 (by decide)
  have hmem : ∀ n : Int, d.contains (.int n) = true ↔ -5 ≤ n ∧ n < 7 ∨ n = 42 := by
    intro n
    have hends : (-5 : Int64).toInt = -5 ∧ (7 : Int64).toInt = 7 ∧ (42 : Int64).toInt = 42 := by decide
    simp [hcontains d hd, around, IntegerAlternative.toSet, IntegerAlternative.above,
      IntegerAlternative.below, hends]
  refine ⟨d, hd, (hmem _).2 (by decide), (hmem _).2 (by decide), ?_⟩
  rw [Bool.eq_false_iff, ne_eq, hmem]
  decide

end Validation.Domain
