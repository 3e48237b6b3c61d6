import Mathlib.Data.List.TakeWhile
import Validation.Catalog.Domain
import Validation.Proofs.Except

/-!
# Alternatives of a domain

The expression of a domain is a list of texts with bars between them. It describes a domain if each of
the texts does so for one alternative, and the domain then holds what some alternative holds. So an
expression says nothing but which texts there are: neither their order matters nor how often one stands
there, and to join two expressions with a bar is to join the domains.

* `Domain.texts`: the texts of the alternatives.
* `Domain.exists_parse_iff`, `Domain.contains_iff`: what an expression says, by its texts.
* `Domain.joined_expressions_are_unions`: two expressions with a bar between them.
-/

namespace Validation.Domain

open Text

variable {e e' : String} {d d' : Domain} {n : Number}

/-- The texts between the bars of an expression, without the blanks around them. -/
def texts (expression : String) : List (List Char) :=
  (splitOn '|' expression.toList).map trim

/-! ### Texts -/

theorem splitOn_eq (separator : Char) (cs : List Char) :
    splitOn separator cs = cs.splitOn separator := by
  induction cs with
  | nil => rfl
  | cons c cs ih =>
    rw [splitOn, ih, List.splitOn_cons_eq_if_modifyHead]
    cases hparts : cs.splitOn separator with
    | nil => exact absurd hparts (List.splitOn_ne_nil _ _)
    | cons part parts => simp only [beq_iff_eq, List.modifyHead_cons]

/-- **The texts of two expressions with a bar between them** are those of both. -/
theorem texts_join (e e' : String) : texts (e ++ "|" ++ e') = texts e ++ texts e' := by
  have htoList : (e ++ "|" ++ e').toList = e.toList ++ '|' :: e'.toList := by
    rw [String.toList_append, String.toList_append, List.append_assoc]
    rfl
  rw [texts, htoList, splitOn_eq, List.splitOn_append_cons_self, List.map_append, texts, texts,
    splitOn_eq, splitOn_eq]

theorem trim_eq_nil {cs : List Char} (h : trim cs = []) : ∀ c ∈ cs, isBlank c = true := by
  intro c hc
  have hstart : ∀ c ∈ trimStart cs, isBlank c = true := by
    rw [trim, trimEnd, List.reverse_eq_nil_iff, List.dropWhile_eq_nil_iff] at h
    exact fun c hc => h c (List.mem_reverse.2 hc)
  rw [← List.takeWhile_append_dropWhile (p := isBlank) (l := cs), List.mem_append] at hc
  exact hc.elim List.mem_takeWhile_imp (hstart c)

/-- A blank expression is one blank text. -/
theorem texts_of_blank (h : trim e.toList = []) : texts e = [[]] := by
  have hbar : '|' ∉ e.toList := fun hmem => absurd (trim_eq_nil h '|' hmem) (by decide)
  rw [texts, splitOn_eq, List.splitOn_eq_singleton hbar, List.map_singleton, h]

/-! ### What an expression says -/

theorem not_readAlternative_nil {alternative : Alternative} :
    readAlternative [] ≠ .ok alternative := by
  rw [readAlternative, List.isEmpty_nil, if_pos rfl]
  exact nofun

theorem parse_eq (e : String) : parse e =
    if trim e.toList = [] then .error "expression is empty"
    else return ⟨e, ← (texts e).mapM readAlternative⟩ := by
  rw [texts, List.mapM_map]
  by_cases hblank : trim e.toList = []
  · rw [if_pos hblank, parse, hblank]
    rfl
  · have hne : (trim e.toList).isEmpty = false := by simpa using hblank
    rw [if_neg hblank, parse, hne]
    rfl

theorem parse_eq_ok_iff : parse e = .ok d ↔ ∃ alternatives,
    List.Forall₂ (fun text alternative => readAlternative text = .ok alternative) (texts e)
      alternatives ∧ d = ⟨e, alternatives⟩ := by
  rw [parse_eq]
  split_ifs with hblank
  · -- the text of a blank expression describes no alternative either
    rw [texts_of_blank hblank]
    refine iff_of_false nofun ?_
    rintro ⟨_, hread, -⟩
    obtain ⟨alternative, -, halternative, -⟩ := List.forall₂_cons_left_iff.1 hread
    exact not_readAlternative_nil halternative
  · simp only [bind_eq_ok, pure_eq_ok, mapM_eq_ok, @eq_comm _ _ d]

/-- **An expression describes a domain** if each of its texts describes an alternative. -/
theorem exists_parse_iff :
    (∃ d, parse e = .ok d) ↔ ∀ text ∈ texts e, ∃ a, readAlternative text = .ok a := by
  simp only [parse_eq_ok_iff]
  constructor
  · rintro ⟨_, alternatives, hread, -⟩ text htext
    obtain ⟨a, -, ha⟩ := exists_mem_right_of_forall₂ hread text htext
    exact ⟨a, ha⟩
  · intro h
    suffices hall : ∀ ts : List (List Char), (∀ t ∈ ts, ∃ a, readAlternative t = .ok a) →
        ∃ alternatives, List.Forall₂ (fun t a => readAlternative t = .ok a) ts alternatives by
      obtain ⟨alternatives, halternatives⟩ := hall _ h
      exact ⟨_, alternatives, halternatives, rfl⟩
    intro ts hts
    induction ts with
    | nil => exact ⟨[], .nil⟩
    | cons t ts ih =>
      obtain ⟨⟨a, ha⟩, hts⟩ := List.forall_mem_cons.1 hts
      obtain ⟨alternatives, halternatives⟩ := ih hts
      exact ⟨a :: alternatives, .cons ha halternatives⟩

/-- **A domain holds a number** if one of the alternatives that its texts describe does. -/
theorem contains_iff (h : parse e = .ok d) : d.contains n = true ↔
    ∃ text ∈ texts e, ∃ a, readAlternative text = .ok a ∧ a.contains n = true := by
  obtain ⟨alternatives, hread, rfl⟩ := parse_eq_ok_iff.1 h
  rw [contains, List.any_eq_true]
  constructor
  · rintro ⟨a, ha, hn⟩
    obtain ⟨text, htext, hreads⟩ := exists_mem_of_forall₂ hread a ha
    exact ⟨text, htext, a, hreads, hn⟩
  · rintro ⟨text, htext, a, hreads, hn⟩
    obtain ⟨a', ha', hreads'⟩ := exists_mem_right_of_forall₂ hread text htext
    obtain rfl := Except.ok.inj (hreads.symm.trans hreads')
    exact ⟨a, ha', hn⟩

/-- **Two expressions with a bar between them** describe a domain just if both do, and the domain is
then the union of both. So alternatives may be put in any other order, be grouped in another way or be
written several times: expressions with the same texts describe a domain or not, and the domains hold
the same numbers. -/
theorem joined_expressions_are_unions :
    (∀ e e' : String,
      ((∃ d, parse (e ++ "|" ++ e') = .ok d) ↔ (∃ d, parse e = .ok d) ∧ ∃ d', parse e' = .ok d') ∧
      ∀ joined d d', parse (e ++ "|" ++ e') = .ok joined → parse e = .ok d → parse e' = .ok d' →
        ∀ n, joined.contains n = (d.contains n || d'.contains n)) ∧
    ∀ e e' : String, (∀ text, text ∈ texts e ↔ text ∈ texts e') →
      ((∃ d, parse e = .ok d) ↔ ∃ d', parse e' = .ok d') ∧
      ∀ d d', parse e = .ok d → parse e' = .ok d' → ∀ n, d.contains n = d'.contains n := by
  refine ⟨fun e e' => ⟨?_, ?_⟩, fun e e' hsame => ⟨?_, ?_⟩⟩
  · rw [exists_parse_iff, exists_parse_iff, exists_parse_iff, texts_join, List.forall_mem_append]
  · intro joined d d' hjoined hd hd' n
    rw [Bool.eq_iff_iff, Bool.or_eq_true, contains_iff hjoined, contains_iff hd, contains_iff hd',
      texts_join]
    simp only [List.mem_append, or_and_right, exists_or]
  · rw [exists_parse_iff, exists_parse_iff]
    simp only [hsame]
  · intro d d' hd hd' n
    rw [Bool.eq_iff_iff, contains_iff hd, contains_iff hd']
    simp only [hsame]

/-- A band of numbers. -/
def band : String := "[10,20)"

/-- Two numbers. -/
def pair : String := " {42, 64} "

/-- A band and two numbers make up one domain, whichever is written first. But a bar with nothing after
it does not. -/
theorem band_and_pair_are_union : ∃ d d' joined swapped,
    parse band = .ok d ∧ parse pair = .ok d' ∧ parse (band ++ "|" ++ pair) = .ok joined ∧
      parse (pair ++ "|" ++ band) = .ok swapped ∧
      (∀ n, joined.contains n = (d.contains n || d'.contains n)) ∧
      (∀ n, joined.contains n = swapped.contains n) ∧ joined.contains (.int 42) = true ∧
      ¬ ∃ d, parse (band ++ "|" ++ "") = .ok d := by
  obtain ⟨hjoin, hsame⟩ := joined_expressions_are_unions
  obtain ⟨d, hd⟩ : ∃ d, parse band = .ok d := exists_of_isOk (by decide +kernel)
  obtain ⟨d', hd'⟩ : ∃ d, parse pair = .ok d := exists_of_isOk (by decide +kernel)
  obtain ⟨joined, hjoined⟩ := (hjoin band pair).1.2 ⟨⟨d, hd⟩, d', hd'⟩
  have hunion := (hjoin band pair).2 _ _ _ hjoined hd hd'
  have htexts : ∀ text, text ∈ texts (band ++ "|" ++ pair) ↔ text ∈ texts (pair ++ "|" ++ band) := by
    intro text
    rw [texts_join, texts_join, List.mem_append, List.mem_append, or_comm]
  obtain ⟨swapped, hswapped⟩ := (hsame _ _ htexts).1.1 ⟨joined, hjoined⟩
  refine ⟨d, d', joined, swapped, hd, hd', hjoined, hswapped, hunion,
    (hsame _ _ htexts).2 _ _ hjoined hswapped, ?_, ?_⟩
  · have hholds : (parse pair).toOption.map (·.contains (.int 42)) = some true := by decide +kernel
    rw [hd'] at hholds
    have hpair : d'.contains (.int 42) = true := Option.some.inj hholds
    rw [hunion, hpair, Bool.or_true]
  · rintro ⟨_, hempty⟩
    obtain ⟨d, hd⟩ := ((hjoin band "").1.1 ⟨_, hempty⟩).2
    have herror : (parse "").isOk = false := by decide +kernel
    rw [hd] at herror
    cases herror

end Validation.Domain
