import Mathlib.Data.List.Induction
import Mathlib.Data.List.Nodup
import Validation.Failure

/-!
# Filling in a template at once

A template could be read once from left to right, each placeholder of a parameter being replaced by its
value and everything else copied (`Text.fillOnce`). `Text.fill` fills in one parameter after another
instead, each over the text that is there by then, so it also finds placeholders that stand in a value
or that a value has completed. As long as no value brings about a placeholder of a later parameter,
both come to the same.

* `Text.fillOnce`: all parameters at once.
* `Text.occurrences`: how often a placeholder occurs in a text.
* `Text.Undisturbed`: what is filled in brings about no placeholder of a later parameter.
* `Text.fill_eq_fillOnce`: then the parameters can be filled in one after another.
* `Text.IsClosed`: every brace of a text belongs to a placeholder.
* `Failure.undisturbed_messages_are_filled_in_at_once`: all of this for the messages of failures.
-/

namespace Validation

namespace Text

variable {params params' before after : List (List Char × List Char)}
  {name name' value text text' rest : List Char} {c : Char}

/-- `fillOnce` with the number of characters still to be skipped, which belong to the placeholder that
was just replaced. -/
def fillOnceFrom (params : List (List Char × List Char)) : Nat → List Char → List Char
  | _, [] => []
  | skip + 1, _ :: rest => fillOnceFrom params skip rest
  | 0, c :: rest =>
    match params.find? fun p => (placeholder p.1).isPrefixOf (c :: rest) with
    | some p => p.2 ++ fillOnceFrom params ((placeholder p.1).length - 1) rest
    | none => c :: fillOnceFrom params 0 rest

/-- **The template with all parameters filled in at once**: read once from left to right, each
placeholder of a parameter is replaced by its value, and everything else is copied. -/
def fillOnce (params : List (List Char × List Char)) (text : List Char) : List Char :=
  fillOnceFrom params 0 text

/-- The number of places of a text where the placeholder of a name stands. -/
def occurrences (name text : List Char) : Nat := text.tails.countP (placeholder name).isPrefixOf

/-- A name without braces. -/
def Braceless (name : List Char) : Prop := '{' ∉ name ∧ '}' ∉ name

instance : Decidable (Braceless name) := inferInstanceAs (Decidable (_ ∧ _))

/-- The names of the parameters differ and have no braces. -/
structure Named (params : List (List Char × List Char)) : Prop where
  nodup : (params.map (·.1)).Nodup
  braceless : ∀ p ∈ params, Braceless p.1

/-- **What is filled in brings about no placeholder** of a parameter that is filled in later. -/
def Undisturbed (params : List (List Char × List Char)) (template : List Char) : Prop :=
  ∀ before p after, params = before ++ p :: after →
    occurrences p.1 (fillOnce before template) = occurrences p.1 template

/-- **Every brace of a text belongs to a placeholder**, of a name with a property. -/
inductive IsClosed (allowed : List Char → Prop) : List Char → Prop where
  | nil : IsClosed allowed []
  | char {c : Char} {rest : List Char} (hopen : c ≠ '{') (hclose : c ≠ '}')
      (hrest : IsClosed allowed rest) : IsClosed allowed (c :: rest)
  | placeholder {name rest : List Char} (hname : Braceless name) (hallowed : allowed name)
      (hrest : IsClosed allowed rest) : IsClosed allowed (placeholder name ++ rest)

/-! ### Placeholders in a text -/

theorem placeholder_append (name text : List Char) :
    placeholder name ++ text = '{' :: (name ++ '}' :: text) := by
  simp [placeholder]

/-- A placeholder starts with a brace. -/
theorem not_isPrefix_of_ne (hc : c ≠ '{') : ¬ placeholder name <+: c :: text := by
  rintro ⟨rest, hrest⟩
  rw [placeholder_append] at hrest
  exact hc (List.cons.inj hrest).1.symm

/-- Up to its first closing brace a text can be read in one way only. -/
theorem eq_of_append_close (hname : '}' ∉ name) (hname' : '}' ∉ name')
    (h : name ++ '}' :: text = name' ++ '}' :: text') : name = name' ∧ text = text' := by
  induction name generalizing name' with
  | nil =>
    cases name' with
    | nil => exact ⟨rfl, (List.cons.inj h).2⟩
    | cons d name' => exact absurd ((List.cons.inj h).1 ▸ List.mem_cons_self) hname'
  | cons c name ih =>
    cases name' with
    | nil => exact absurd ((List.cons.inj h).1 ▸ List.mem_cons_self) hname
    | cons d name' =>
      rw [List.cons_append, List.cons_append] at h
      obtain ⟨rfl, hrest⟩ := List.cons.inj h
      obtain ⟨rfl, rfl⟩ := ih (fun hmem => hname (List.mem_cons_of_mem _ hmem))
        (fun hmem => hname' (List.mem_cons_of_mem _ hmem)) hrest
      exact ⟨rfl, rfl⟩

/-- **At one place of a text stands one placeholder.** -/
theorem placeholder_isPrefix_iff (hname : Braceless name) (hname' : Braceless name') :
    placeholder name <+: placeholder name' ++ text ↔ name = name' := by
  constructor
  · rintro ⟨rest, hrest⟩
    rw [placeholder_append, placeholder_append] at hrest
    exact (eq_of_append_close hname.2 hname'.2 (List.cons.inj hrest).2).1
  · rintro rfl
    exact List.prefix_append _ _

/-- **Induction along the placeholders of a text**: it is empty, or starts with the placeholder of one
of the names or with a character at which none of them stands. -/
theorem placeholderInduction (names : List (List Char)) {motive : List Char → Prop}
    (nil : motive [])
    (hole : ∀ name ∈ names, ∀ rest, motive rest → motive (placeholder name ++ rest))
    (char : ∀ c rest, (∀ name ∈ names, ¬ placeholder name <+: c :: rest) → motive rest →
      motive (c :: rest)) (text : List Char) : motive text := by
  induction hlength : text.length using Nat.strongRecOn generalizing text with
  | _ n ih =>
    subst hlength
    cases text with
    | nil => exact nil
    | cons c text =>
      by_cases h : ∃ name ∈ names, placeholder name <+: c :: text
      · obtain ⟨name, hname, rest, hrest⟩ := h
        rw [← hrest] at ih ⊢
        refine hole name hname rest (ih rest.length ?_ rest rfl)
        simp [placeholder]
        omega
      · exact char c text (fun name hname hprefix => h ⟨name, hname, hprefix⟩)
          (ih text.length (by simp) text rfl)

/-! ### Counting placeholders -/

@[simp]
theorem occurrences_nil (name : List Char) : occurrences name [] = 0 := by
  simp [occurrences, placeholder]

theorem occurrences_cons (name : List Char) (c : Char) (text : List Char) :
    occurrences name (c :: text) =
      occurrences name text + if placeholder name <+: c :: text then 1 else 0 := by
  simp [occurrences, List.countP_cons]

theorem occurrences_cons_of_ne (hc : c ≠ '{') :
    occurrences name (c :: text) = occurrences name text := by
  rw [occurrences_cons, if_neg (not_isPrefix_of_ne hc), Nat.add_zero]

/-- Inside a placeholder none starts. -/
theorem occurrences_append_close (hname' : '{' ∉ name') (text : List Char) :
    occurrences name (name' ++ '}' :: text) = occurrences name text := by
  induction name' with
  | nil => exact occurrences_cons_of_ne (by decide)
  | cons c name' ih =>
    rw [List.mem_cons, not_or] at hname'
    rw [List.cons_append, occurrences_cons_of_ne (Ne.symm hname'.1), ih hname'.2]

theorem occurrences_placeholder (hname : Braceless name) (hname' : Braceless name')
    (text : List Char) :
    occurrences name (placeholder name' ++ text) =
      occurrences name text + if name = name' then 1 else 0 := by
  have hstart : placeholder name <+: placeholder name' ++ text ↔ name = name' :=
    placeholder_isPrefix_iff hname hname'
  rw [placeholder_append] at hstart ⊢
  rw [occurrences_cons, occurrences_append_close hname'.1]
  simp only [hstart]

/-- Two texts side by side have at least the placeholders of either. -/
theorem occurrences_append_le (name text text' : List Char) :
    occurrences name text + occurrences name text' ≤ occurrences name (text ++ text') := by
  induction text with
  | nil => simp
  | cons c text ih =>
    have hstart : placeholder name <+: c :: text → placeholder name <+: c :: (text ++ text') :=
      fun h => h.trans (List.prefix_append (c :: text) text')
    rw [List.cons_append, occurrences_cons, occurrences_cons]
    split_ifs <;> grind

/-- A text whose braces belong to other placeholders adds none of a name. -/
theorem occurrences_append_of_isClosed (hname : Braceless name)
    (htext : IsClosed (· ≠ name) text) (text' : List Char) :
    occurrences name (text ++ text') = occurrences name text' := by
  induction htext with
  | nil => rfl
  | char hopen _ _ ih => rw [List.cons_append, occurrences_cons_of_ne hopen, ih]
  | placeholder hname' hother _ ih =>
    rw [List.append_assoc, occurrences_placeholder hname hname', ih, if_neg (Ne.symm hother)]
    rfl

/-! ### Filling in at once -/

theorem fillOnceFrom_eq (params : List (List Char × List Char)) (skip : Nat) (text : List Char) :
    fillOnceFrom params skip text = fillOnce params (text.drop skip) := by
  induction text generalizing skip with
  | nil => simp [fillOnceFrom, fillOnce]
  | cons c text ih =>
    cases skip with
    | zero => rfl
    | succ skip => rw [fillOnceFrom, ih, List.drop_succ_cons]

@[simp]
theorem fillOnce_nil (params : List (List Char × List Char)) : fillOnce params [] = [] := rfl

/-- A character at which no placeholder of a parameter stands is copied. -/
theorem fillOnce_cons (h : ∀ p ∈ params, ¬ placeholder p.1 <+: c :: text) :
    fillOnce params (c :: text) = c :: fillOnce params text := by
  have hnone : params.find? (fun p => (placeholder p.1).isPrefixOf (c :: text)) = none := by
    simpa using h
  rw [fillOnce, fillOnceFrom, hnone]
  rfl

theorem fillOnce_cons_of_ne (hc : c ≠ '{') :
    fillOnce params (c :: text) = c :: fillOnce params text :=
  fillOnce_cons fun _ _ => not_isPrefix_of_ne hc

/-- **A placeholder of a parameter** is replaced by its value. -/
theorem fillOnce_placeholder (hparams : Named params) (hp : (name, value) ∈ params)
    (text : List Char) :
    fillOnce params (placeholder name ++ text) = value ++ fillOnce params text := by
  have hname := hparams.braceless _ hp
  have hfind : params.find? (fun p => (placeholder p.1).isPrefixOf (placeholder name ++ text)) =
      some (name, value) := by
    obtain ⟨q, hq⟩ : ∃ q, params.find?
        (fun p => (placeholder p.1).isPrefixOf (placeholder name ++ text)) = some q :=
      Option.isSome_iff_exists.1 (List.find?_isSome.2 ⟨_, hp, by simp⟩)
    have hmem := List.mem_of_find?_eq_some hq
    have hprefix : placeholder q.1 <+: placeholder name ++ text := by simpa using List.find?_some hq
    have heq := (placeholder_isPrefix_iff (hparams.braceless q hmem) hname).1 hprefix
    rw [hq, List.inj_on_of_nodup_map hparams.nodup hmem hp heq]
  rw [placeholder_append] at hfind ⊢
  rw [fillOnce, fillOnceFrom, hfind]
  simp only
  rw [fillOnceFrom_eq]
  simp [placeholder]

/-- What stands before a closing brace is copied, if no brace is opened in it. -/
theorem fillOnce_append_close (hname : '{' ∉ name) (text : List Char) :
    fillOnce params (name ++ '}' :: text) = name ++ '}' :: fillOnce params text := by
  induction name with
  | nil => exact fillOnce_cons_of_ne (by decide)
  | cons c name ih =>
    rw [List.mem_cons, not_or] at hname
    rw [List.cons_append, fillOnce_cons_of_ne (Ne.symm hname.1), ih hname.2, List.cons_append]

/-- A text in which no brace is opened is copied. -/
theorem fillOnce_append_of_notMem (hopen : '{' ∉ text) (rest : List Char) :
    fillOnce params (text ++ rest) = text ++ fillOnce params rest := by
  induction text with
  | nil => rfl
  | cons c text ih =>
    rw [List.mem_cons, not_or] at hopen
    rw [List.cons_append, fillOnce_cons_of_ne (Ne.symm hopen.1), ih hopen.2, List.cons_append]

/-- A placeholder of no parameter is copied. -/
theorem fillOnce_placeholder_of_notMem (hparams : ∀ p ∈ params, Braceless p.1)
    (hname : Braceless name) (hnot : name ∉ params.map (·.1)) (text : List Char) :
    fillOnce params (placeholder name ++ text) = placeholder name ++ fillOnce params text := by
  have hstart : ∀ p ∈ params, ¬ placeholder p.1 <+: placeholder name ++ text := by
    intro p hp hprefix
    have heq := (placeholder_isPrefix_iff (hparams p hp) hname).1 hprefix
    exact hnot (heq ▸ List.mem_map_of_mem hp)
  rw [placeholder_append] at hstart ⊢
  rw [fillOnce_cons hstart, fillOnce_append_close hname.1, placeholder_append]

theorem fillOnce_of_nil (text : List Char) : fillOnce [] text = text := by
  induction text with
  | nil => rfl
  | cons c text ih => rw [fillOnce_cons (by simp), ih]

theorem Named.of_perm (hparams : Named params) (hperm : params'.Perm params) : Named params' :=
  ⟨(hperm.map _).nodup_iff.2 hparams.nodup, fun p hp => hparams.braceless p (hperm.mem_iff.1 hp)⟩

/-- The order of the parameters does not matter. -/
theorem fillOnce_perm (hparams : Named params) (hperm : params'.Perm params) (text : List Char) :
    fillOnce params' text = fillOnce params text := by
  have hparams' : Named params' := hparams.of_perm hperm
  induction text using placeholderInduction (params.map (·.1)) with
  | nil => rfl
  | hole name hname rest ih =>
    obtain ⟨p, hp, rfl⟩ := List.mem_map.1 hname
    rw [fillOnce_placeholder hparams hp, fillOnce_placeholder hparams' (hperm.mem_iff.2 hp), ih]
  | char c rest hstart ih =>
    have hnone : ∀ p ∈ params, ¬ placeholder p.1 <+: c :: rest :=
      fun p hp => hstart _ (List.mem_map_of_mem hp)
    rw [fillOnce_cons hnone, fillOnce_cons fun p hp => hnone p (hperm.mem_iff.1 hp), ih]

/-! ### One parameter more -/

/-- A single parameter is filled in at once anyway. -/
theorem replaceAll_placeholder (name value text : List Char) :
    replaceAll (placeholder name) value text = fillOnce [(name, value)] text := by
  have key : ∀ skip, replaceFrom (placeholder name) value skip text =
      fillOnceFrom [(name, value)] skip text := by
    induction text with
    | nil => intro skip; cases skip <;> rfl
    | cons c text ih =>
      intro skip
      cases skip with
      | zero =>
        rw [replaceFrom, fillOnceFrom, List.find?_singleton, ih, ih]
        split_ifs <;> rfl
      | succ skip => exact ih skip
  exact key 0

/-- Nothing is filled in where no placeholder stands. -/
theorem fillOnce_singleton_of_occurrences (h : occurrences name text = 0) :
    fillOnce [(name, value)] text = text := by
  induction text with
  | nil => rfl
  | cons c text ih =>
    rw [occurrences_cons, Nat.add_eq_zero_iff] at h
    have hstart : ¬ placeholder name <+: c :: text := by
      intro hprefix
      rw [if_pos hprefix] at h
      exact absurd h.2 Nat.one_ne_zero
    rw [fillOnce_cons (by simpa using hstart), ih h.1]

/-- Two texts side by side are filled in each on its own, if no placeholder lies across. -/
theorem fillOnce_singleton_append (hname : Braceless name)
    (h : occurrences name (text ++ text') = occurrences name text + occurrences name text') :
    fillOnce [(name, value)] (text ++ text') =
      fillOnce [(name, value)] text ++ fillOnce [(name, value)] text' := by
  have hparam : Named [(name, value)] := ⟨List.nodup_singleton _, by simpa using hname⟩
  have hmem : (name, value) ∈ [(name, value)] := List.mem_singleton_self _
  induction text using placeholderInduction [name] with
  | nil => rfl
  | hole name' hname' rest ih =>
    obtain rfl := List.mem_singleton.1 hname'
    rw [List.append_assoc, occurrences_placeholder hname hname,
      occurrences_placeholder hname hname] at h
    rw [List.append_assoc, fillOnce_placeholder hparam hmem, fillOnce_placeholder hparam hmem,
      ih (by omega), List.append_assoc]
  | char c rest hstart ih =>
    have hnot := hstart name List.mem_cons_self
    have hle := occurrences_append_le name rest text'
    rw [List.cons_append, occurrences_cons, occurrences_cons, if_neg hnot] at h
    -- no placeholder starts here in the whole, as there would be one too many
    have hwhole : ¬ placeholder name <+: c :: (rest ++ text') := by
      intro hprefix
      rw [if_pos hprefix] at h
      omega
    rw [if_neg hwhole] at h
    rw [List.cons_append, fillOnce_cons (by simpa using hwhole), ih (by omega),
      fillOnce_cons (by simpa using hnot), List.cons_append]

/-- The parameters filled in so far, with the names of the next one. -/
theorem Named.of_append {p : List Char × List Char} (h : Named (before ++ p :: after))
    (value : List Char) : Named (before ++ [(p.1, value)]) := by
  refine ⟨?_, fun q hq => ?_⟩
  · have hsub : ((before ++ [(p.1, value)]).map (·.1)).Sublist ((before ++ p :: after).map (·.1)) := by
      simp
    exact h.nodup.sublist hsub
  · rcases List.mem_append.1 hq with hq | hq
    · exact h.braceless q (List.mem_append_left _ hq)
    · rw [List.mem_singleton.1 hq]
      exact h.braceless p (List.mem_append_right _ List.mem_cons_self)

/-- A parameter that is filled in after others is none of them. -/
theorem Named.notMem {p : List Char × List Char} (h : Named (before ++ p :: after)) :
    p.1 ∉ before.map (·.1) := by
  have hnodup := h.nodup
  rw [List.map_append, List.map_cons, List.nodup_append] at hnodup
  exact fun hmem => hnodup.2.2 p.1 hmem p.1 List.mem_cons_self rfl

theorem Named.init {p : List Char × List Char} (h : Named (before ++ p :: after)) :
    Named before :=
  ⟨h.nodup.sublist ((List.sublist_append_left _ _).map _),
    fun q hq => h.braceless q (List.mem_append_left _ hq)⟩

/-- **What a text is like where one parameter more is filled in**: the ones before have been filled in,
which leaves it as it is at the placeholders of no parameter. -/
theorem stepInduction (h : Named (before ++ [(name, value)])) {motive : List Char → List Char → Prop}
    (nil : motive [] [])
    (filled : ∀ p ∈ before, p.1 ≠ name → Braceless p.1 → ∀ rest, motive rest (fillOnce before rest) →
      motive (placeholder p.1 ++ rest) (p.2 ++ fillOnce before rest))
    (next : ∀ rest, motive rest (fillOnce before rest) →
      motive (placeholder name ++ rest) (placeholder name ++ fillOnce before rest))
    (char : ∀ c rest, (∀ p ∈ before ++ [(name, value)], ¬ placeholder p.1 <+: c :: rest) →
      motive rest (fillOnce before rest) → motive (c :: rest) (c :: fillOnce before rest))
    (text : List Char) : motive text (fillOnce before text) := by
  have hname : Braceless name := h.braceless (name, value) (by simp)
  have hnot : name ∉ before.map (·.1) := h.notMem
  induction text using placeholderInduction ((before ++ [(name, value)]).map (·.1)) with
  | nil => exact nil
  | hole name' hname' rest ih =>
    obtain ⟨p, hp, rfl⟩ := List.mem_map.1 hname'
    -- the placeholders of earlier parameters are filled in, and that of the last one stays
    rcases List.mem_append.1 hp with hp | hp
    · rw [fillOnce_placeholder h.init hp]
      have hne : p.1 ≠ name := fun heq => hnot (heq ▸ List.mem_map_of_mem hp)
      exact filled p hp hne (h.init.braceless p hp) rest ih
    · obtain rfl := List.mem_singleton.1 hp
      rw [fillOnce_placeholder_of_notMem h.init.braceless hname hnot]
      exact next rest ih
  | char c rest hstart ih =>
    have hnone : ∀ p ∈ before ++ [(name, value)], ¬ placeholder p.1 <+: c :: rest :=
      fun p hp => hstart _ (List.mem_map_of_mem hp)
    rw [fillOnce_cons fun p hp => hnone p (List.mem_append_left _ hp)]
    exact char c rest hnone ih

/-- What is filled in destroys no placeholder of the next parameter. -/
theorem occurrences_le_fillOnce (h : Named (before ++ [(name, value)])) (text : List Char) :
    occurrences name text ≤ occurrences name (fillOnce before text) := by
  have hname : Braceless name := h.braceless (name, value) (by simp)
  induction text using stepInduction h with
  | nil => exact Nat.le_refl _
  | filled p hp hne hp' rest ih =>
    have hvalue := occurrences_append_le name p.2 (fillOnce before rest)
    rw [occurrences_placeholder hname hp', if_neg (Ne.symm hne)]
    omega
  | next rest ih =>
    rw [occurrences_placeholder hname hname, occurrences_placeholder hname hname]
    omega
  | char c rest hstart ih =>
    have hnot := hstart (name, value) (by simp)
    rw [occurrences_cons, occurrences_cons, if_neg hnot]
    omega

/-- **One parameter more is filled in as if at once**, if the ones before have brought about none of
its placeholders. -/
theorem fillOnce_fillOnce (h : Named (before ++ [(name, value)])) {text : List Char}
    (hcount : occurrences name (fillOnce before text) = occurrences name text) :
    fillOnce [(name, value)] (fillOnce before text) = fillOnce (before ++ [(name, value)]) text := by
  have hname : Braceless name := h.braceless (name, value) (by simp)
  have hparam : Named [(name, value)] := ⟨List.nodup_singleton _, by simpa using hname⟩
  have hlast : (name, value) ∈ before ++ [(name, value)] := by simp
  induction text using stepInduction h with
  | nil => rfl
  | filled p hp hne hp' rest ih =>
    have hvalue := occurrences_append_le name p.2 (fillOnce before rest)
    have hrest := occurrences_le_fillOnce h rest
    rw [occurrences_placeholder hname hp', if_neg (Ne.symm hne)] at hcount
    -- the value itself has none, and none lies across its end
    have hnone : occurrences name p.2 = 0 := by omega
    rw [fillOnce_singleton_append hname (by omega), fillOnce_singleton_of_occurrences hnone,
      ih (by omega), fillOnce_placeholder h (List.mem_append_left _ hp)]
  | next rest ih =>
    rw [occurrences_placeholder hname hname, occurrences_placeholder hname hname] at hcount
    rw [fillOnce_placeholder hparam (List.mem_singleton_self _), ih (by omega),
      fillOnce_placeholder h hlast]
  | char c rest hstart ih =>
    have hnot := hstart (name, value) (by simp)
    have hrest := occurrences_le_fillOnce h rest
    rw [occurrences_cons, occurrences_cons, if_neg hnot] at hcount
    have hfilled : ¬ placeholder name <+: c :: fillOnce before rest := by
      intro hprefix
      rw [if_pos hprefix] at hcount
      omega
    rw [if_neg hfilled] at hcount
    rw [fillOnce_cons (by simpa using hfilled), ih (by omega), fillOnce_cons hstart]

/-- What is left of a text when a parameter is filled in with nothing. -/
theorem length_fillOnce (h : Named (before ++ [(name, [])])) (text : List Char) :
    (fillOnce (before ++ [(name, [])]) text).length + occurrences name text * (name.length + 2) =
      (fillOnce before text).length := by
  have hname : Braceless name := h.braceless (name, []) (by simp)
  have hlast : (name, []) ∈ before ++ [(name, [])] := by simp
  have hlength : (placeholder name).length = name.length + 2 := by simp [placeholder]
  induction text using stepInduction h with
  | nil => simp
  | filled p hp hne hp' rest ih =>
    rw [fillOnce_placeholder h (List.mem_append_left _ hp), occurrences_placeholder hname hp',
      if_neg (Ne.symm hne), Nat.add_zero, List.length_append, List.length_append, ← ih,
      Nat.add_assoc]
  | next rest ih =>
    rw [fillOnce_placeholder h hlast, occurrences_placeholder hname hname, if_pos rfl,
      List.nil_append, List.length_append, hlength, ← ih, Nat.succ_mul]
    omega
  | char c rest hstart ih =>
    have hnot := hstart _ hlast
    rw [fillOnce_cons hstart, occurrences_cons, if_neg hnot, Nat.add_zero, List.length_cons,
      List.length_cons, ← ih]
    omega

/-- **If it is filled in as if at once, though with nothing**, the ones before have brought about none
of its placeholders. -/
theorem occurrences_of_fillOnce_eq (h : Named (before ++ [(name, [])])) {text : List Char}
    (heq : fillOnce [(name, [])] (fillOnce before text) = fillOnce (before ++ [(name, [])]) text) :
    occurrences name (fillOnce before text) = occurrences name text := by
  have hparam : Named ([] ++ [(name, [])]) :=
    ⟨List.nodup_singleton _, by simpa using h.braceless (name, []) (by simp)⟩
  have hone := length_fillOnce hparam (fillOnce before text)
  have hall := length_fillOnce h text
  rw [List.nil_append, fillOnce_of_nil, heq, ← hall] at hone
  exact Nat.eq_of_mul_eq_mul_right (Nat.succ_pos _) (Nat.add_left_cancel hone)

/-! ### All parameters -/

theorem fill_append (template : List Char) (before : List (List Char × List Char))
    (p : List Char × List Char) :
    fill template (before ++ [p]) = fillOnce [(p.1, p.2)] (fill template before) := by
  rw [← replaceAll_placeholder, fill, List.foldl_append]
  rfl

theorem Undisturbed.init {template : List Char} (h : Undisturbed (before ++ after) template) :
    Undisturbed before template := by
  rintro first p last rfl
  exact h first p (last ++ after) (by simp)

/-- **As long as they are undisturbed, the parameters can be filled in one after another.** -/
theorem fill_eq_fillOnce (hparams : Named params) {template : List Char}
    (h : Undisturbed params template) : fill template params = fillOnce params template := by
  induction params using List.reverseRecOn with
  | nil => exact (fillOnce_of_nil _).symm
  | append_singleton before p ih =>
    rw [fill_append, ih hparams.init h.init]
    exact fillOnce_fillOnce hparams (h before p [] rfl)

/-- **This is exactly when**, if all of them are to be filled in as if at once, whatever value each of
them has when its turn comes. -/
theorem undisturbed_iff (hparams : Named params) {template : List Char} :
    Undisturbed params template ↔ ∀ before p after, params = before ++ p :: after → ∀ value,
      fill template (before ++ [(p.1, value)]) = fillOnce (before ++ [(p.1, value)]) template := by
  constructor
  · rintro h before p after rfl value
    rw [fill_append, fill_eq_fillOnce hparams.init h.init]
    exact fillOnce_fillOnce (hparams.of_append value) (h before p after rfl)
  · rintro h before p after rfl
    -- the parameters before are filled in as if at once: the last of them with its own value
    have hbefore : fill template before = fillOnce before template := by
      rcases List.eq_nil_or_concat before with rfl | ⟨first, q, rfl⟩
      · exact (fillOnce_of_nil _).symm
      · rw [List.concat_eq_append]
        exact h first q (p :: after) (by simp) q.2
    have hnext := h before p after rfl []
    rw [fill_append, hbefore] at hnext
    exact occurrences_of_fillOnce_eq (hparams.of_append []) hnext

theorem IsClosed.mono {allowed allowed' : List Char → Prop} (h : IsClosed allowed text)
    (himp : ∀ name, allowed name → allowed' name) : IsClosed allowed' text := by
  induction h with
  | nil => exact .nil
  | char hopen hclose _ ih => exact .char hopen hclose ih
  | placeholder hname hallowed _ ih => exact .placeholder hname (himp _ hallowed) ih

theorem isClosed_of_notMem {allowed : List Char → Prop} (hopen : '{' ∉ text) (hclose : '}' ∉ text) :
    IsClosed allowed text := by
  induction text with
  | nil => exact .nil
  | cons c text ih =>
    rw [List.mem_cons, not_or] at hopen hclose
    exact .char (Ne.symm hopen.1) (Ne.symm hclose.1) (ih hopen.2 hclose.2)

theorem IsClosed.append {allowed : List Char → Prop} (h : IsClosed allowed text)
    (h' : IsClosed allowed text') : IsClosed allowed (text ++ text') := by
  induction h with
  | nil => exact h'
  | char hopen hclose _ ih => exact .char hopen hclose ih
  | placeholder hname hallowed _ ih =>
    rw [List.append_assoc]
    exact .placeholder hname hallowed ih

/-- **Closed texts are undisturbed**: those in which every brace belongs to a placeholder, as long as
the values have none of the parameters. -/
theorem undisturbed_of_isClosed (hparams : Named params) {template : List Char}
    (htemplate : IsClosed (fun _ => True) template)
    (hvalues : ∀ p ∈ params, IsClosed (· ∉ params.map (·.1)) p.2) : Undisturbed params template := by
  rintro before p after rfl
  have hname : Braceless p.1 := hparams.braceless p (by simp)
  have hnot : p.1 ∉ before.map (·.1) := hparams.notMem
  induction htemplate with
  | nil => rfl
  | char hopen _ _ ih =>
    rw [fillOnce_cons_of_ne hopen, occurrences_cons_of_ne hopen, occurrences_cons_of_ne hopen, ih]
  | @placeholder name rest hname' _ _ ih =>
    rw [occurrences_placeholder hname hname', ← ih]
    -- a value filled in before has no placeholder of the later parameter
    by_cases hmem : name ∈ before.map (·.1)
    · obtain ⟨q, hq, rfl⟩ := List.mem_map.1 hmem
      have hvalue : IsClosed (· ≠ p.1) q.2 := by
        refine (hvalues q (List.mem_append_left _ hq)).mono ?_
        rintro _ hother rfl
        exact hother (by simp)
      have hne : p.1 ≠ q.1 := fun heq => hnot (heq ▸ hmem)
      rw [fillOnce_placeholder hparams.init hq, occurrences_append_of_isClosed hname hvalue,
        if_neg hne, Nat.add_zero]
    · rw [fillOnce_placeholder_of_notMem hparams.init.braceless hname' hmem,
        occurrences_placeholder hname hname']

end Text

/-! ### Messages of failures -/

namespace Failure

open Text

/-- The parameters as they are filled in. -/
def fillings (f : Failure) : List (List Char × List Char) :=
  f.params.map fun (name, value) => (name.toList, value.toList)

/-- **The message with all parameters filled in at once.** -/
def messageAtOnce (f : Failure) : String := String.ofList (fillOnce f.fillings f.template.toList)

/-- The failure with other parameters. -/
def withParams (f : Failure) (params : List (String × String)) : Failure := { f with params }

variable {f : Failure}

theorem named_fillings (hnames : (f.params.map (·.1)).Nodup)
    (hbraces : ∀ p ∈ f.params, Braceless p.1.toList) : Named f.fillings where
  nodup := by
    have hmap : f.fillings.map (·.1) = (f.params.map (·.1)).map String.toList := by
      simp only [fillings, List.map_map]
      rfl
    rw [hmap]
    exact hnames.map fun _ _ => String.toList_inj.1
  braceless := by
    rintro p hp
    obtain ⟨q, hq, rfl⟩ := List.mem_map.1 hp
    exact hbraces q hq

theorem message_eq_messageAtOnce_iff :
    f.message = f.messageAtOnce ↔
      fill f.template.toList f.fillings = fillOnce f.fillings f.template.toList :=
  String.ofList_inj

/-- The first fillings belong to the first parameters. -/
theorem fillings_eq_append_iff {f : Failure} {before after : List (List Char × List Char)}
    {p : List Char × List Char} :
    f.fillings = before ++ p :: after ↔
      ∃ first name value last, f.params = first ++ (name, value) :: last ∧
        before = first.map (fun (name, value) => (name.toList, value.toList)) ∧
        p = (name.toList, value.toList) ∧
        after = last.map (fun (name, value) => (name.toList, value.toList)) := by
  constructor
  · intro h
    obtain ⟨first, rest, hparams, hfirst, hrest⟩ := List.map_eq_append_iff.1 h
    obtain ⟨⟨name, value⟩, last, rfl, hp, hlast⟩ := List.map_eq_cons_iff.1 hrest
    exact ⟨first, name, value, last, hparams, hfirst.symm, hp.symm, hlast.symm⟩
  · rintro ⟨first, name, value, last, hparams, rfl, rfl, rfl⟩
    simp [fillings, hparams]

/-- The values of the parameters may be taken to be texts or lists of characters. -/
theorem undisturbed_fillings_iff (hparams : Named f.fillings) :
    Undisturbed f.fillings f.template.toList ↔
      ∀ before name value after, f.params = before ++ (name, value) :: after → ∀ value',
        (f.withParams (before ++ [(name, value')])).message =
          (f.withParams (before ++ [(name, value')])).messageAtOnce := by
  have hfillings : ∀ before name value',
      (f.withParams (before ++ [(name, value')])).fillings =
        before.map (fun (name, value) => (name.toList, value.toList)) ++
          [(name.toList, value'.toList)] := by
    intro before name value'
    simp [fillings, withParams]
  rw [undisturbed_iff hparams]
  constructor
  · intro h before name value after hsplit value'
    rw [message_eq_messageAtOnce_iff, hfillings]
    exact h _ _ _ (fillings_eq_append_iff.2 ⟨before, name, value, after, hsplit, rfl, rfl, rfl⟩)
      value'.toList
  · intro h before p after hsplit value'
    obtain ⟨first, name, value, last, hparams', rfl, rfl, -⟩ := fillings_eq_append_iff.1 hsplit
    have hmessage := h first name value last hparams' (String.ofList value')
    rw [message_eq_messageAtOnce_iff, hfillings, String.toList_ofList] at hmessage
    exact hmessage

theorem undisturbed_withParams (hparams : Named f.fillings)
    (htemplate : IsClosed (fun _ => True) f.template.toList)
    (hvalues : ∀ p ∈ f.params, IsClosed (fun name => ∀ q ∈ f.params, name ≠ q.1.toList) p.2.toList)
    {params : List (String × String)} (hperm : params.Perm f.params) :
    Undisturbed (f.withParams params).fillings f.template.toList := by
  have hfillings : (f.withParams params).fillings.Perm f.fillings := hperm.map _
  have hparams' : Named (f.withParams params).fillings := hparams.of_perm hfillings
  refine undisturbed_of_isClosed hparams' htemplate fun p hp => ?_
  obtain ⟨q, hq, rfl⟩ := List.mem_map.1 hp
  refine (hvalues q (hperm.mem_iff.1 hq)).mono fun name hother hmem => ?_
  obtain ⟨p, hp, rfl⟩ := List.mem_map.1 hmem
  obtain ⟨q', hq', rfl⟩ := List.mem_map.1 hp
  exact hother q' (hperm.mem_iff.1 hq') rfl

/-- **The messages of undisturbed failures are filled in at once.** Let the parameters of a failure have
names that differ and have no braces. If the values of the parameters bring about no placeholder of a
later one, its message is the template with all parameters filled in at once. This is exactly so if the
message comes to that with any first parameters in place of all, whatever value the last of them has.
What all at once comes to does not depend on the order of the parameters; and nor does the message, if
every brace of the template belongs to a placeholder and every one of a value to that of another name,
as then no order brings about a placeholder. -/
theorem undisturbed_messages_are_filled_in_at_once (hnames : (f.params.map (·.1)).Nodup)
    (hbraces : ∀ p ∈ f.params, Braceless p.1.toList) :
    (Undisturbed f.fillings f.template.toList → f.message = f.messageAtOnce) ∧
    (Undisturbed f.fillings f.template.toList ↔
      ∀ before name value after, f.params = before ++ (name, value) :: after → ∀ value',
        (f.withParams (before ++ [(name, value')])).message =
          (f.withParams (before ++ [(name, value')])).messageAtOnce) ∧
    (∀ params, params.Perm f.params → (f.withParams params).messageAtOnce = f.messageAtOnce) ∧
    (IsClosed (fun _ => True) f.template.toList →
      (∀ p ∈ f.params, IsClosed (fun name => ∀ q ∈ f.params, name ≠ q.1.toList) p.2.toList) →
      ∀ params, params.Perm f.params →
        Undisturbed (f.withParams params).fillings f.template.toList ∧
          (f.withParams params).message = f.messageAtOnce) := by
  have hparams : Named f.fillings := named_fillings hnames hbraces
  have honce : ∀ params, params.Perm f.params →
      (f.withParams params).messageAtOnce = f.messageAtOnce := fun params hperm =>
    congrArg String.ofList (fillOnce_perm hparams (hperm.map _) f.template.toList)
  refine ⟨fun h => message_eq_messageAtOnce_iff.2 (fill_eq_fillOnce hparams h),
    undisturbed_fillings_iff hparams, honce, fun htemplate hvalues params hperm => ?_⟩
  have hundisturbed := undisturbed_withParams hparams htemplate hvalues hperm
  refine ⟨hundisturbed, ?_⟩
  rw [← honce params hperm, message_eq_messageAtOnce_iff]
  exact fill_eq_fillOnce (hparams.of_perm (hperm.map _)) hundisturbed

/-- A failure whose first parameter has a set of numbers for its value. -/
def outside : Failure where
  code := "outside"
  template := "must be in \x7bset\x7d, not \x7bgiven\x7d"
  params := [("set", "\x7b42,64\x7d"), ("given", "7")]
  value := .null
  path := []

/-- The braces around the set are no placeholder, and neither order makes one of them. -/
theorem message_of_outside :
    outside.message = "must be in \x7b42,64\x7d, not 7" ∧
      ∀ params, params.Perm outside.params →
        (outside.withParams params).message = outside.messageAtOnce := by
  have htemplate : IsClosed (fun _ => True) outside.template.toList := by
    have hsplit : outside.template.toList = "must be in ".toList ++
        (placeholder "set".toList ++ (", not ".toList ++ (placeholder "given".toList ++ []))) := by
      decide
    rw [hsplit]
    exact (isClosed_of_notMem (by decide) (by decide)).append (.placeholder (by decide) trivial
      ((isClosed_of_notMem (by decide) (by decide)).append (.placeholder (by decide) trivial .nil)))
  have hset : IsClosed (fun name => ∀ q ∈ outside.params, name ≠ q.1.toList)
      (placeholder "42,64".toList ++ []) :=
    .placeholder (by decide) (by decide) .nil
  have hvalues : ∀ p ∈ outside.params,
      IsClosed (fun name => ∀ q ∈ outside.params, name ≠ q.1.toList) p.2.toList := by
    intro p hp
    rcases List.mem_pair.1 hp with rfl | rfl
    · exact hset
    · exact isClosed_of_notMem (by decide) (by decide)
  have h := undisturbed_messages_are_filled_in_at_once (f := outside) (by decide) (by decide)
  exact ⟨by decide, fun params hperm => (h.2.2.2 htemplate hvalues params hperm).2⟩

/-- A failure whose first value is the placeholder of its second parameter. -/
def nested : Failure where
  code := "nested"
  template := "\x7ba\x7d"
  params := [("a", "\x7bb\x7d"), ("b", "x")]
  value := .null
  path := []

/-- **In general values are filled in as well**, and the order of the parameters matters. -/
theorem value_of_nested_is_filled_in :
    (¬ ∀ f : Failure, (f.params.map (·.1)).Nodup → (∀ p ∈ f.params, Braceless p.1.toList) →
      f.message = f.messageAtOnce) ∧
    ¬ ∀ f : Failure, (f.params.map (·.1)).Nodup → (∀ p ∈ f.params, Braceless p.1.toList) →
      ∀ params, params.Perm f.params → (f.withParams params).message = f.message := by
  constructor
  · intro h
    have hmessage := h nested (by decide) (by decide)
    exact absurd hmessage (by decide)
  · intro h
    have hmessage := h nested (by decide) (by decide) [("b", "x"), ("a", "\x7bb\x7d")] (by decide)
    exact absurd hmessage (by decide)

end Failure

end Validation
