import Mathlib.Data.List.Sort
import Validation.Catalog.Numeric
import Validation.Proofs.Interning.Instances

/-!
# Resolved attributes

A declaration resolves if what it declares fits its kind and nothing that has to be declared is left
out. The attributes are then those that are declared, with the defaults of the others, and nothing
else. So what a declaration resolves to depends only on the values that its attributes have once the
defaults are written out, and this goes for its errors as well: a default that is declared changes
nothing.

* `Kind.Admits`: what a declaration has to be like.
* `Kind.written`: the value of an attribute once the defaults are written out.
* `resolve_congr`: declarations with the same values come to the same.
* `resolved_attributes_are_declared_or_default`: all of this for the kinds that can be defined.
-/

namespace Validation

namespace Attributes

variable {a b : Attributes}

theorem nodup_names (a : Attributes) : (a.entries.map (·.1)).Nodup := by
  have hsorted : (a.entries.map (·.1)).Pairwise (· < ·) := List.pairwise_map.2 a.sorted
  refine hsorted.imp ?_
  rintro name _ h rfl
  exact String.lt_irrefl name h

theorem get?_eq_some_iff {name : String} {value : Attribute} :
    a.get? name = some value ↔ (name, value) ∈ a.entries :=
  ⟨mem_of_lookup, lookup_of_mem a.nodup_names⟩

/-- Lists of entries in ascending order of their names are equal if they have the same members. -/
theorem entries_eq_of_mem_iff {l l' : List (String × Attribute)} (hl : l.Pairwise (·.1 < ·.1))
    (hl' : l'.Pairwise (·.1 < ·.1)) (h : ∀ e, e ∈ l ↔ e ∈ l') : l = l' := by
  have hirrefl : Std.Irrefl fun e e' : String × Attribute => e.1 < e'.1 := ⟨fun e => String.lt_irrefl e.1⟩
  have hantisymm : Std.Antisymm fun e e' : String × Attribute => e.1 < e'.1 :=
    ⟨fun e e' h h' => absurd h' (String.lt_asymm h)⟩
  exact hl.eq_of_mem_iff hl' h

/-- **Attributes are told by their values.** -/
theorem ext_get? (h : ∀ name, a.get? name = b.get? name) : a = b := by
  have hentries : a.entries = b.entries := by
    refine entries_eq_of_mem_iff a.sorted b.sorted fun e => ?_
    rw [← get?_eq_some_iff, ← get?_eq_some_iff, h]
  obtain ⟨entries, sorted⟩ := a
  obtain ⟨entries', sorted'⟩ := b
  dsimp only at hentries
  subst hentries
  rfl

end Attributes

namespace Kind

/-- **What a declaration has to be like**: a message is a text, an order is an integer of 32 bits, all
other names are those of attributes of the kind, and no attribute without a default is left out. -/
structure Admits (k : Kind) (declared : Attributes) : Prop where
  message : ∀ value, declared.get? messageName = some value → ∃ text, value = .text text
  order : ∀ value, declared.get? orderName = some value →
    ∃ n, value = .int n ∧ -0x80000000 ≤ n ∧ n ≤ 0x7FFFFFFF
  known : ∀ name value, declared.get? name = some value → name ≠ messageName → name ≠ orderName →
    ∃ spec ∈ k.attributes, spec.name = name
  required : ∀ spec ∈ k.attributes, spec.default = none → declared.contains spec.name = true

/-- **The value of an attribute once the defaults are written out**: the declared one, or else the
default of the kind's attribute of that name, if there is one. -/
def written (k : Kind) (declared : Attributes) (name : String) : Option Attribute :=
  (declared.get? name).or ((k.attribute? name).bind (·.default))

/-- The attributes of two declarations have the same values once the defaults are written out. -/
def SameWritten (k : Kind) (declared declared' : Attributes) : Prop :=
  ∀ name, k.written declared name = k.written declared' name

variable {k : Kind} {spec : AttributeSpec} {declared declared' attributes attributes' : Attributes}
  {name : String} {value : Attribute}

theorem SameWritten.symm (h : k.SameWritten declared declared') : k.SameWritten declared' declared :=
  fun name => (h name).symm

theorem SameWritten.trans {declared'' : Attributes} (h : k.SameWritten declared declared')
    (h' : k.SameWritten declared' declared'') : k.SameWritten declared declared'' :=
  fun name => (h name).trans (h' name)

/-- The checks of what is declared succeed where it fits the kind. -/
theorem forM_checkDeclared_iff :
    (declared.entries.forM fun (name, value) => k.checkDeclared name value) = .ok () ↔
      (∀ value, declared.get? messageName = some value → ∃ text, value = .text text) ∧
      (∀ value, declared.get? orderName = some value →
        ∃ n, value = .int n ∧ -0x80000000 ≤ n ∧ n ≤ 0x7FFFFFFF) ∧
      ∀ name value, declared.get? name = some value → name ≠ messageName → name ≠ orderName →
        ∃ spec ∈ k.attributes, spec.name = name := by
  rw [forM_eq_ok]
  constructor
  · intro h
    have hcheck : ∀ name value, declared.get? name = some value →
        k.checkDeclared name value = .ok () :=
      fun name value hvalue => h _ (Attributes.get?_eq_some_iff.1 hvalue)
    refine ⟨fun value hvalue => ?_, fun value hvalue => ?_, fun name value hvalue hm ho => ?_⟩
    · exact checkDeclared_message_iff.1 (hcheck _ _ hvalue)
    · exact checkDeclared_order_iff.1 (hcheck _ _ hvalue)
    · exact (checkDeclared_other_iff hm ho).1 (hcheck _ _ hvalue)
  · rintro ⟨hmessage, horder, hknown⟩ ⟨name, value⟩ hmem
    have hvalue : declared.get? name = some value := Attributes.get?_eq_some_iff.2 hmem
    by_cases hm : name = messageName
    · subst hm
      exact checkDeclared_message_iff.2 (hmessage value hvalue)
    · by_cases ho : name = orderName
      · subst ho
        exact checkDeclared_order_iff.2 (horder value hvalue)
      · exact (checkDeclared_other_iff hm ho).2 (hknown name value hvalue hm ho)

/-! ### What is filled in -/

section Define

variable (hk : k.define = .ok k)
include hk

theorem attribute?_of_mem (hspec : spec ∈ k.attributes) : k.attribute? spec.name = some spec := by
  have hnodup : (k.attributes.map (·.name)).Nodup := (of_define hk).2.2
  cases hfind : k.attribute? spec.name with
  | none =>
    have hnone := List.find?_eq_none.1 hfind spec hspec
    simp at hnone
  | some found =>
    have hname : found.name = spec.name := by simpa using List.find?_some hfind
    rw [List.inj_on_of_nodup_map hnodup (List.mem_of_find?_eq_some hfind) hspec hname]

/-- A default passes the check of what is declared. -/
theorem checkDeclared_of_mem (hspec : spec ∈ k.attributes) (value : Attribute) :
    k.checkDeclared spec.name value = .ok () := by
  have hreserved : isReserved spec.name = false := (of_define hk).2.1 spec hspec
  rw [isReserved, Bool.or_eq_false_iff, beq_eq_false_iff_ne, beq_eq_false_iff_ne] at hreserved
  exact (checkDeclared_other_iff hreserved.1 hreserved.2).2 ⟨spec, hspec, rfl⟩

/-- An attribute without a default has a value only where it is declared. -/
theorem SameWritten.contains (h : k.SameWritten declared declared') (hspec : spec ∈ k.attributes)
    (hnone : spec.default = none) : declared.contains spec.name = declared'.contains spec.name := by
  have hwritten : ∀ d : Attributes, k.written d spec.name = d.get? spec.name := by
    intro d
    rw [written, attribute?_of_mem hk hspec, Option.bind_some, hnone, Option.or_none]
  rw [Attributes.contains, Attributes.contains, ← hwritten, ← hwritten, h]

/-- To fill in a default changes no value. -/
theorem sameWritten_of_fillDefault (hspec : spec ∈ k.attributes)
    (h : k.fillDefault declared spec = .ok attributes) : k.SameWritten attributes declared := by
  obtain ⟨-, hget⟩ := get?_of_fillDefault h
  intro name
  rw [written, written, hget]
  by_cases hname : spec.name = name
  · rw [if_pos hname, ← hname, attribute?_of_mem hk hspec, Option.bind_some, Option.or_assoc,
      Option.or_self]
  · rw [if_neg hname, Option.or_none]

omit hk in
theorem exists_fillDefault_iff : (∃ attributes, k.fillDefault declared spec = .ok attributes) ↔
    (spec.default = none → declared.contains spec.name = true) := by
  unfold fillDefault
  cases declared.contains spec.name <;> cases spec.default <;> simp

/-- All defaults can be filled in if nothing is left out that has to be declared. -/
theorem exists_fill_iff {specs : List AttributeSpec} (hspecs : ∀ spec ∈ specs, spec ∈ k.attributes) :
    (∃ attributes, specs.foldlM k.fillDefault declared = .ok attributes) ↔
      ∀ spec ∈ specs, spec.default = none → declared.contains spec.name = true := by
  induction specs generalizing declared with
  | nil => simp
  | cons spec specs ih =>
    obtain ⟨hspec, hspecs⟩ := List.forall_mem_cons.1 hspecs
    -- with one default filled in, the others are required as before
    have hsame : ∀ d, k.fillDefault declared spec = .ok d →
        ((∀ s ∈ specs, s.default = none → d.contains s.name = true) ↔
          ∀ s ∈ specs, s.default = none → declared.contains s.name = true) := by
      intro d hd
      have hwritten := sameWritten_of_fillDefault hk hspec hd
      refine forall₂_congr fun s hs => imp_congr_right fun hnone => ?_
      rw [hwritten.contains hk (hspecs s hs) hnone]
    rw [List.forall_mem_cons, ← exists_fillDefault_iff]
    constructor
    · rintro ⟨attributes, h⟩
      obtain ⟨d, hd, hrest⟩ := foldlM_cons_eq_ok.1 h
      exact ⟨⟨d, hd⟩, (hsame d hd).1 ((ih hspecs).1 ⟨attributes, hrest⟩)⟩
    · rintro ⟨⟨d, hd⟩, hrest⟩
      obtain ⟨attributes, h⟩ := (ih hspecs).2 ((hsame d hd).2 hrest)
      exact ⟨attributes, foldlM_cons_eq_ok.2 ⟨d, hd, h⟩⟩

/-- To fill in one default comes to the same where the values are the same. -/
theorem agree_fillDefault (hspec : spec ∈ k.attributes) (h : k.SameWritten declared declared') :
    Agree k.SameWritten (k.fillDefault declared spec) (k.fillDefault declared' spec) := by
  cases hfill : k.fillDefault declared spec with
  | ok attributes =>
    obtain ⟨attributes', hfill'⟩ : ∃ attributes', k.fillDefault declared' spec = .ok attributes' := by
      rw [exists_fillDefault_iff]
      intro hnone
      rw [← h.contains hk hspec hnone]
      exact exists_fillDefault_iff.1 ⟨attributes, hfill⟩ hnone
    rw [hfill']
    exact ((sameWritten_of_fillDefault hk hspec hfill).trans h).trans
      (sameWritten_of_fillDefault hk hspec hfill').symm
  | error e =>
    -- only an attribute without a default can be missing, and it is missing on both sides
    unfold fillDefault at hfill ⊢
    split at hfill
    · cases hfill
    case isFalse hmissing =>
      split at hfill
      · cases hfill
      case h_2 hnone =>
        rw [h.contains hk hspec hnone] at hmissing
        rw [if_neg hmissing, ← hfill]
        rfl

omit hk in
/-- **What attributes resolve to** are the values that they have once the defaults are written out. -/
theorem sameWritten_of_resolve (h : k.resolve declared = .ok attributes) :
    k.SameWritten attributes declared := by
  intro name
  have hget := get?_of_resolve h name
  rw [written, written, hget, Option.or_assoc, Option.or_self]

/-- Where the values are the same the check of what is declared fails first for the same attribute. -/
theorem forM_checkDeclared_congr (h : k.SameWritten declared declared') :
    (declared.entries.forM fun (name, value) => k.checkDeclared name value) =
      declared'.entries.forM fun (name, value) => k.checkDeclared name value := by
  -- what is declared on one side only is a default, and passes
  have hmem : ∀ {d d' : Attributes}, k.SameWritten d d' → ∀ name value, (name, value) ∈ d.entries →
      k.checkDeclared name value ≠ .ok () → (name, value) ∈ d'.entries := by
    intro d d' hwritten name value hmem hbad
    rw [← Attributes.get?_eq_some_iff] at hmem ⊢
    have hname := hwritten name
    rw [written, written, hmem, Option.some_or, eq_comm, Option.or_eq_some_iff] at hname
    rcases hname with hname | ⟨-, hdefault⟩
    · exact hname
    · obtain ⟨spec, hfind, -⟩ := Option.bind_eq_some_iff.1 hdefault
      have heq : spec.name = name := by simpa using List.find?_some hfind
      exact absurd (heq ▸ checkDeclared_of_mem hk (List.mem_of_find?_eq_some hfind) value) hbad
  rw [← forM_filter (l := declared.entries), ← forM_filter (l := declared'.entries)]
  congr 1
  refine Attributes.entries_eq_of_mem_iff (declared.sorted.filter _) (declared'.sorted.filter _) ?_
  rintro ⟨name, value⟩
  simp only [List.mem_filter, Bool.not_eq_true', isOk_eq_false_iff]
  constructor
  · rintro ⟨hin, hbad⟩
    exact ⟨hmem h name value hin hbad, hbad⟩
  · rintro ⟨hin, hbad⟩
    exact ⟨hmem h.symm name value hin hbad, hbad⟩

/-- **Declarations with the same values resolve to the same**, be it attributes or an error. -/
theorem resolve_congr (h : k.SameWritten declared declared') :
    k.resolve declared = k.resolve declared' := by
  have hspecs : List.Forall₂ (fun s s' => s = s' ∧ s ∈ k.attributes) k.attributes k.attributes :=
    List.forall₂_same.2 fun s hs => ⟨rfl, hs⟩
  have hfill : Agree k.SameWritten (k.attributes.foldlM k.fillDefault declared)
      (k.attributes.foldlM k.fillDefault declared') := by
    refine agree_foldlM_of_forall₂ hspecs ?_ h
    rintro s _ ⟨rfl, hs⟩ d d' hd
    exact agree_fillDefault hk hs hd
  have hagree : Agree k.SameWritten (k.resolve declared) (k.resolve declared') := by
    unfold resolve
    rw [forM_checkDeclared_congr hk h]
    exact agree_bind (agree_refl fun _ => rfl) fun _ _ _ => hfill
  cases hd : k.resolve declared <;> cases hd' : k.resolve declared' <;> rw [hd, hd'] at hagree
  case error.error => exact congrArg _ hagree
  case error.ok => exact absurd hagree id
  case ok.error => exact absurd hagree id
  case ok.ok attributes attributes' =>
    -- attributes hold all that is written, so they are told by it
    refine congrArg _ (Attributes.ext_get? fun name => ?_)
    rw [get?_of_resolve hd, get?_of_resolve hd']
    exact h name

/-- **A declaration resolves** just if it is admitted. -/
theorem exists_resolve_iff : (∃ attributes, k.resolve declared = .ok attributes) ↔
    k.Admits declared := by
  unfold resolve
  simp only [bind_eq_ok]
  constructor
  · rintro ⟨attributes, ⟨⟩, hcheck, hfill⟩
    obtain ⟨hmessage, horder, hknown⟩ := forM_checkDeclared_iff.1 hcheck
    exact ⟨hmessage, horder, hknown, (exists_fill_iff hk fun _ hs => hs).1 ⟨attributes, hfill⟩⟩
  · rintro ⟨hmessage, horder, hknown, hrequired⟩
    obtain ⟨attributes, hfill⟩ := (exists_fill_iff hk fun _ hs => hs).2 hrequired
    exact ⟨attributes, (), forM_checkDeclared_iff.2 ⟨hmessage, horder, hknown⟩, hfill⟩

end Define

/-- **Resolved attributes are those that are declared and the defaults of the others.** For every kind
that can be defined, a declaration resolves just if the kind admits it. Each attribute then has the
declared value or else its default, no other name has a value, and the attributes resolve to
themselves. Declarations that are the same once the defaults are written out resolve to the same, and
are one constraint of every cache. -/
theorem resolved_attributes_are_declared_or_default {k₀ k : Kind} (hk : k₀.define = .ok k) :
    (∀ declared, (∃ attributes, k.resolve declared = .ok attributes) ↔ k.Admits declared) ∧
    (∀ declared attributes, k.resolve declared = .ok attributes →
      (∀ name, attributes.get? name = k.written declared name) ∧
      k.resolve attributes = .ok attributes) ∧
    ∀ declared declared', k.SameWritten declared declared' →
      k.resolve declared = k.resolve declared' ∧ k.intern declared = k.intern declared' := by
  obtain ⟨rfl, -, -⟩ := of_define hk
  refine ⟨fun declared => exists_resolve_iff hk, ?_, ?_⟩
  · intro declared attributes h
    refine ⟨get?_of_resolve h, ?_⟩
    rw [resolve_congr hk (sameWritten_of_resolve h), h]
  · intro declared declared' h
    have hresolve := resolve_congr hk h
    refine ⟨hresolve, ?_⟩
    rw [intern, intern, internAt_eq, internAt_eq, hresolve]

end Kind

namespace Builtin

/-- A range from 3 up. -/
def fromThree : Attributes := Attributes.empty.insert "min" (.int 3)

/-- A range from 3 up, with the greatest integer as its other end. -/
def fromThreeToGreatest : Attributes := fromThree.insert "max" (.int 0x7FFFFFFFFFFFFFFF)

/-- A range from 3 up is one constraint, whether its other end is declared or left out, where it is the
greatest integer. -/
theorem range_to_greatest_is_default :
    range.define = .ok range ∧
    (∃ attributes, range.resolve fromThree = .ok attributes ∧
      attributes.get? "max" = some (.int 0x7FFFFFFFFFFFFFFF) ∧
      range.resolve attributes = .ok attributes) ∧
    range.intern fromThree = range.intern fromThreeToGreatest := by
  have hdefine : range.define = .ok range := rfl
  obtain ⟨hresolves, hvalues, hsame⟩ := Kind.resolved_attributes_are_declared_or_default hdefine
  have hadmits : range.Admits fromThreeToGreatest := by
    refine (hresolves _).1 (exists_of_isOk ?_)
    decide +kernel
  have hfill : range.fillDefault fromThree ⟨"max", some (.int 0x7FFFFFFFFFFFFFFF)⟩ =
      .ok fromThreeToGreatest := by decide +kernel
  have hwritten := (Kind.sameWritten_of_fillDefault hdefine (by decide +kernel) hfill).symm
  obtain ⟨attributes, hattributes⟩ := (hresolves _).2 hadmits
  rw [← (hsame _ _ hwritten).1] at hattributes
  obtain ⟨hget, hself⟩ := hvalues _ _ hattributes
  exact ⟨hdefine, ⟨attributes, hattributes, (hget "max").trans (by decide +kernel), hself⟩,
    (hsame _ _ hwritten).2⟩

end Builtin

end Validation
