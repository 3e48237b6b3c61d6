import Validation.Kind

/-!
# Where kinds apply, and what is defined and declared

Whether a kind applies to a type is a matter of its factories, or of its parts if it only expands. The
attributes of a kind that can be defined are told by their names. And what may be declared of an
attribute is up to its name: a message is a text, an order is an integer of 32 bits, and any other
attribute is one of the kind.
-/

namespace Validation.Kind

variable {k : Kind} {type : DeclaredType} {name : String} {value : Attribute}

theorem applies_of_factories (h : k.factories.isEmpty = false) (type : DeclaredType) :
    k.applies type = k.factories.any (·.applies type) := by
  obtain ⟨name, order, message, attributes, factories, parts⟩ := k
  rw [applies, h, if_neg Bool.false_ne_true]

theorem allApply_eq_all (type : DeclaredType) (parts : List (Part Kind)) :
    allApply type parts = parts.all (·.target.applies type) := by
  induction parts with
  | nil => rw [allApply, List.all_nil]
  | cons part rest ih => rw [allApply, List.all_cons, ih]

theorem applies_of_parts (h : k.factories = []) (type : DeclaredType) :
    k.applies type = k.parts.all (·.target.applies type) := by
  obtain ⟨name, order, message, attributes, factories, parts⟩ := k
  dsimp only at h
  rw [applies, h, List.isEmpty_nil, if_pos rfl, allApply_eq_all]

/-- A kind that makes something itself has a factory for each type that it applies to. -/
theorem exists_factory_of_applies (h : k.isCombinator = false) (happlies : k.applies type = true) :
    ∃ factory ∈ k.factories, factory.applies type = true ∧ k.factory? type = some factory := by
  rw [applies_of_factories h] at happlies
  have hsome : (k.factory? type).isSome := List.find?_isSome.2 (List.any_eq_true.1 happlies)
  obtain ⟨factory, hfind⟩ := Option.isSome_iff_exists.1 hsome
  have hfactory : factory.applies type = true := by simpa using List.find?_some hfind
  exact ⟨factory, List.mem_of_find?_eq_some hfind, hfactory, hfind⟩

/-! ### Definitions -/

/-- The check of the names passes where none is reserved and none stands twice. -/
theorem checkNames_eq_ok {kind : String} {seen : List String} {specs : List AttributeSpec} :
    checkNames kind seen specs = .ok () ↔
      (∀ spec ∈ specs, isReserved spec.name = false ∧ spec.name ∉ seen) ∧
        (specs.map (·.name)).Nodup := by
  induction specs generalizing seen with
  | nil => simp [checkNames]
  | cons spec specs ih =>
    rw [checkNames, List.map_cons, List.nodup_cons, List.forall_mem_cons]
    by_cases hreserved : isReserved spec.name = true
    · simp [hreserved]
    · rw [if_neg hreserved]
      by_cases hseen : seen.contains spec.name = true
      · rw [if_pos hseen]
        simp [List.contains_iff_mem.1 hseen]
      · rw [if_neg hseen, ih]
        rw [List.contains_iff_mem] at hseen
        -- a name is new for the rest if it is not seen before and not that of the first attribute
        grind

/-- What is defined is the kind itself, and its attributes have names of their own. -/
theorem of_define {k' : Kind} (h : k.define = .ok k') :
    k' = k ∧ (∀ spec ∈ k.attributes, isReserved spec.name = false) ∧
      (k.attributes.map (·.name)).Nodup := by
  unfold define at h
  split at h
  · cases h
  · cases hcheck : checkNames k.name [] k.attributes with
    | error e =>
      rw [hcheck] at h
      cases h
    | ok =>
      rw [hcheck] at h
      obtain ⟨hnames, hnodup⟩ := checkNames_eq_ok.1 hcheck
      exact ⟨(Except.ok.inj h).symm, fun spec hspec => (hnames spec hspec).1, hnodup⟩

/-! ### Declarations -/

theorem ofInt?_eq_some_iff {n : Int} :
    Order.ofInt? n = some n ↔ -0x80000000 ≤ n ∧ n ≤ 0x7FFFFFFF := by
  unfold Order.ofInt?
  split
  case isTrue h => exact iff_of_true rfl h
  case isFalse h => exact iff_of_false nofun h

theorem checkDeclared_message_iff :
    k.checkDeclared messageName value = .ok () ↔ ∃ text, value = .text text := by
  rw [checkDeclared, if_pos rfl]
  cases value <;> simp [Attribute.text?]

theorem checkDeclared_order_iff : k.checkDeclared orderName value = .ok () ↔
    ∃ n, value = .int n ∧ -0x80000000 ≤ n ∧ n ≤ 0x7FFFFFFF := by
  rw [checkDeclared, if_neg (by decide), if_pos rfl]
  cases value with
  | int n =>
    have hrange : (Order.ofInt? n).isSome = true ↔ -0x80000000 ≤ n ∧ n ≤ 0x7FFFFFFF := by
      rw [← ofInt?_eq_some_iff, Order.ofInt?]
      split <;> simp
    simp [Attribute.int?, hrange]
  | _ => simp [Attribute.int?]

theorem checkDeclared_other_iff (hmessage : name ≠ messageName) (horder : name ≠ orderName) :
    k.checkDeclared name value = .ok () ↔ ∃ spec ∈ k.attributes, spec.name = name := by
  rw [checkDeclared, if_neg hmessage, if_neg horder]
  simp [attribute?, List.find?_isSome]

end Validation.Kind
