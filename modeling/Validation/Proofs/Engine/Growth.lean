import Validation.Engine.Basic
import Validation.Proofs.Built

/-!
# Engines grow

Requests only add to an engine: classes, trees, criteria and analysed classes stay once they are
there, whether a request succeeds or fails.

* `Engine.Grows`: one engine has all that another has.
* `lookup_insertAbsent`: what an insertion adds.
-/

namespace Validation.Engine

/-- The second engine has all that the first one has. -/
structure Grows (e e' : Engine) : Prop where
  config : e'.config = e.config
  catalog : e'.catalog = e.catalog
  extractors : e'.extractors = e.extractors
  classes : ∀ name schema, e.schema? name = some schema → e'.schema? name = some schema
  trees : ∀ root t, e.trees.lookup root = some t → e'.trees.lookup root = some t
  compiled : ∀ root c, e.compiled.lookup root = some c → e'.compiled.lookup root = some c
  analysed : ∀ name ∈ e.analysed, name ∈ e'.analysed

theorem Grows.refl (e : Engine) : Grows e e :=
  ⟨rfl, rfl, rfl, fun _ _ h => h, fun _ _ h => h, fun _ _ h => h, fun _ h => h⟩

theorem Grows.trans {e e' e'' : Engine} (h : Grows e e') (h' : Grows e' e'') : Grows e e'' where
  config := h'.config.trans h.config
  catalog := h'.catalog.trans h.catalog
  extractors := h'.extractors.trans h.extractors
  classes := fun name schema hs => h'.classes name schema (h.classes name schema hs)
  trees := fun root t ht => h'.trees root t (h.trees root t ht)
  compiled := fun root c hc => h'.compiled root c (h.compiled root c hc)
  analysed := fun name hn => h'.analysed name (h.analysed name hn)

/-- The names of the registered classes. -/
def classNames (e : Engine) : List String := e.classes.map (·.name)

theorem schema?_isSome {e : Engine} {name : String} :
    (∃ schema, e.schema? name = some schema) ↔ name ∈ e.classNames := by
  simp only [schema?, classNames, List.mem_map, ← Option.isSome_iff_exists, List.find?_isSome,
    beq_iff_eq]

theorem classNames_of_classes {e e' : Engine}
    (h : ∀ name schema, e.schema? name = some schema → e'.schema? name = some schema) {name : String}
    (hname : name ∈ e.classNames) : name ∈ e'.classNames := by
  obtain ⟨schema, hschema⟩ := schema?_isSome.2 hname
  exact schema?_isSome.1 ⟨schema, h name schema hschema⟩

theorem Grows.classNames {e e' : Engine} (h : Grows e e') {name : String}
    (hname : name ∈ e.classNames) : name ∈ e'.classNames := classNames_of_classes h.classes hname

/-- A registered class stays when another is registered after it. -/
theorem schema?_register {e : Engine} {name : String} {found : ClassSchema}
    (h : e.schema? name = some found) (schema : ClassSchema) :
    { e with classes := e.classes ++ [schema] }.schema? name = some found := by
  rw [schema?] at h ⊢
  rw [List.find?_append, h, Option.some_or]

section Insert

variable {α β : Type} [BEq α]

theorem prefix_insertAbsent (key : α) (value : β) (entries : List (α × β)) :
    entries <+: insertAbsent key value entries := by
  unfold insertAbsent
  split
  · exact List.prefix_rfl
  · exact List.prefix_append _ _

theorem lookup_insertAbsent_of_some {key k : α} {value v : β} {entries : List (α × β)}
    (h : entries.lookup k = some v) : (insertAbsent key value entries).lookup k = some v :=
  (prefix_insertAbsent key value entries).lookup_eq_some h

theorem lookup_insertAbsent_self [LawfulBEq α] {key : α} {value : β} {entries : List (α × β)}
    (h : entries.lookup key = none) : (insertAbsent key value entries).lookup key = some value := by
  unfold insertAbsent
  rw [h, List.lookup_append, h]
  simp

theorem exists_lookup_insertAbsent [LawfulBEq α] (key : α) (value : β) (entries : List (α × β)) :
    ∃ v, (insertAbsent key value entries).lookup key = some v := by
  cases h : entries.lookup key with
  | some v => exact ⟨v, lookup_insertAbsent_of_some h⟩
  | none => exact ⟨value, lookup_insertAbsent_self h⟩

theorem nodup_keys_insertAbsent [LawfulBEq α] {key : α} {value : β} {entries : List (α × β)}
    (h : (entries.map (·.1)).Nodup) : ((insertAbsent key value entries).map (·.1)).Nodup := by
  unfold insertAbsent
  split
  case h_1 => exact h
  case h_2 habsent => exact nodup_keys_append h habsent

/-- What is found after an insertion was there before or is what was inserted. -/
theorem lookup_insertAbsent [LawfulBEq α] {key k : α} {value v : β} {entries : List (α × β)}
    (h : (insertAbsent key value entries).lookup k = some v) :
    entries.lookup k = some v ∨ k = key ∧ v = value := by
  unfold insertAbsent at h
  split at h
  · exact .inl h
  · rw [List.lookup_append] at h
    cases hk : entries.lookup k with
    | some w => rw [hk] at h; exact .inl h
    | none =>
      rw [hk, Option.none_or, List.lookup_cons] at h
      split at h
      case h_1 heq => exact .inr ⟨eq_of_beq heq, (Option.some.inj h).symm⟩
      case h_2 => cases h

end Insert

end Validation.Engine
