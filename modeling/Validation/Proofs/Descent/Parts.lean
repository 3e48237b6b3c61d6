import Mathlib.Logic.Relation
import Validation.Proofs.Built
import Validation.Proofs.Reports

/-!
# Into the parts of a value

A check of a value goes on to what lies inside it: the items of a list, the keys and values of a map,
the content of an optional and the fields of an object. Only an optional wrapper may hand on the very
same value, since a value that is no optional stands for itself, and an extractor may hand on
anything; but an optional wrapper never stands right below a class, and what an extractor leads to
cascades into nothing. So a class asks for other classes only of what lies properly inside its own
value.

* `Value.parts`, `Value.PartOf`, `Value.ProperPartOf`: what lies inside a value.
* `Value.height_lt`: a proper part is smaller.
* `Node.Descends`: a tree that goes from a value to its parts wherever it cascades.
* `Node.AsksOf`: the requests that such a tree makes.
* `heeds_of_descends`: it makes no others.
-/

namespace Validation

namespace Value

/-- What lies right inside a value. -/
def parts : Value → List Value
  | list items => items
  | map entries => entries.flatMap fun entry => [entry.1, entry.2]
  | optional content => content.toList
  | object _ fields => fields.map (·.2)
  | _ => []

/-- The value is another one or lies somewhere inside it. -/
def PartOf : Value → Value → Prop := Relation.ReflTransGen fun x v => x ∈ v.parts

/-- The value lies somewhere inside another one. -/
def ProperPartOf : Value → Value → Prop := Relation.TransGen fun x v => x ∈ v.parts

mutual

/-- How deep values lie inside a value. -/
def height : Value → Nat
  | list items => heightItems items
  | map entries => heightEntries entries
  | optional (some content) => content.height + 1
  | object _ fields => heightFields fields
  | _ => 0

/-- How deep values lie inside a list of the items. -/
def heightItems : List Value → Nat
  | [] => 0
  | v :: rest => max (v.height + 1) (heightItems rest)

/-- How deep values lie inside a map of the entries. -/
def heightEntries : List (Value × Value) → Nat
  | [] => 0
  | (k, v) :: rest => max (max (k.height + 1) (v.height + 1)) (heightEntries rest)

/-- How deep values lie inside an object of the fields. -/
def heightFields : List (String × Value) → Nat
  | [] => 0
  | (_, v) :: rest => max (v.height + 1) (heightFields rest)

end

theorem height_lt_items {x : Value} {items : List Value} (h : x ∈ items) :
    x.height < heightItems items := by
  induction items with
  | nil => cases h
  | cons v rest ih =>
    rw [heightItems]
    rcases List.mem_cons.1 h with rfl | h
    · omega
    · have := ih h
      omega

theorem height_lt_entries {entry : Value × Value} {entries : List (Value × Value)}
    (h : entry ∈ entries) :
    entry.1.height < heightEntries entries ∧ entry.2.height < heightEntries entries := by
  induction entries with
  | nil => cases h
  | cons first rest ih =>
    rw [heightEntries]
    rcases List.mem_cons.1 h with rfl | h
    · omega
    · have := ih h
      omega

theorem height_lt_fields {field : String × Value} {fields : List (String × Value)}
    (h : field ∈ fields) : field.2.height < heightFields fields := by
  induction fields with
  | nil => cases h
  | cons first rest ih =>
    rw [heightFields]
    rcases List.mem_cons.1 h with rfl | h
    · omega
    · have := ih h
      omega

/-- What lies right inside a value is smaller. -/
theorem height_lt_of_mem_parts {x v : Value} (h : x ∈ v.parts) : x.height < v.height := by
  cases v with
  | list items =>
    rw [height]
    exact height_lt_items h
  | map entries =>
    rw [height]
    obtain ⟨entry, hentry, hx⟩ := List.mem_flatMap.1 h
    obtain ⟨hkey, hvalue⟩ := height_lt_entries hentry
    rcases List.mem_pair.1 hx with rfl | rfl
    · exact hkey
    · exact hvalue
  | optional content =>
    obtain rfl : content = some x := Option.mem_toList.1 h
    rw [height]
    omega
  | object className fields =>
    rw [height]
    obtain ⟨field, hfield, rfl⟩ := List.mem_map.1 h
    exact height_lt_fields hfield
  | _ => cases h

/-- **A proper part is smaller.** -/
theorem height_lt {x v : Value} (h : x.ProperPartOf v) : x.height < v.height := by
  induction h with
  | single h => exact height_lt_of_mem_parts h
  | tail _ h ih => exact Nat.lt_trans ih (height_lt_of_mem_parts h)

theorem height_le {x v : Value} (h : x.PartOf v) : x.height ≤ v.height := by
  rcases Relation.reflTransGen_iff_eq_or_transGen.1 h with rfl | h
  · exact Nat.le_refl _
  · exact Nat.le_of_lt (height_lt h)

/-- Nothing but null is a part of null. -/
theorem eq_null_of_partOf {x : Value} (h : x.PartOf .null) : x = .null := by
  rcases Relation.ReflTransGen.cases_tail h with h | ⟨y, -, hy⟩
  · exact h.symm
  · cases hy

end Value

/-- **How a wrapper descends**: to null, to something right inside the value, or from a value that is
no optional to itself. Properties have to be read from stored fields, and extractors are left out. -/
theorem Wrapper.Enters.descends {w : Wrapper} {v x : Value} {steps : List Step}
    (h : w.Enters v steps x) (hstored : ∀ a, w = .property a → a.getter = none)
    (hnot : ∀ extractor, w ≠ .extracted extractor) :
    x = .null ∨ x ∈ v.parts ∨ w = .optionalValue ∧ x = v := by
  cases h with
  | @property accessor className fields =>
    -- a stored field is inside the object, and a missing one reads as null
    have hread : accessor.read (.object className fields) =
        (fields.lookup accessor.name).getD .null := by
      rw [Accessor.read, hstored accessor rfl]
      rfl
    rw [hread]
    cases hfind : fields.lookup accessor.name with
    | none => exact .inl rfl
    | some x =>
      exact .inr (.inl (List.mem_map.2 ⟨(accessor.name, x), mem_of_lookup hfind, rfl⟩))
  | arrayElement h => exact .inr (.inl (List.mem_of_getElem? h))
  | iterableElement h => exact .inr (.inl (List.mem_of_getElem? h))
  | mapKey h => exact .inr (.inl (List.mem_flatMap.2 ⟨_, h, by simp⟩))
  | mapValue h => exact .inr (.inl (List.mem_flatMap.2 ⟨_, h, by simp⟩))
  | held => exact .inr (.inl (by simp [Value.parts]))
  | empty => exact .inl rfl
  | plain => exact .inr (.inr ⟨rfl, rfl⟩)
  | found => exact absurd rfl (hnot _)
  | absent => exact absurd rfl (hnot _)

namespace Node

/-- A node that reads properties from stored fields, and whose extractors lead to nothing that
cascades. -/
structure Descends (n : Node) : Prop where
  stored : ∀ k ∈ n.children, ∀ accessor, k.wrapper = .property accessor → accessor.getter = none
  extracted : ∀ k ∈ n.children, ∀ extractor, k.wrapper = .extracted extractor → k.node.cascades = []

/-- The node of a class: it cascades into nothing itself, and has properties right below. -/
def OfProperties (n : Node) : Prop :=
  n.cascade = none ∧ ∀ k ∈ n.children, ∃ accessor, k.wrapper = .property accessor

/-- **What a tree asks for** of a value: classes that it cascades into, of parts of the value that are
not null. The tree of a class asks of proper parts only. -/
structure AsksOf (n : Node) (v : Value) (name : String) (x : Value) : Prop where
  cascades : name ∈ n.cascades
  ne_null : x ≠ .null
  part : x.PartOf v
  proper : n.OfProperties → x.ProperPartOf v

/-- What a child asks of a part is asked of the whole. -/
theorem AsksOf.of_child {n : Node} (h : n.Descends) {k : Child Node} (hk : k ∈ n.children)
    {v x y : Value} {steps : List Step} (henters : k.wrapper.Enters v steps x) {name : String}
    (hasks : k.node.AsksOf x name y) : n.AsksOf v name y := by
  obtain ⟨m, hm, hcascade⟩ := mem_cascades.1 hasks.cascades
  have hcascades : name ∈ n.cascades :=
    mem_cascades.2 ⟨m, mem_nodes.2 (.inr ⟨k, hk, hm⟩), hcascade⟩
  have hnot : ∀ extractor, k.wrapper ≠ .extracted extractor := by
    intro extractor hwrapper
    have hname := hasks.cascades
    rw [h.extracted k hk extractor hwrapper] at hname
    cases hname
  -- in the last case the value is handed on, which an optional does, and no property
  rcases henters.descends (h.stored k hk) hnot with rfl | hx | ⟨hwrapper, rfl⟩
  · exact absurd (Value.eq_null_of_partOf hasks.part) hasks.ne_null
  · exact ⟨hcascades, hasks.ne_null, hasks.part.tail hx, fun _ => .tail' hasks.part hx⟩
  · refine ⟨hcascades, hasks.ne_null, hasks.part, fun hproperties => ?_⟩
    obtain ⟨accessor, hproperty⟩ := hproperties.2 k hk
    rw [hwrapper] at hproperty
    cases hproperty

/-- **A tree that descends** asks of parts only, if its constraints ask for nothing. -/
theorem heeds_of_descends {n : Node} (h : n.Descends)
    (hown : ∀ c ∈ n.constraints, c.Reports fun _ _ => True) :
    n.Heeds AsksOf (fun _ _ _ => True) (fun _ _ _ => True) Engine.linked where
  own := by
    intro c hc s hs v
    have hreports := hown c hc n.position s hs
    exact ShapedCriterion.meets_lift (fun x _ => (hreports x).meets fun _ _ => trivial) trivial
  asks := fun k hk v steps x henters name y hasks => hasks.of_child h hk henters
  child := fun _ _ _ _ _ _ _ _ => trivial
  linked := by
    intro name hname c hlink v
    cases hlink
    rw [Criterion.validate, Engine.cascadeCheck]
    split_ifs with hnull
    · exact Trial.meets_pass
    -- the value itself is asked of, so the node is not one of properties, which cascades nowhere
    · have hcascades : name ∈ n.cascades := mem_cascades.2 ⟨n, mem_nodes_self n, hname⟩
      have hv : v ≠ .null := by
        rintro rfl
        exact hnull rfl
      refine ⟨⟨hcascades, hv, .refl, fun hproperties => ?_⟩, fun _ _ _ _ => trivial⟩
      rw [hproperties.1] at hname
      cases hname

end Node

end Validation
