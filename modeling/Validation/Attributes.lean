import Validation.Attribute

/-!
# Attributes by name

A finite map from names to attribute values, held as a list in ascending order of the names, so
that two maps with the same entries are equal.

* `insert`, `erase`, `get?`: the operations of a map.
* `ofList`: entries set one after another.
-/

namespace Validation

/-- The entry list `entries` with the value of `name` set, in its place in the order. -/
def insertEntry {β : Type} (name : String) (value : β) : List (String × β) → List (String × β)
  | [] => [(name, value)]
  | (n, v) :: rest =>
    if name < n then (name, value) :: (n, v) :: rest
    else if name = n then (name, value) :: rest
    else (n, v) :: insertEntry name value rest

theorem mem_insertEntry {β : Type} {name : String} {value : β} {entries : List (String × β)}
    {e : String × β} (h : e ∈ insertEntry name value entries) :
    e = (name, value) ∨ e ∈ entries := by
  induction entries with
  | nil => exact .inl (by simpa [insertEntry] using h)
  | cons head rest ih =>
    unfold insertEntry at h
    split at h
    · simpa using h
    split at h
    · rcases List.mem_cons.1 h with h | h
      · exact .inl h
      · exact .inr (List.mem_cons_of_mem _ h)
    · rcases List.mem_cons.1 h with h | h
      · exact .inr (h ▸ List.mem_cons_self)
      · exact (ih h).imp_right (List.mem_cons_of_mem _)

theorem pairwise_insertEntry {β : Type} (name : String) (value : β) {entries : List (String × β)}
    (h : entries.Pairwise (·.1 < ·.1)) :
    (insertEntry name value entries).Pairwise (·.1 < ·.1) := by
  induction entries with
  | nil => simp [insertEntry]
  | cons head rest ih =>
    obtain ⟨hhead, hrest⟩ := List.pairwise_cons.1 h
    unfold insertEntry
    split
    case isTrue hlt =>
      refine List.pairwise_cons.2 ⟨fun e he => ?_, h⟩
      rcases List.mem_cons.1 he with rfl | he
      · exact hlt
      · exact String.lt_trans hlt (hhead e he)
    case isFalse hlt =>
      split
      case isTrue heq =>
        subst heq
        exact List.pairwise_cons.2 ⟨hhead, hrest⟩
      case isFalse hne =>
        refine List.pairwise_cons.2 ⟨fun e he => ?_, ih hrest⟩
        rcases mem_insertEntry he with rfl | he
        · exact Std.lt_of_le_of_ne (String.not_lt.1 hlt) (Ne.symm hne)
        · exact hhead e he

theorem lookup_insertEntry_self {β : Type} (name : String) (value : β)
    (entries : List (String × β)) : (insertEntry name value entries).lookup name = some value := by
  induction entries with
  | nil => simp [insertEntry]
  | cons head rest ih =>
    obtain ⟨n, v⟩ := head
    unfold insertEntry
    split
    · simp
    split
    · simp
    case isFalse h => simp [List.lookup_cons, ih, beq_eq_false_iff_ne.2 h]

theorem lookup_insertEntry_of_ne {β : Type} {name other : String} (h : other ≠ name) (value : β)
    (entries : List (String × β)) :
    (insertEntry name value entries).lookup other = entries.lookup other := by
  have hne : (other == name) = false := by simp [h]
  induction entries with
  | nil => simp [insertEntry, List.lookup_cons, hne]
  | cons head rest ih =>
    obtain ⟨n, v⟩ := head
    unfold insertEntry
    split
    · simp [List.lookup_cons, hne]
    split
    case isTrue heq => simp [List.lookup_cons, hne, ← heq]
    case isFalse => simp [List.lookup_cons, ih]

/-- Attribute values by name, in ascending order of the names. -/
structure Attributes where
  entries : List (String × Attribute)
  sorted : entries.Pairwise (·.1 < ·.1)
deriving DecidableEq

namespace Attributes

/-- No attributes. -/
def empty : Attributes := ⟨[], .nil⟩

/-- The attributes with the value of `name` set, in place of an earlier one. -/
def insert (a : Attributes) (name : String) (value : Attribute) : Attributes :=
  ⟨insertEntry name value a.entries, pairwise_insertEntry name value a.sorted⟩

/-- The attributes without the one named. -/
def erase (a : Attributes) (name : String) : Attributes :=
  ⟨a.entries.filter (·.1 != name), a.sorted.filter _⟩

/-- The value of the attribute named. -/
def get? (a : Attributes) (name : String) : Option Attribute := a.entries.lookup name

/-- Whether there is an attribute of the name. -/
def contains (a : Attributes) (name : String) : Bool := (a.get? name).isSome

theorem get?_insert_self (a : Attributes) (name : String) (value : Attribute) :
    (a.insert name value).get? name = some value :=
  lookup_insertEntry_self name value a.entries

theorem get?_insert_of_ne (a : Attributes) {name other : String} (h : other ≠ name)
    (value : Attribute) : (a.insert name value).get? other = a.get? other :=
  lookup_insertEntry_of_ne h value a.entries

/-- The names, ascending. -/
def names (a : Attributes) : List String := a.entries.map (·.1)

/-- The number of attributes. -/
def size (a : Attributes) : Nat := a.entries.length

/-- Whether there is no attribute. -/
def isEmpty (a : Attributes) : Bool := a.entries.isEmpty

/-- The attributes set one after another, a later value of a name in place of an earlier one. -/
def ofList (entries : List (String × Attribute)) : Attributes :=
  entries.foldl (fun a (name, value) => a.insert name value) empty

end Attributes

end Validation
