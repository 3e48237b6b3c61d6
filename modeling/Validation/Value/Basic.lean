import Validation.Decimal.Layout

/-!
# Values

The values that are validated: null, scalars of several widths, texts, lists, maps with their
entries in order, optionals, and objects, which carry the name of their class.

* `size?`, `kindName`, `render`: what checks and messages need of a value.
* `setField`: a field set again keeps its place.
* `same`: equality of values, in which not-a-number differs from itself and the order of an
  object's fields does not count.
-/

namespace Validation

open Decimal

/-- A value to be validated. -/
inductive Value where
  | null
  | bool (value : Bool)
  | char (value : Char)
  | byte (value : Int8)
  | short (value : Int16)
  | int (value : Int32)
  | long (value : Int64)
  | float (value : Float32)
  | double (value : Float)
  | text (value : String)
  /-- Arrays, lists and sets. -/
  | list (items : List Value)
  /-- The entries of a map, in order. -/
  | map (entries : List (Value × Value))
  | optional (content : Option Value)
  /-- An instance of a class: the name of the class, and the fields in the order of their first
  setting. -/
  | object (className : String) (fields : List (String × Value))
deriving Inhabited

/-- A field list with the value of `name` set: in the place of an earlier value, or else last. -/
def setField {β : Type} (name : String) (value : β) : List (String × β) → List (String × β)
  | [] => [(name, value)]
  | (n, v) :: rest =>
    if n = name then (name, value) :: rest else (n, v) :: setField name value rest

theorem lookup_setField_self {β : Type} (name : String) (value : β) (fields : List (String × β)) :
    (setField name value fields).lookup name = some value := by
  induction fields with
  | nil => simp [setField]
  | cons head rest ih =>
    obtain ⟨n, v⟩ := head
    unfold setField
    split
    · simp
    case isFalse h => simp [List.lookup_cons, ih, beq_eq_false_iff_ne.2 (Ne.symm h)]

theorem lookup_setField_of_ne {β : Type} {name other : String} (h : other ≠ name) (value : β)
    (fields : List (String × β)) :
    (setField name value fields).lookup other = fields.lookup other := by
  have hne : (other == name) = false := by simp [h]
  induction fields with
  | nil => simp [setField, List.lookup_cons, hne]
  | cons head rest ih =>
    obtain ⟨n, v⟩ := head
    unfold setField
    split
    case isTrue heq => simp [List.lookup_cons, hne, heq]
    case isFalse => simp [List.lookup_cons, ih]

/-- The fields set one after another. -/
def fieldsOf {β : Type} (settings : List (String × β)) : List (String × β) :=
  settings.foldl (fun fields (name, value) => setField name value fields) []

namespace Value

/-- Whether the value is null. -/
def isNull : Value → Bool
  | null => true
  | _ => false

/-- The text, of a text only. -/
def text? : Value → Option String
  | text s => some s
  | _ => none

/-- The name of the class, of an object only. -/
def className? : Value → Option String
  | object name _ => some name
  | _ => none

/-- The value of a field, of an object that has it. -/
def field? (name : String) : Value → Option Value
  | object _ fields => fields.lookup name
  | _ => none

/-- The size of a text in characters, and of lists and maps in members. -/
def size? : Value → Option Nat
  | text s => some s.length
  | list items => some items.length
  | map entries => some entries.length
  | _ => none

/-- The name of the kind of value. -/
def kindName : Value → String
  | null => "null"
  | bool _ => "boolean"
  | char _ => "char"
  | byte _ => "byte"
  | short _ => "short"
  | int _ => "int"
  | long _ => "long"
  | float _ => "float"
  | double _ => "double"
  | text _ => "string"
  | list _ => "list"
  | map _ => "map"
  | optional _ => "optional"
  | object .. => "object"

mutual

/-- The value as it stands in a message. -/
def render : Value → String
  | null => "null"
  | bool b => toString b
  | char c => c.toString
  | byte n => toString n.toInt
  | short n => toString n.toInt
  | int n => toString n.toInt
  | long n => toString n.toInt
  | float x => plainSingle x
  | double x => plainDouble x
  | text s => s
  | list items => "[" ++ ", ".intercalate (renderItems items) ++ "]"
  | map entries => "\x7b" ++ ", ".intercalate (renderEntries entries) ++ "\x7d"
  | optional (some content) => "Optional[" ++ render content ++ "]"
  | optional none => "Optional.empty"
  | object name _ => name ++ "\x7b..\x7d"

/-- The items of a list as they stand in a message. -/
def renderItems : List Value → List String
  | [] => []
  | v :: rest => render v :: renderItems rest

/-- The entries of a map as they stand in a message. -/
def renderEntries : List (Value × Value) → List String
  | [] => []
  | (k, v) :: rest => (render k ++ "=" ++ render v) :: renderEntries rest

end

mutual

/-- Whether two values are equal. Floating point numbers are compared as numbers. -/
def same : Value → Value → Bool
  | null, null => true
  | bool a, bool b => a == b
  | char a, char b => a == b
  | byte a, byte b => a == b
  | short a, short b => a == b
  | int a, int b => a == b
  | long a, long b => a == b
  | float a, float b => a == b
  | double a, double b => a == b
  | text a, text b => a == b
  | list as, list bs => sameItems as bs
  | map as, map bs => sameEntries as bs
  | optional none, optional none => true
  | optional (some a), optional (some b) => same a b
  | object m as, object n bs => m == n && as.length == bs.length && fieldsWithin as bs
  | _, _ => false

/-- Whether two lists hold equal values in the same order. -/
def sameItems : List Value → List Value → Bool
  | [], [] => true
  | a :: as, b :: bs => same a b && sameItems as bs
  | _, _ => false

/-- Whether two entry lists hold equal entries in the same order. -/
def sameEntries : List (Value × Value) → List (Value × Value) → Bool
  | [], [] => true
  | (k, v) :: as, (l, w) :: bs => same k l && same v w && sameEntries as bs
  | _, _ => false

/-- Whether every field of the first list has an equal one of its name in the second. -/
def fieldsWithin : List (String × Value) → List (String × Value) → Bool
  | [], _ => true
  | (name, v) :: as, bs =>
    (match bs.lookup name with
      | some w => same v w
      | none => false) && fieldsWithin as bs

end

end Value

end Validation
