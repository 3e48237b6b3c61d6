import Validation.Decimal.Layout

/-!
# Attribute values

The values that a constraint's attributes take. They are compared by what is written, floating
point numbers by their bits, so that equal declarations are one constraint: not-a-number equals
itself here, and the two zeros differ.
-/

namespace Validation

open Decimal

/-- The value of one attribute. -/
inductive Attribute where
  | bool (value : Bool)
  | int (value : Int)
  /-- A double, given by its bits. -/
  | float (bits : UInt64)
  | text (value : String)
  | list (items : List Attribute)

namespace Attribute

mutual

/-- Whether two attribute values are the same. -/
def same : Attribute → Attribute → Bool
  | bool a, bool b => a == b
  | int a, int b => a == b
  | float a, float b => a == b
  | text a, text b => a == b
  | list as, list bs => sameAll as bs
  | _, _ => false

/-- Whether two lists of attribute values are the same. -/
def sameAll : List Attribute → List Attribute → Bool
  | [], [] => true
  | a :: as, b :: bs => same a b && sameAll as bs
  | _, _ => false

end

mutual

theorem eq_of_same : ∀ a b : Attribute, same a b = true → a = b
  | bool _, b, h => by cases b <;> simp_all [same]
  | int _, b, h => by cases b <;> simp_all [same]
  | float _, b, h => by cases b <;> simp_all [same]
  | text _, b, h => by cases b <;> simp_all [same]
  | list as, b, h => by
    cases b <;> simp_all [same]
    exact eq_of_sameAll as _ h

theorem eq_of_sameAll : ∀ as bs : List Attribute, sameAll as bs = true → as = bs
  | [], bs, h => by cases bs <;> simp_all [sameAll]
  | a :: as, bs, h => by
    cases bs with
    | nil => simp [sameAll] at h
    | cons b bs =>
      simp only [sameAll, Bool.and_eq_true] at h
      rw [eq_of_same a b h.1, eq_of_sameAll as bs h.2]

end

mutual

theorem same_refl : ∀ a : Attribute, same a a = true
  | bool _ | int _ | float _ | text _ => by simp [same]
  | list as => by simp [same, sameAll_refl as]

theorem sameAll_refl : ∀ as : List Attribute, sameAll as as = true
  | [] => by simp [sameAll]
  | a :: as => by simp [sameAll, same_refl a, sameAll_refl as]

end

instance : DecidableEq Attribute := fun a b =>
  decidable_of_iff (same a b = true) ⟨eq_of_same a b, fun h => h ▸ same_refl a⟩

/-- The truth value, of a truth value only. -/
def bool? : Attribute → Option Bool
  | bool b => some b
  | _ => none

/-- The integer, of an integer only. -/
def int? : Attribute → Option Int
  | int n => some n
  | _ => none

/-- The number as a double; an integer is rounded to the nearest one. -/
def double? : Attribute → Option Float
  | int n => some (ofInt n)
  | float bits => some (.ofBits bits)
  | _ => none

/-- The text, of a text only. -/
def text? : Attribute → Option String
  | text s => some s
  | _ => none

/-- The name of the kind of value. -/
def kindName : Attribute → String
  | bool _ => "bool"
  | int _ => "int"
  | float _ => "float"
  | text _ => "string"
  | list _ => "list"

mutual

/-- The value as it stands in a message. -/
def render : Attribute → String
  | bool b => toString b
  | int n => toString n
  | float bits => Format.double.plain bits.toNat
  | text s => s
  | list items => "[" ++ ", ".intercalate (renderAll items) ++ "]"

/-- The items of a list as they stand in a message. -/
def renderAll : List Attribute → List String
  | [] => []
  | a :: rest => render a :: renderAll rest

end

end Attribute

end Validation
