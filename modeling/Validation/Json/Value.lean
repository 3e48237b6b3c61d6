import Validation.Attributes
import Validation.Json.Number

/-!
# Values of JSON documents

A document stands for a value: an array for a list, an object for a map with its keys in ascending
order, in which the last entry of a key counts.

* `Value.ofJson?`: the value of a text.
* `Value.asInstance`: the instance of a class with the entries of a map as its fields.
-/

namespace Validation

namespace Json

/-- How deep arrays and objects may nest. -/
def maxDepth : Nat := 127

mutual

/-- The value of a document whose arrays and objects nest at most `depth` deep. -/
def value? : Nat → Json → Option Value
  | _, null => some .null
  | _, bool b => some (.bool b)
  | _, number n => n.value?
  | _, text spelling => (decode? spelling).map fun cs => .text (String.ofList cs)
  | 0, array _ => none
  | depth + 1, array items => (values? depth items).map .list
  | 0, object _ => none
  | depth + 1, object entries => (entries? depth entries).map fun entries =>
    .map ((entries.foldl (fun sorted (key, v) => insertEntry key v sorted) []).map fun (key, v) =>
      (.text key, v))

/-- The values of documents. -/
def values? : Nat → List Json → Option (List Value)
  | _, [] => some []
  | depth, item :: rest => do return (← value? depth item) :: (← values? depth rest)

/-- The entries of an object, with their values. -/
def entries? : Nat → List (List Char × Json) → Option (List (String × Value))
  | _, [] => some []
  | depth, (key, item) :: rest => do
    return (String.ofList (← decode? key), ← value? depth item) :: (← entries? depth rest)

end

end Json

namespace Value

/-- The value of a JSON text. -/
def ofJson? (s : String) : Option Value := (Json.parse? s).bind (Json.value? Json.maxDepth)

/-- The entries of a map under texts, as fields; none of any other value. -/
def asFields : Value → List (String × Value)
  | map entries => fieldsOf (entries.filterMap fun (key, v) => key.text?.map (·, v))
  | _ => []

/-- The instance of a class with the entries of a map as its fields. -/
def asInstance (className : String) (v : Value) : Value := object className v.asFields

end Value

end Validation
