import Validation.Criterion.Shaped
import Validation.Wrapper.Accessor
import Validation.Wrapper.Extractor

/-!
# Wrappers

A criterion on a part of a value becomes one on the whole: on a property of an object, on the
items of a list, on the keys or values of a map, on the content of an optional, or on what an
extractor finds. A failure gets the step to its part; members are tried in order, so the first
failing one is reported. A null container passes.

* `supports`: the members of generic types are never scalars, so only properties, array items
  and extracted values may be.
* `wrap`: the criterion on the whole.
-/

namespace Validation

/-- How a part lies in a whole. -/
inductive Wrapper where
  | property (accessor : Accessor)
  | arrayElement
  | iterableElement
  | mapKey
  | mapValue
  | optionalValue
  | extracted (extractor : Extractor)

namespace Wrapper

/-- Whether the part may be tested by criteria of the shape. -/
def supports : Wrapper → Shape → Bool
  | property _, _ | arrayElement, _ | extracted _, _ => true
  | _, shape => shape == .reference

/-- The name of the way the part lies in the whole. -/
def name : Wrapper → String
  | property _ => "property"
  | arrayElement => "array element"
  | iterableElement => "iterable element"
  | mapKey => "map key"
  | mapValue => "map value"
  | optionalValue => "optional value"
  | extracted _ => "extracted value"

/-- The text of the wrapper, with the name of the property or extractor. -/
def render : Wrapper → String
  | property accessor => "property '" ++ accessor.name ++ "'"
  | extracted extractor => "extracted '" ++ extractor.name ++ "'"
  | wrapper => wrapper.name

/-- The check of a property of an object. -/
def checkProperty (accessor : Accessor) (inner : Criterion.On Value) : Check Value
  | .null => .pass
  | .object className fields =>
    (inner.validate (accessor.read (.object className fields))).mapFailure
      (·.within (.property accessor.name))
  | v => .fail (.typeMismatch "object" v)

/-- The check of the items of a list, under the name that the list goes by. -/
def checkElements (expected : String) (inner : Criterion.On Value) : Check Value
  | .null => .pass
  | .list items =>
    Trial.first (fun (item, position) =>
      (inner.validate item).mapFailure (·.within (.index position))) items.zipIdx
  | v => .fail (.typeMismatch expected v)

/-- The check of one side of the entries of a map. -/
def checkEntries (side : Value × Value → Value) (inner : Criterion.On Value) : Check Value
  | .null => .pass
  | .map entries =>
    Trial.first (fun entry =>
      (inner.validate (side entry)).mapFailure (·.within (.key entry.1))) entries
  | v => .fail (.typeMismatch "map" v)

/-- The check of the content of an optional; null where it is empty. -/
def checkOptional (inner : Criterion.On Value) : Check Value
  | .optional content => inner.validate (content.getD .null)
  | v => inner.validate v

/-- The check of what an extractor finds. Where it finds nothing there is no scalar to check, and
a reference is null. -/
def checkExtracted (extractor : Extractor) (shape : Shape) (inner : Criterion.On Value) :
    Check Value :=
  fun v =>
    match extractor.extract v with
    | some held => inner.validate held
    | none => if shape.isScalar then .pass else inner.validate .null

/-- The check of the whole by a criterion of its part. -/
def check (w : Wrapper) (shape : Shape) (inner : Criterion.On Value) : Check Value :=
  match w with
  | property accessor => checkProperty accessor inner
  | arrayElement => checkElements "array" inner
  | iterableElement => checkElements "iterable" inner
  | mapKey => checkEntries (·.1) inner
  | mapValue => checkEntries (·.2) inner
  | optionalValue => checkOptional inner
  | extracted extractor => checkExtracted extractor shape inner

/-- The criterion on the whole, from one on the part. Truth stays truth. -/
def wrap (w : Wrapper) (inner : ShapedCriterion) : Except AnalysisError (Criterion.On Value) :=
  if w.supports inner.shape then
    .ok (if inner.isTruth then .truth else .leaf (w.check inner.shape inner.lift))
  else .error (.unsupportedShape w.name inner.shape.name)

end Wrapper

end Validation
