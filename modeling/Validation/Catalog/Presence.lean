import Validation.Catalog.Numeric

/-!
# Constraints on presence and size

`not_null` for all types whose values may be null, `size` for texts, lists and maps, and
`not_empty`, which expands into both.
-/

namespace Validation.Builtin

/-- The message of `size`. -/
def sizeMessage : String := "size must be between \x7bmin\x7d and \x7bmax\x7d"

/-- The message of `not_null`. -/
def presenceMessage : String := "must not be null"

/-- The check of a size, on a value of a type or on null. -/
def checkSize (type : DeclaredType) (low high : Int) (report : Report) : Check Value :=
  fun v =>
    if v.isNull then .pass
    else match v.size? with
      | some size =>
        if low ≤ size ∧ size ≤ high then .pass
        else .fail ((report.failure v).setParam "size" (toString size))
      | none => .fail (.typeMismatch type.render v)

/-- The criterion of a size at a type. The limits have to be in order and not negative. -/
def sizeCriterion (type : DeclaredType) (settings : Settings) :
    Except AnalysisError ShapedCriterion := do
  let low ← settings.int "min"
  let high ← settings.int "max"
  if low < 0 then throw (settings.invalid "min" "must not be negative")
  if high < low then throw (settings.invalid "max" "must not be less than min")
  return .onValues (.leaf (checkSize type low high
    ⟨settings.kind, sizeMessage, [("min", toString low), ("max", toString high)]⟩))

/-- Sizes from the attribute `min` to the attribute `max`, by default all. -/
def size : Kind where
  name := "size"
  order := none
  message := some sizeMessage
  attributes := [⟨"min", some (.int 0)⟩, ⟨"max", some (.int 0x7FFFFFFF)⟩]
  factories := [⟨DeclaredType.isSized, sizeCriterion⟩]
  parts := []

/-- All values but null. -/
def notNull : Kind where
  name := "not_null"
  order := none
  message := some presenceMessage
  attributes := []
  factories := [{
    applies := DeclaredType.isReference
    produce := fun _ settings =>
      .ok (.onValues (.leaf fun v =>
        if v.isNull then .fail (.new settings.kind presenceMessage .null) else .pass)) }]
  parts := []

/-- Values of a size that is not zero. -/
def notEmpty : Kind where
  name := "not_empty"
  order := none
  message := some "must not be empty"
  attributes := []
  factories := []
  parts := [Part.ofTarget notNull, (Part.ofTarget size).set "min" (.literal (.int 1))]

end Validation.Builtin
