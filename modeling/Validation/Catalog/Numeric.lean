import Validation.Kind
import Validation.Value.Number

/-!
# Constraints on numbers

`positive`, `min` and `max`, for scalars and boxed scalars of a numeric kind, and `range`, which
expands into the latter two. A boxed null passes.
-/

namespace Validation.Builtin

/-- What a failing check reports of a value: the code, the message and its parameters. -/
structure Report where
  code : String
  template : String
  params : List (String × String)

/-- The failure of a value. -/
def Report.failure (r : Report) (v : Value) : Failure :=
  (Failure.new r.code r.template v).setParams r.params

/-- The check of a number, on a value of a kind of scalars or on null. -/
def checkNumber (kind : ScalarKind) (test : Number → Bool) (report : Report) : Check Value :=
  fun v =>
    if v.isNull then .pass
    else match Number.ofValue? v with
      | some n => if test n then .pass else .fail (report.failure v)
      | none => .fail (.typeMismatch kind.name v)

/-- The criterion of a test of numbers at a type, which has to be a scalar or boxed one of a
numeric kind. -/
def numericCriterion (type : DeclaredType) (test : Number → Bool) (report : Report) :
    Except AnalysisError ShapedCriterion :=
  match type with
  | .scalar kind =>
    if kind.isNumeric then
      .ok ⟨.scalar kind, .leaf fun x => checkNumber kind test report (kind.toValue x)⟩
    else .error (.shapeMismatch "numeric type" type.render)
  | .boxed kind =>
    if kind.isNumeric then .ok (.onValues (.leaf (checkNumber kind test report)))
    else .error (.shapeMismatch "numeric type" type.render)
  | _ => .error (.shapeMismatch "numeric type" type.render)

/-- The message of `positive`. -/
def positiveMessage : String := "must be greater than 0"

/-- The message of `min`. -/
def minMessage : String := "must be greater than or equal to \x7bvalue\x7d"

/-- The message of `max`. -/
def maxMessage : String := "must be less than or equal to \x7bvalue\x7d"

/-- Numbers greater than zero. -/
def positive : Kind where
  name := "positive"
  order := none
  message := some positiveMessage
  attributes := []
  factories := [{
    applies := DeclaredType.isNumeric
    produce := fun type settings =>
      numericCriterion type (fun n => n.compare? (.int 0) == some .gt)
        ⟨settings.kind, positiveMessage, []⟩ }]
  parts := []

/-- The factory of a comparison with the attribute `value`. -/
def bound (message : String) (accepts : Ordering → Bool) : Factory where
  applies := DeclaredType.isNumeric
  produce := fun type settings => do
    let limit ← settings.read Number.ofAttribute? "value" "expected a number"
    numericCriterion type (fun n => (n.compare? limit).any accepts)
      ⟨settings.kind, message, [("value", limit.render)]⟩

/-- Numbers at or above the attribute `value`. -/
def min : Kind where
  name := "min"
  order := none
  message := some minMessage
  attributes := [⟨"value", none⟩]
  factories := [bound minMessage Ordering.isGE]
  parts := []

/-- Numbers at or below the attribute `value`. -/
def max : Kind where
  name := "max"
  order := none
  message := some maxMessage
  attributes := [⟨"value", none⟩]
  factories := [bound maxMessage Ordering.isLE]
  parts := []

/-- Numbers from the attribute `min` to the attribute `max`, by default all integers of 64 bits. -/
def range : Kind where
  name := "range"
  order := none
  message := some "must be between \x7bmin\x7d and \x7bmax\x7d"
  attributes := [⟨"min", some (.int (-0x8000000000000000))⟩, ⟨"max", some (.int 0x7FFFFFFFFFFFFFFF)⟩]
  factories := []
  parts := [(Part.ofTarget min).set "value" (.outer "min"),
    (Part.ofTarget max).set "value" (.outer "max")]

end Validation.Builtin
