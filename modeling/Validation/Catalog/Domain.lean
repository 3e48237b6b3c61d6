import Validation.Catalog.Numeric
import Validation.Decimal.Read

/-!
# Domains of numbers

A domain is a union of intervals and finite sets, written as in `(,0]|[10,20)|{42,64}`:
alternatives between bars, each an interval with ends that belong to it (`[`, `]`) or not (`(`,
`)`), where a missing end leaves the interval unbounded, or the members of a set between braces.
Blanks may stand around alternatives, ends and members.

* `Domain.parse`: the domain of an expression, or what is wrong with it.
* `Domain.contains`: membership.
* `Builtin.domain`: the kind of constraint.
-/

namespace Validation

open Text Decimal

/-- The end of an interval. -/
structure Bound where
  value : Number
  /-- Whether the end belongs to the interval. -/
  inclusive : Bool

/-- One alternative of a domain. -/
inductive Alternative where
  /-- An interval; a missing end does not bound it. -/
  | interval (low high : Option Bound)
  /-- A set of numbers. -/
  | values (members : List Number)

/-- A union of alternatives, with the expression that it was read from. -/
structure Domain where
  expression : String
  alternatives : List Alternative

/-- Whether a comparison with an end says that a number is on the side `side` of it, or on an end
that belongs to the interval. -/
def Bound.admits (b : Bound) (side : Ordering) (n : Number) : Bool :=
  match n.compare? b.value with
  | some .eq => b.inclusive
  | some o => o == side
  | none => false

/-- Whether the alternative holds a number. -/
def Alternative.contains : Alternative → Number → Bool
  | interval low high, n => low.all (·.admits .gt n) && high.all (·.admits .lt n)
  | values members, n => members.any fun m => n.compare? m == some .eq

namespace Domain

/-- Whether the domain holds a number. -/
def contains (d : Domain) (n : Number) : Bool := d.alternatives.any (·.contains n)

/-- The parts of a text between the occurrences of a separator; at least one. -/
def splitOn (separator : Char) : List Char → List (List Char)
  | [] => [[]]
  | c :: rest =>
    match splitOn separator rest with
    | [] => [[]]
    | part :: parts => if c = separator then [] :: part :: parts else (c :: part) :: parts

/-- A text between single quotes. -/
def quote (cs : List Char) : String := "'" ++ String.ofList cs ++ "'"

/-- A number: an integer of 64 bits, or else a finite double. -/
def readNumber (cs : List Char) : Except String Number :=
  match (readInt? cs).filter fun n =>
      -0x8000000000000000 ≤ n && n ≤ 0x7FFFFFFFFFFFFFFF with
  | some n => .ok (.int n)
  | none =>
    match (readDouble? (String.ofList cs)).filter (·.isFinite) with
    | some x => .ok (.float x)
    | none => .error (quote cs ++ " is not a number")

/-- The end of an interval; nothing where no number is written. -/
def readBound (cs : List Char) (inclusive : Bool) : Except String (Option Bound) :=
  if cs.isEmpty then .ok none else return some ⟨← readNumber cs, inclusive⟩

/-- The members of a set: what stands between braces that hold no others. -/
def braced? (cs : List Char) : Option (List Char) :=
  match cs with
  | '{' :: rest =>
    match rest.reverse with
    | '}' :: inner => if inner.all fun c => c != '{' && c != '}' then some inner.reverse else none
    | _ => none
  | _ => none

/-- An interval as it is written: the texts of its ends, and whether they belong to it. -/
structure IntervalText where
  lowInclusive : Bool
  low : List Char
  high : List Char
  highInclusive : Bool

/-- The high end of an interval and its closing bracket, which has to be the last character. -/
def readHigh? (lowInclusive : Bool) (low cs : List Char) : Option IntervalText :=
  let within (c : Char) : Bool := c != ']' && c != ')' && !isBlank c
  let rest := trimStart cs
  let high := rest.takeWhile within
  match trimStart (rest.dropWhile within) with
  | [']'] => some ⟨lowInclusive, low, high, true⟩
  | [')'] => some ⟨lowInclusive, low, high, false⟩
  | _ => none

/-- The parts of an interval: a bracket, an end, a comma, an end and a bracket. -/
def readInterval? (cs : List Char) : Option IntervalText :=
  match cs with
  | [] => none
  | bracket :: rest =>
    if bracket = '[' ∨ bracket = '(' then
      let within (c : Char) : Bool := c != ',' && !isBlank c
      let rest := trimStart rest
      match trimStart (rest.dropWhile within) with
      | ',' :: after => readHigh? (bracket = '[') (rest.takeWhile within) after
      | _ => none
    else none

/-- Whether no number can lie between the ends. -/
def isEmptyBetween (low high : Bound) : Bool :=
  match low.value.compare? high.value with
  | some .lt => false
  | some .eq => !(low.inclusive && high.inclusive)
  | _ => true

/-- One alternative, without blanks at its ends. -/
def readAlternative (cs : List Char) : Except String Alternative :=
  if cs.isEmpty then .error "empty alternative"
  else match braced? cs with
    | some members =>
      return .values (← (splitOn ',' members).mapM fun member => readNumber (trim member))
    | none =>
      match readInterval? cs with
      | none => .error (quote cs ++ " is neither an interval nor an enumeration")
      | some text => do
        let low ← readBound text.low text.lowInclusive
        let high ← readBound text.high text.highInclusive
        match low, high with
        | some l, some h =>
          if isEmptyBetween l h then throw ("interval " ++ quote cs ++ " is empty")
          else return .interval low high
        | _, _ => return .interval low high

/-- The domain of an expression, or what is wrong with the expression. -/
def parse (expression : String) : Except String Domain := do
  let cs := expression.toList
  if (trim cs).isEmpty then throw "expression is empty"
  return ⟨expression, ← (splitOn '|' cs).mapM fun part => readAlternative (trim part)⟩

end Domain

namespace Builtin

/-- The message of `domain`. -/
def domainMessage : String := "must be in \x7bvalue\x7d"

/-- Numbers of the domain that the attribute `value` describes. -/
def domain : Kind where
  name := "domain"
  order := none
  message := some domainMessage
  attributes := [⟨"value", none⟩]
  factories := [{
    applies := DeclaredType.isNumeric
    produce := fun type settings => do
      let expression ← settings.text "value"
      match Domain.parse expression with
      | .error reason => throw (.malformedExpression settings.kind expression reason)
      | .ok domain =>
        numericCriterion type domain.contains
          ⟨settings.kind, domainMessage, [("value", domain.expression)]⟩ }]
  parts := []

end Builtin

end Validation
