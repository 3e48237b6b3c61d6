/-!
# Orders

The place of a check in the order of checks: none, which comes before all others, or an integer
of 32 bits.
-/

namespace Validation

/-- A place in the order of checks; `none` comes first. -/
abbrev Order := Option Int

namespace Order

/-- Whether one place is at or before another. -/
def le : Order → Order → Bool
  | none, _ => true
  | some _, none => false
  | some a, some b => a ≤ b

/-- The integer as a place, if it has 32 bits. -/
def ofInt? (n : Int) : Option Int :=
  if -0x80000000 ≤ n ∧ n ≤ 0x7FFFFFFF then some n else none

/-- The members in ascending order of their places, equals in the order given. -/
def sort {α : Type} (place : α → Order) (members : List α) : List α :=
  members.mergeSort fun a b => (place a).le (place b)

end Order

end Validation
