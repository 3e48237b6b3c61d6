import Validation.Decimal.Layout
import Validation.Text.Quoted

/-!
# Outlines

An outline shows how something is put together: a name with parts in parentheses or with named
fields in braces, lists in brackets, texts in quotes. What cannot be shown is named only.
-/

namespace Validation.Outline

open Decimal

/-- The parts in brackets. -/
def list (items : List String) : String := "[" ++ ", ".intercalate items ++ "]"

/-- A name with its parts. -/
def tuple (name : String) (parts : List String) : String :=
  name ++ "(" ++ ", ".intercalate parts ++ ")"

/-- Named fields, each behind its name. -/
def fields (entries : List (String × String)) : String :=
  ", ".intercalate (entries.map fun (name, value) => name ++ ": " ++ value)

/-- A name with named fields. -/
def record (name : String) (entries : List (String × String)) : String :=
  name ++ " \x7b " ++ fields entries ++ " \x7d"

/-- A name with some of its fields. -/
def excerpt (name : String) (entries : List (String × String)) : String :=
  name ++ " \x7b " ++ fields entries ++ ", .. \x7d"

/-- Entries under quoted keys. -/
def map (entries : List (String × String)) : String :=
  "\x7b" ++ fields (entries.map fun (key, value) => (Text.quoted key, value)) ++ "\x7d"

/-- What may be missing. -/
def option {α : Type} (outline : α → String) : Option α → String
  | some a => tuple "Some" [outline a]
  | none => "None"

/-- A truth value. -/
def bool (b : Bool) : String := if b then "true" else "false"

/-- An integer. -/
def int (n : Int) : String := toString n

end Validation.Outline
