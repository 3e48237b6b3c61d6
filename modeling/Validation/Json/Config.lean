import Validation.Config
import Validation.Decimal.Read
import Validation.Json.Document

/-!
# Engine settings from JSON

Settings are an object, in which a missing entry leaves its default, an unknown one counts for
nothing and a repeated one is an error, or an array of the settings in order.
-/

namespace Validation

/-- Why settings cannot be had from a text. -/
inductive ConfigError where
  /-- The text is no document, or a document of something else. -/
  | unreadable
  /-- The settings contradict themselves. -/
  | invalid (reason : String)
deriving DecidableEq

namespace Config

/-- A property source by its name. -/
def sourceOfName? (spelling : List Char) : Option PropertySource := do
  let name ← Json.decode? spelling
  if name = "field".toList then some .field
  else if name = "getter".toList then some .getter
  else none

/-- A property source: its name, or an object with nothing but its name before a null. -/
def source? : Json → Option PropertySource
  | .text name => sourceOfName? name
  | .object [(name, .null)] => sourceOfName? name
  | _ => none

/-- A truth value. -/
def bool? : Json → Option Bool
  | .bool b => some b
  | _ => none

/-- A natural number of 64 bits, spelt as an integer without a sign. -/
def nat? : Json → Option Nat
  | .number ⟨false, whole, [], none⟩ =>
    (some (Decimal.valueOf whole)).filter (· ≤ 0xFFFFFFFFFFFFFFFF)
  | _ => none

/-- The names of the settings in the order in which an array gives them. -/
def names : List String := ["property_source", "eager_cascade", "max_type_depth"]

/-- The settings with one more, of the given name; an unknown name counts for nothing. -/
def withSetting? (c : Config) (name : String) (document : Json) : Option Config :=
  match name with
  | "property_source" => (source? document).map fun s => { c with propertySource := s }
  | "eager_cascade" => (bool? document).map fun b => { c with eagerCascade := b }
  | "max_type_depth" => (nat? document).map fun n => { c with maxTypeDepth := n }
  | _ => some c

/-- The settings with the entries of an object; `seen` holds the names of settings before them. -/
def withEntries? (c : Config) (seen : List String) : List (List Char × Json) → Option Config
  | [] => some c
  | (key, document) :: rest => do
    let name := String.ofList (← Json.decode? key)
    let c ← if seen.contains name then none else c.withSetting? name document
    withEntries? c (if names.contains name then name :: seen else seen) rest

/-- The settings of a document, whether or not they contradict themselves. -/
def ofDocument? : Json → Option Config
  | .object entries => withEntries? {} [] entries
  | .array items =>
    if names.length < items.length then none
    else (names.zip items).foldlM (fun c (name, document) => c.withSetting? name document) {}
  | _ => none

/-- The settings of a JSON text. -/
def ofJson (s : String) : Except ConfigError Config :=
  match (Json.parse? s).bind ofDocument? with
  | none => .error .unreadable
  | some c =>
    match c.problem? with
    | some reason => .error (.invalid reason)
    | none => .ok c

end Config

end Validation
