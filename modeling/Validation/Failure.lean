import Validation.Text.Template
import Validation.Value.Basic

/-!
# Failures

What is reported of a value that does not satisfy a check: a code, a message template with its
parameters, the value, and the way from the validated root to it.

* `setParam`: a parameter set again keeps its place.
* `within`: the failure as seen from one step further out.
* `pathText`, `message`, `render`: its texts.
-/

namespace Validation

open Text

/-- One step on the way from a root to a value in it. -/
inductive Step where
  /-- To a property of an object. -/
  | property (name : String)
  /-- To an item of a list, counted from zero. -/
  | index (position : Nat)
  /-- To the entry of a map with the given key, be it to the key or to the value. -/
  | key (key : Value)

/-- The step as it stands in a path. -/
def Step.render : Step → String
  | property name => name
  | index position => "[" ++ toString position ++ "]"
  | key k => "[" ++ k.render ++ "]"

/-- A check that a value does not satisfy. -/
structure Failure where
  /-- The kind of check. -/
  code : String
  /-- The message, with parameter names between braces in place of their values. -/
  template : String
  /-- The parameters, each name once. -/
  params : List (String × String)
  /-- The value that was checked. -/
  value : Value
  /-- The way from the root to the value. -/
  path : List Step

namespace Failure

/-- A failure at the root, without parameters. -/
def new (code template : String) (value : Value) : Failure := ⟨code, template, [], value, []⟩

/-- The failure with a parameter set, in the place of an earlier value or else last. -/
def setParam (f : Failure) (name value : String) : Failure :=
  { f with params := setField name value f.params }

/-- The failure with the parameters set one after another. -/
def setParams (f : Failure) (params : List (String × String)) : Failure :=
  params.foldl (fun f (name, value) => f.setParam name value) f

/-- The failure with another template. -/
def withTemplate (f : Failure) (template : String) : Failure := { f with template }

/-- The failure as seen from one step further out. -/
def within (f : Failure) (step : Step) : Failure := { f with path := step :: f.path }

/-- The value of a parameter. -/
def param? (f : Failure) (name : String) : Option String := f.params.lookup name

/-- The failure of a value that is not of the kind its declared type promises. -/
def typeMismatch (expected : String) (actual : Value) : Failure :=
  (new "type_mismatch" "expected \x7bexpected\x7d, found \x7bactual\x7d" actual).setParams
    [("expected", expected), ("actual", actual.kindName)]

/-- The text of a path, each step behind the text of those before it: a point stands before a
property unless the text is still empty. -/
def pathText (path : List Step) : String :=
  path.foldl (fun text step =>
    match step with
    | .property name => if text.isEmpty then name else text ++ "." ++ name
    | step => text ++ step.render) ""

/-- The template with the parameters filled in. -/
def message (f : Failure) : String :=
  String.ofList (fill f.template.toList (f.params.map fun (name, value) =>
    (name.toList, value.toList)))

/-- The failure in one line, its template not filled in. -/
def render (f : Failure) : String :=
  let place := if f.path.isEmpty then "" else "[" ++ pathText f.path ++ "] "
  let params :=
    if f.params.isEmpty then ""
    else " (params: [" ++ ", ".intercalate (f.params.map fun (k, v) => k ++ "=" ++ v) ++ "])"
  place ++ f.code ++ ": " ++ f.template ++ params

end Failure

end Validation
