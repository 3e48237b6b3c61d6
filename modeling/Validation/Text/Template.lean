/-!
# Message templates

A template is a text with placeholders, a parameter's name between braces. Parameters are filled
in one after another, in the order in which they are given, each over the whole text as it then
stands; a placeholder whose name is no parameter stays.

* `replaceAll`: every occurrence of a pattern, leftmost first and without overlaps.
* `fill`: the parameters one after another.
-/

namespace Validation.Text

/-- `replaceAll` with the number of characters still to be skipped, which belong to the
occurrence that was just replaced. -/
def replaceFrom (pattern replacement : List Char) : Nat → List Char → List Char
  | _, [] => []
  | skip + 1, _ :: rest => replaceFrom pattern replacement skip rest
  | 0, c :: rest =>
    if pattern.isPrefixOf (c :: rest) then
      replacement ++ replaceFrom pattern replacement (pattern.length - 1) rest
    else c :: replaceFrom pattern replacement 0 rest

/-- The text with every occurrence of a pattern that is not empty replaced, leftmost first and
without overlaps. -/
def replaceAll (pattern replacement text : List Char) : List Char :=
  replaceFrom pattern replacement 0 text

/-- The placeholder of a parameter: its name between braces. -/
def placeholder (name : List Char) : List Char := '{' :: name ++ ['}']

/-- The template with the parameters filled in, one after another. -/
def fill (template : List Char) (params : List (List Char × List Char)) : List Char :=
  params.foldl (fun text (name, value) => replaceAll (placeholder name) value text) template

end Validation.Text
