import Validation.Criterion.Shaped
import Validation.Outline.Basic

/-!
# Outlines of criteria

The structure of a criterion. Its checks are functions and are only named.
-/

namespace Validation

namespace Criterion

variable {κ ε : Type}

mutual

/-- The outline of a criterion. -/
def outline : Criterion κ ε → String
  | truth => "Truth"
  | leaf _ => "Leaf(<fn>)"
  | all cs => Outline.list (outlines cs)
  | enhanced inner _ => Outline.tuple "Enhanced" [outline inner]

/-- The outlines of criteria. -/
def outlines : List (Criterion κ ε) → List String
  | [] => []
  | c :: rest => outline c :: outlines rest

end

end Criterion

/-- The name of a scalar kind in outlines. -/
def ScalarKind.outline : ScalarKind → String
  | boolean => "Bool"
  | char => "Char"
  | byte => "Byte"
  | short => "Short"
  | int => "Int"
  | long => "Long"
  | float => "Float"
  | double => "Double"

/-- The name of a shape in outlines of criteria. -/
def Shape.outline : Shape → String
  | scalar kind => kind.outline
  | reference => "Object"

/-- The outline of a criterion within that of its shape. -/
def ShapedCriterion.outline (c : ShapedCriterion) : String :=
  Outline.tuple c.shape.outline [c.criterion.outline]

end Validation
