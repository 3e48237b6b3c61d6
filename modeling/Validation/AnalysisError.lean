/-!
# Analysis errors

What is wrong with a schema or with the definition of a constraint. A value that does not satisfy
its constraints is never such an error: that is a `Failure`.

* `code`: the short name of the cause.
* `message`: the sentence that reports it.
-/

namespace Validation

/-- Why a schema or a constraint definition cannot be analysed. -/
inductive AnalysisError where
  /-- A declaration names a constraint kind that the catalog does not hold. -/
  | unknownConstraint (kind : String)
  /-- A class is asked for that is not registered. -/
  | unknownClass (className : String)
  /-- A class is registered twice. -/
  | duplicateClass (className : String)
  /-- A required attribute has neither a value nor a default. -/
  | missingAttribute (constraint name : String)
  /-- An attribute has a value of the wrong kind or out of range. -/
  | invalidAttribute (constraint name reason : String)
  /-- No factory of a constraint applies to the type of its position. -/
  | noApplicableFactory (location constraint type : String)
  /-- No extractor leads from the type of a position to one that the constraint applies to. -/
  | noValueExtractor (location constraint type : String)
  /-- A wrapper is given a criterion that it cannot carry. -/
  | unsupportedShape (wrapper shape : String)
  /-- Criteria of different shapes are combined. -/
  | shapeMismatch (expected actual : String)
  /-- An expression in an attribute cannot be read. -/
  | malformedExpression (constraint expression reason : String)
  /-- A cascade is asked for at a position that is not of a class type. -/
  | invalidCascade (location type : String)
  /-- A definition contradicts itself. -/
  | invalidDefinition (name reason : String)
  /-- Types nest deeper than the limit. -/
  | depthExceeded (location : String) (limit : Nat)
deriving DecidableEq

namespace AnalysisError

/-- The short name of the cause. -/
def code : AnalysisError → String
  | unknownConstraint .. => "unknown_constraint"
  | unknownClass .. => "unknown_class"
  | duplicateClass .. => "duplicate_class"
  | missingAttribute .. => "missing_attribute"
  | invalidAttribute .. => "invalid_attribute"
  | noApplicableFactory .. => "no_applicable_factory"
  | noValueExtractor .. => "no_value_extractor"
  | unsupportedShape .. => "unsupported_shape"
  | shapeMismatch .. => "shape_mismatch"
  | malformedExpression .. => "malformed_expression"
  | invalidCascade .. => "invalid_cascade"
  | invalidDefinition .. => "invalid_definition"
  | depthExceeded .. => "depth_exceeded"

/-- The sentence that reports the error. -/
def message : AnalysisError → String
  | unknownConstraint kind => "unknown constraint kind '" ++ kind ++ "'"
  | unknownClass name => "unknown class '" ++ name ++ "'"
  | duplicateClass name => "class '" ++ name ++ "' is already registered"
  | missingAttribute constraint name =>
    "constraint '" ++ constraint ++ "' is missing required attribute '" ++ name ++ "'"
  | invalidAttribute constraint name reason =>
    "constraint '" ++ constraint ++ "' has invalid attribute '" ++ name ++ "': " ++ reason
  | noApplicableFactory location constraint type =>
    "no criterion factory of '" ++ constraint ++ "' applies to " ++ type ++ " at " ++ location
  | noValueExtractor location constraint type =>
    "no value extractor for '" ++ constraint ++ "' on " ++ type ++ " at " ++ location
  | unsupportedShape wrapper shape => wrapper ++ " cannot wrap a criterion of shape " ++ shape
  | shapeMismatch expected actual =>
    "criterion shape mismatch: expected " ++ expected ++ ", found " ++ actual
  | malformedExpression constraint expression reason =>
    "malformed expression '" ++ expression ++ "' for '" ++ constraint ++ "': " ++ reason
  | invalidCascade location type =>
    "cascade on " ++ type ++ " at " ++ location ++ " requires a class type"
  | invalidDefinition name reason => "invalid definition of '" ++ name ++ "': " ++ reason
  | depthExceeded location limit =>
    "type nesting at " ++ location ++ " exceeds the limit of " ++ toString limit

end AnalysisError

end Validation
