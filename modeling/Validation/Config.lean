import Validation.Wrapper.Accessor

/-!
# Engine settings
-/

namespace Validation

/-- The settings of an engine. -/
structure Config where
  /-- Which declaration of a property counts where a class declares it as a field and as a getter. -/
  propertySource : PropertySource := .field
  /-- Whether the classes that a root cascades into are compiled together with it. -/
  eagerCascade : Bool := true
  /-- How many steps below a root types may nest. -/
  maxTypeDepth : Nat := 64
deriving DecidableEq

namespace Config

/-- What is wrong with the settings, if anything. -/
def problem? (c : Config) : Option String :=
  if c.maxTypeDepth = 0 then some "max_type_depth must be at least 1" else none

end Config

end Validation
