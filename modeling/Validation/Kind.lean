import Validation.Criterion.Shaped
import Validation.Order
import Validation.Type

/-!
# Kinds of constraints

A kind says which attributes its constraints have, how a constraint becomes a check at a type, and
into which other constraints it expands. A kind that only expands is a combinator.

* `Kind.define`: a definition that contradicts itself is refused.
* `Kind.applies`: the types at which a constraint of the kind can stand.
* `Kind.resolve`: declared attributes with the defaults written out.
* `Part.instantiate`: the attributes of a part, from those of the constraint that expands.
-/

namespace Validation

/-- The name of a constraint's kind and the values of its attributes. -/
structure Settings where
  kind : String
  attributes : Attributes

namespace Settings

/-- The error of an attribute whose value is not right. -/
def invalid (s : Settings) (name reason : String) : AnalysisError :=
  .invalidAttribute s.kind name reason

/-- The value of an attribute as `read` takes it. -/
def read {α : Type} (s : Settings) (read : Attribute → Option α) (name reason : String) :
    Except AnalysisError α :=
  match (s.attributes.get? name).bind read with
  | some value => .ok value
  | none => .error (s.invalid name reason)

/-- An attribute that is an integer. -/
def int (s : Settings) (name : String) : Except AnalysisError Int :=
  s.read Attribute.int? name "expected an integer"

/-- An attribute that is a number, as a double. -/
def double (s : Settings) (name : String) : Except AnalysisError Float :=
  s.read Attribute.double? name "expected a number"

/-- An attribute that is a truth value. -/
def bool (s : Settings) (name : String) : Except AnalysisError Bool :=
  s.read Attribute.bool? name "expected a boolean"

/-- An attribute that is a text. -/
def text (s : Settings) (name : String) : Except AnalysisError String :=
  s.read Attribute.text? name "expected a string"

end Settings

/-- How a constraint becomes a criterion at the types that the factory is for. Of the node it sees the
type, and of the constraint the settings. -/
structure Factory where
  applies : DeclaredType → Bool
  produce : DeclaredType → Settings → Except AnalysisError ShapedCriterion

/-- An attribute of a kind. One without a default has to be declared. -/
structure AttributeSpec where
  name : String
  default : Option Attribute
deriving DecidableEq

/-- Whether the attribute has to be declared. -/
def AttributeSpec.isRequired (s : AttributeSpec) : Bool := s.default.isNone

/-- Where an attribute of a part gets its value from. -/
inductive Source where
  | literal (value : Attribute)
  /-- The attribute of the given name of the constraint that expands. -/
  | outer (name : String)
  | computed (derive : Attributes → Except AnalysisError Attribute)

/-- A constraint that others expand into: its kind, and where its attributes come from. -/
structure Part (κ : Type) where
  target : κ
  sources : List (String × Source)

/-- A kind of constraints. -/
structure Kind where
  name : String
  /-- The place of its constraints in the order of checks, unless they declare one. -/
  order : Order
  /-- The message of its constraints, unless they declare one. -/
  message : Option String
  attributes : List AttributeSpec
  /-- The factories in the order in which they are tried. -/
  factories : List Factory
  parts : List (Part Kind)

/-- The value from a source, for a constraint of the given kind and attributes. -/
def Source.value (outerKind : String) (outer : Attributes) :
    Source → Except AnalysisError Attribute
  | literal value => .ok value
  | .outer name =>
    match outer.get? name with
    | some value => .ok value
    | none => .error (.missingAttribute outerKind name)
  | computed derive => derive outer

namespace Part

variable {κ : Type}

/-- A part without attributes of its own. -/
def ofTarget (target : κ) : Part κ := ⟨target, []⟩

/-- The part with an attribute's source set, in place of an earlier one. -/
def set (p : Part κ) (name : String) (source : Source) : Part κ :=
  { p with sources := p.sources.filter (·.1 != name) ++ [(name, source)] }

/-- The part with its place in the order of checks set. -/
def withOrder (p : Part κ) (order : Int) : Part κ := p.set orderName (.literal (.int order))

/-- Whether all attributes are literals. -/
def isFixed (p : Part κ) : Bool :=
  p.sources.all fun
    | (_, .literal _) => true
    | _ => false

/-- The attributes of the part, for a constraint of the given kind and attributes. -/
def instantiate (p : Part κ) (outerKind : String) (outer : Attributes) :
    Except AnalysisError Attributes :=
  p.sources.foldlM (fun resolved (name, source) =>
    return resolved.insert name (← source.value outerKind outer)) .empty

end Part

namespace Kind

/-- Checks the attribute names: none is reserved, none stands twice. `seen` holds the names before
these. -/
def checkNames (kind : String) (seen : List String) : List AttributeSpec → Except AnalysisError Unit
  | [] => .ok ()
  | spec :: rest =>
    if isReserved spec.name then
      .error (.invalidDefinition kind ("attribute '" ++ spec.name ++ "' is reserved"))
    else if seen.contains spec.name then
      .error (.invalidDefinition kind ("attribute '" ++ spec.name ++ "' is declared twice"))
    else checkNames kind (spec.name :: seen) rest

/-- The kind, unless its definition contradicts itself: it needs a factory or a part, and its
attributes need names of their own that are not reserved. -/
def define (k : Kind) : Except AnalysisError Kind :=
  if k.factories.isEmpty && k.parts.isEmpty then
    .error (.invalidDefinition k.name
      "a constraint needs a criterion factory or combined constraints")
  else (checkNames k.name [] k.attributes).map fun _ => k

/-- The attribute of the name. -/
def attribute? (k : Kind) (name : String) : Option AttributeSpec :=
  k.attributes.find? (·.name == name)

/-- Whether the kind only expands. -/
def isCombinator (k : Kind) : Bool := k.factories.isEmpty

/-- The first factory for a type. -/
def factory? (k : Kind) (type : DeclaredType) : Option Factory :=
  k.factories.find? (·.applies type)

mutual

/-- Whether a constraint of the kind can stand at a type: one of its factories applies, or for a
combinator all of its parts do. -/
def applies (type : DeclaredType) : Kind → Bool
  | ⟨_, _, _, _, factories, parts⟩ =>
    if factories.isEmpty then allApply type parts else factories.any (·.applies type)

/-- Whether all parts can stand at a type. -/
def allApply (type : DeclaredType) : List (Part Kind) → Bool
  | [] => true
  | ⟨target, _⟩ :: rest => applies type target && allApply type rest

end

/-- Checks one declared attribute: the reserved ones have values of their kinds, and all others
are attributes of the kind. -/
def checkDeclared (k : Kind) (name : String) (value : Attribute) : Except AnalysisError Unit :=
  if name = messageName then
    if value.text?.isSome then .ok ()
    else .error (.invalidAttribute k.name messageName "expected a string")
  else if name = orderName then
    if (value.int?.bind Order.ofInt?).isSome then .ok ()
    else .error (.invalidAttribute k.name orderName "expected a 32-bit integer")
  else if (k.attribute? name).isSome then .ok ()
  else .error (.invalidAttribute k.name name "unknown attribute")

/-- The attributes with the default of the attribute written out where it is not declared. -/
def fillDefault (k : Kind) (resolved : Attributes) (spec : AttributeSpec) :
    Except AnalysisError Attributes :=
  if resolved.contains spec.name then .ok resolved
  else match spec.default with
    | some default => .ok (resolved.insert spec.name default)
    | none => .error (.missingAttribute k.name spec.name)

/-- The declared attributes with the defaults written out. -/
def resolve (k : Kind) (declared : Attributes) : Except AnalysisError Attributes := do
  declared.entries.forM fun (name, value) => k.checkDeclared name value
  k.attributes.foldlM k.fillDefault declared

end Kind

end Validation
