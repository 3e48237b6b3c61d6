import Validation.Catalog.Basic
import Validation.Config
import Validation.Constraint.Cache
import Validation.Node.Basic
import Validation.Node.Schema

/-!
# Building trees

The tree of an annotated type or of a class. A constraint stays at its position if its kind applies
to the declared type; otherwise it goes to the first extractor that leads to a type its kind
applies to, and those of one extractor share a child. Children come in the order of the extractors'
first use, then those of nested types; of the latter only those with something to check.

* `Analyser.buildType`, `Analyser.buildClass`: the trees.
-/

namespace Validation

/-- What the building of trees goes by. -/
structure Analyser where
  config : Config
  catalog : Catalog
  /-- The extractors in the order in which they are tried. -/
  extractors : List Extractor
  /-- The names of the classes that can be cascaded into. -/
  classNames : List String

/-- The constraints of a position that go to one extractor. -/
structure ExtractorGroup where
  /-- The place of the extractor among all. -/
  index : Nat
  extractor : Extractor
  /-- The type to which the extractor leads. -/
  type : DeclaredType
  constraints : List Constraint

/-- Where the constraints of a position go. -/
structure Placement where
  own : List Constraint
  /-- The groups in the order of their first constraints. -/
  groups : List ExtractorGroup

namespace Placement

/-- Nothing placed. -/
def empty : Placement := ⟨[], []⟩

/-- The groups with a constraint more for an extractor, in a group of its own if it is the first. -/
def addToGroup (index : Nat) (extractor : Extractor) (type : DeclaredType) (c : Constraint) :
    List ExtractorGroup → List ExtractorGroup
  | [] => [⟨index, extractor, type, [c]⟩]
  | g :: rest =>
    if g.index = index then { g with constraints := g.constraints ++ [c] } :: rest
    else g :: addToGroup index extractor type c rest

end Placement

namespace Analyser

/-- The constraint of a declaration. -/
def constraint (a : Analyser) (d : Declaration) : Interning Constraint := do
  let kind ← a.catalog.resolve d.kind
  kind.intern d.attributes

/-- The first extractor that leads from a type to one that a kind applies to, with its place and
that type. -/
def extractorFor? (a : Analyser) (kind : Kind) (type : DeclaredType) :
    Option (Nat × Extractor × DeclaredType) :=
  a.extractors.zipIdx.findSome? fun (extractor, index) =>
    ((extractor.resolve type).filter (kind.applies ·)).map (index, extractor, ·)

/-- Where one more constraint of a position goes. -/
def place (a : Analyser) (p : Position) (placed : Placement) (d : Declaration) :
    Interning Placement := do
  let c ← a.constraint d
  if c.kind.applies p.type then return { placed with own := placed.own ++ [c] }
  match a.extractorFor? c.kind p.type with
  | some (index, extractor, type) =>
    return { placed with groups := Placement.addToGroup index extractor type c placed.groups }
  | none => throw (.noValueExtractor p.location.render c.render p.type.render)

/-- The class that a position cascades into. -/
def cascadeTarget (a : Analyser) (p : Position) : Except AnalysisError String :=
  match p.type.className? with
  | none => .error (.invalidCascade p.location.render p.type.render)
  | some name => if a.classNames.contains name then .ok name else .error (.unknownClass name)

/-- The child of an extractor. -/
def extractedChild (location : Location) (g : ExtractorGroup) : Child Node :=
  ⟨.extracted g.extractor,
    ⟨location.child (.held g.extractor.name), g.type, g.constraints, none, []⟩⟩

/-- A child, if there is something to check in it. -/
def keep (wrapper : Wrapper) (node : Node) : List (Child Node) :=
  if node.isEmpty then [] else [⟨wrapper, node⟩]

mutual

/-- The tree of an annotated type at a location. -/
def build (a : Analyser) (location : Location) : AnnotatedType → Interning Node
  | ⟨type, annotations⟩ => do
    if a.config.maxTypeDepth < location.depth then
      throw (.depthExceeded location.render a.config.maxTypeDepth)
    let placed ← (AnnotatedType.mk type annotations).declarations.foldlM
      (a.place ⟨location, type⟩) .empty
    let cascade ← if (AnnotatedType.mk type annotations).isCascaded then
        some <$> (a.cascadeTarget ⟨location, type⟩ : Interning String)
      else pure none
    let nested ← buildNested a location type
    return ⟨location, type, placed.own, cascade,
      placed.groups.map (extractedChild location) ++ nested⟩

/-- The children of the types nested in a type. -/
def buildNested (a : Analyser) (location : Location) :
    DeclaredType → Interning (List (Child Node))
  | .array element => keep .arrayElement <$> build a (location.child .element) element
  | .collection _ element => keep .iterableElement <$> build a (location.child .element) element
  | .map key value => do
    let key ← build a (location.child .mapKey) key
    let value ← build a (location.child .mapValue) value
    return keep .mapKey key ++ keep .mapValue value
  | .optional content => keep .optionalValue <$> build a (location.child (.held "value")) content
  | _ => return []

end

/-- The tree of an annotated type. -/
def buildType (a : Analyser) (type : AnnotatedType) : Interning Node :=
  a.build (.ofRoot type.type.render) type

/-- The child of a property, if there is something to check in it. -/
def buildProperty (a : Analyser) (location : Location) (p : Property) :
    Interning (List (Child Node)) :=
  keep (.property p.accessor) <$> a.build (location.child (.property p.name)) p.type

/-- The tree of a class: its own constraints at the root, and a child for each effective property. -/
def buildClass (a : Analyser) (schema : ClassSchema) : Interning Node := do
  let location := Location.ofRoot schema.name
  let constraints ← schema.declarations.mapM a.constraint
  let children ← (schema.effectiveProperties a.config.propertySource).mapM
    (a.buildProperty location)
  return ⟨location, .classOf schema.name, constraints, none, children.flatten⟩

end Analyser

end Validation
