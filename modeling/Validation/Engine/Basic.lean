import Validation.Compile.Slots
import Validation.Node.Build

/-!
# The engine

An engine holds the kinds and classes of one context, and what has been made of them: interned
constraints, trees and criteria, each made when first asked for and then kept. What a request has
made stays when the request fails.

* `Engine.build`, `Engine.register`: setting up.
* `Engine.tree`: the tree of a root.
* `Engine.validator`: the criterion of a root.
-/

namespace Validation

/-- What can be asked for: a registered class, or an annotated type on its own. -/
inductive Root where
  | ofClass (name : String)
  | ofType (type : AnnotatedType)
deriving DecidableEq

/-- The text of a root. -/
def Root.render : Root → String
  | ofClass name => name
  | ofType type => type.type.render

/-- The class of a root, if it is one. -/
def Root.className? : Root → Option String
  | ofClass name => some name
  | ofType _ => none

/-- The kinds and classes of one context, and what has been made of them. -/
structure Engine where
  config : Config
  catalog : Catalog
  /-- The extractors in the order in which they are tried. -/
  extractors : List Extractor
  /-- The registered classes, each name once. -/
  classes : List ClassSchema
  constraints : ConstraintCache
  /-- The trees that are made, each root once. -/
  trees : List (Root × Node)
  /-- The criteria that are made, each root once. -/
  compiled : List (Root × Criterion.On Value)
  /-- The classes found to be free of errors, with all classes that they cascade into. -/
  analysed : List String

/-- A request to an engine. What it has made stays when it fails. -/
abbrev Request (α : Type) := ExceptT AnalysisError (StateM Engine) α

/-- The criterion of a root. -/
structure Validator where
  root : Root
  criterion : Criterion.On Value

/-- The entries with one more, unless there is one of its name. -/
def insertAbsent {α β : Type} [BEq α] (key : α) (value : β) (entries : List (α × β)) :
    List (α × β) :=
  match entries.lookup key with
  | some _ => entries
  | none => entries ++ [(key, value)]

namespace Engine

/-- The class registered under a name. -/
def schema? (e : Engine) (name : String) : Option ClassSchema := e.classes.find? (·.name == name)

/-- Whether a class is registered under a name. -/
def isRegistered (e : Engine) (name : String) : Bool := (e.schema? name).isSome

/-- The engine with a class more, unless there is one of its name. -/
def withClass (e : Engine) (schema : ClassSchema) : Except AnalysisError Engine :=
  if e.isRegistered schema.name then .error (.duplicateClass schema.name)
  else .ok { e with classes := e.classes ++ [schema] }

/-- A new engine. The kinds are added to the catalog; the extractors are tried after the default
ones. -/
def build (config : Config) (catalog : Catalog) (kinds : List Kind) (extractors : List Extractor)
    (classes : List ClassSchema) : Except AnalysisError Engine := do
  let catalog ← kinds.foldlM Catalog.register catalog
  let engine : Engine :=
    ⟨config, catalog, Extractor.defaults ++ extractors, [], .empty, [], [], []⟩
  classes.foldlM withClass engine

/-- Registers a class. -/
def register (schema : ClassSchema) : Request Unit := do
  let e ← get
  set (← (e.withClass schema : Request Engine))

/-- What trees are built by. -/
def analyser (e : Engine) : Analyser := ⟨e.config, e.catalog, e.extractors, e.classes.map (·.name)⟩

/-- An operation on the interned constraints of the engine. -/
def interning {α : Type} (operation : Interning α) : Request α := do
  let e ← get
  let (result, constraints) := operation.run e.constraints
  set { e with constraints }
  result

/-- Makes the tree of a root. -/
def buildTree (root : Root) : Request Node := do
  let e ← get
  match root with
  | .ofClass name =>
    match e.schema? name with
    | some schema => interning (e.analyser.buildClass schema)
    | none => throw (.unknownClass name)
  | .ofType type => interning (e.analyser.buildType type)

/-- The tree of a root. -/
def tree (root : Root) : Request Node := do
  match (← get).trees.lookup root with
  | some tree => return tree
  | none =>
    let tree ← buildTree root
    modify fun e => { e with trees := insertAbsent root tree e.trees }
    return tree

/-- The check of a cascade: null passes, and any other value is a matter for its class. -/
def cascadeCheck (className : String) : Check Value := fun v =>
  if v.isNull then .pass else .cascade className v .done

/-- Links a cascade to its class. -/
def linked : Linker := fun name => .ok (.leaf (cascadeCheck name))

/-- Links a cascade to nothing, where a class is only searched for errors. -/
def unlinked : Linker := fun _ => .ok .truth

/-- Searches the classes that a tree cascades into for errors, and those that they cascade into,
apart from the classes in `visited`; `fuel` bounds the length of a chain of cascades. Gives the
classes visited in the end. -/
def analyse : Nat → List String → Node → Request (List String)
  | 0, visited, _ => return visited
  | fuel + 1, visited, node => node.cascades.foldlM (fun visited name => do
      if (← get).analysed.contains name || visited.contains name then return visited
      let target ← tree (.ofClass name)
      if ((← get).compiled.lookup (.ofClass name)).isNone then
        discard (compile unlinked target : Request (Criterion.On Value))
      let visited ← analyse fuel (name :: visited) target
      modify fun e => { e with analysed := e.analysed ++ [name] }
      return visited) visited

/-- The criterion of a root, and the classes visited in the end. The classes that it cascades into
come first: they are compiled or only searched for errors, as the settings say. `fuel` bounds the
length of a chain of cascades between classes that are not visited; where it is used up all
registered classes are visited, so a class asked for is not registered. -/
def compileRoot : Nat → List String → Root → Request (Criterion.On Value × List String)
  | 0, _, root => throw (.unknownClass root.render)
  | fuel + 1, visited, root => do
    match (← get).compiled.lookup root with
    | some criterion => return (criterion, visited)
    | none =>
      let node ← tree root
      let visited := root.className?.toList ++ visited
      let visited ←
        if (← get).config.eagerCascade then
          node.cascades.foldlM (fun visited name => do
            if visited.contains name then return visited
            return (← compileRoot fuel visited (.ofClass name)).2) visited
        else analyse fuel visited node
      let criterion ← (compile linked node : Request (Criterion.On Value))
      modify fun e => { e with compiled := insertAbsent root criterion e.compiled }
      return (criterion, visited)

/-- The validator of a root. -/
def validator (root : Root) : Request Validator := do
  let (criterion, _) ← compileRoot ((← get).classes.length + 1) [] root
  return ⟨root, criterion⟩

end Engine

end Validation
