import Validation.Engine.Basic

/-!
# The steps of a search

Asking for a validator searches the classes that a root cascades into, either to compile them or only
for errors. Here the two searches are taken apart, so that what is said of a search is said once of
each of its steps.

* `lazyStep`, `eagerStep`: a class on the way of the one search and of the other.
* `search`: what a root cascades into, as the settings say.
* `inspect`, `markAnalysed`, `record`: what is done for a class or a root itself.
* `analyse_succ`, `compileRoot_succ`: the searches, by their steps.
-/

namespace Validation.Engine

/-- A class that is not compiled is compiled without its cascades, so that its errors are found. -/
def inspect (name : String) (t : Node) : Request Unit := do
  if ((← get).compiled.lookup (.ofClass name)).isNone then
    discard (compile unlinked t : Request (Criterion.On Value))

/-- A class is found to be free of errors. -/
def markAnalysed (name : String) (visited : List String) : Request (List String) := do
  modify fun e => { e with analysed := e.analysed ++ [name] }
  return visited

/-- A root is compiled. -/
def record (root : Root) (t : Node) (visited : List String) :
    Request (Criterion.On Value × List String) := do
  let criterion ← (compile linked t : Request (Criterion.On Value))
  modify fun e => { e with compiled := insertAbsent root criterion e.compiled }
  return (criterion, visited)

/-- A step of the search for errors: the class is searched unless it is visited or analysed. -/
def lazyStep (fuel : Nat) (visited : List String) (name : String) : Request (List String) := do
  if (← get).analysed.contains name || visited.contains name then return visited
  let target ← tree (.ofClass name)
  inspect name target
  let visited ← analyse fuel (name :: visited) target
  markAnalysed name visited

/-- A step of the search that compiles: the class is compiled unless it is visited. -/
def eagerStep (fuel : Nat) (visited : List String) (name : String) : Request (List String) := do
  if visited.contains name then return visited
  let (_, visited) ← compileRoot fuel visited (.ofClass name)
  return visited

/-- The search of what a tree cascades into. -/
def search (fuel : Nat) (visited : List String) (t : Node) : Request (List String) := do
  if (← get).config.eagerCascade then t.cascades.foldlM (eagerStep fuel) visited
  else analyse fuel visited t

theorem analyse_zero (visited : List String) (t : Node) : analyse 0 visited t = pure visited := rfl

/-- **The search for errors** goes from class to class. -/
theorem analyse_succ (fuel : Nat) (visited : List String) (t : Node) :
    analyse (fuel + 1) visited t = t.cascades.foldlM (lazyStep fuel) visited := by
  have hstep : lazyStep fuel = fun visited name => do
      if (← get).analysed.contains name || visited.contains name then return visited
      let target ← tree (.ofClass name)
      if ((← get).compiled.lookup (.ofClass name)).isNone then
        discard (compile unlinked target : Request (Criterion.On Value))
      let visited ← analyse fuel (name :: visited) target
      modify fun e => { e with analysed := e.analysed ++ [name] }
      return visited := by
    funext visited name
    refine bind_congr fun e => ?_
    split
    · rfl
    refine bind_congr fun target => ?_
    rw [inspect, bind_assoc]
    refine bind_congr fun e => ?_
    split <;> rfl
  rw [analyse, hstep]

/-- **The search that compiles** has compiled or analysed what the root cascades into before the root
itself is compiled. -/
theorem compileRoot_succ (fuel : Nat) (visited : List String) (root : Root) :
    compileRoot (fuel + 1) visited root = (do
      match (← get).compiled.lookup root with
      | some criterion => return (criterion, visited)
      | none =>
        let t ← tree root
        let visited ← search fuel (root.className?.toList ++ visited) t
        record root t visited) := by
  rw [compileRoot]
  refine bind_congr fun e => ?_
  cases e.compiled.lookup root with
  | some criterion => rfl
  | none =>
    refine bind_congr fun t => ?_
    rw [search, bind_assoc]
    refine bind_congr fun e => ?_
    split <;> rfl

end Validation.Engine
