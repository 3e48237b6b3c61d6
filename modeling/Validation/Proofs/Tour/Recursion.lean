import Validation.Proofs.Engine.Search

/-!
# Searches as plain recursions

The searches of an engine are bounded by a number that counts down with every class that they enter,
and go on as if there were nothing more to enter where it is used up. Here they are plain recursions
through a graph that may have cycles: one that goes deeper than it may has no outcome at all. It has
one as soon as it may go deep enough, which is the outcome of the bounded search: every class that is
entered is visited, and there are no more classes than registered ones.

* `Engine.Tour`: an engine and the roots that are compiled in it.
* `Engine.analyseWithin`, `Engine.compileWithin`: the searches, to some depth of the recursion.
* `Engine.Follows`: a search that comes to what a request comes to.
* `analyseWithin_succ`, `compileWithin_succ`: these, by their steps.
* `follows_lazyStep`, `follows_analyse`: the search for errors ends.
-/

namespace Validation.Engine

/-- An engine in a search, and the roots that the search has compiled, in order. -/
structure Tour where
  engine : Engine
  made : List Root

/-- A step of a search. It has no outcome if the recursion goes deeper than it may. -/
abbrev Touring (α : Type) := ExceptT AnalysisError (StateT Tour Option) α

/-- The search goes deeper than it may. -/
def tooDeep {α : Type} : Touring α := ExceptT.mk fun _ => none

/-- A request to the engine of a search. -/
def asked {α : Type} (request : Request α) : Touring α :=
  ExceptT.mk fun tour => some ((outcome request tour.engine).1,
    { tour with engine := (outcome request tour.engine).2 })

/-- A root is compiled, unless it is already. -/
def publish (root : Root) (criterion : Criterion.On Value) : Touring Unit :=
  ExceptT.mk fun tour => some (.ok (),
    { engine := { tour.engine with
        compiled := insertAbsent root criterion tour.engine.compiled }
      made := tour.made ++ [root] })

/-- Searches the classes that a tree cascades into for errors, and those that they cascade into,
apart from the classes in `visited`. -/
def analyseWithin : Nat → List String → Node → Touring (List String)
  | 0, _, _ => tooDeep
  | depth + 1, visited, node => node.cascades.foldlM (fun visited name => do
      let e ← asked get
      if e.analysed.contains name || visited.contains name then return visited
      let target ← asked (tree (.ofClass name))
      let e ← asked get
      if (e.compiled.lookup (.ofClass name)).isNone then
        asked (discard (compile unlinked target : Request (Criterion.On Value)))
      let visited ← analyseWithin depth (name :: visited) target
      asked (modify fun e => { e with analysed := e.analysed ++ [name] })
      return visited) visited

/-- Compiles a root after the classes that it cascades into, or after it has searched them for errors,
as the settings say. -/
def compileWithin : Nat → List String → Root → Touring (Criterion.On Value × List String)
  | 0, _, _ => tooDeep
  | depth + 1, visited, root => do
    let e ← asked get
    match e.compiled.lookup root with
    | some criterion => return (criterion, visited)
    | none =>
      let node ← asked (tree root)
      let visited := root.className?.toList ++ visited
      let e ← asked get
      let visited ←
        if e.config.eagerCascade then
          node.cascades.foldlM (fun visited name => do
            if visited.contains name then return visited
            return (← compileWithin depth visited (.ofClass name)).2) visited
        else analyseWithin depth visited node
      let criterion ← asked (compile linked node : Request (Criterion.On Value))
      publish root criterion
      return (criterion, visited)

/-- What a search comes to, if it ends: its result or error, and the engine after it. -/
def toured {α : Type} (search : Touring α) (tour : Tour) : Option (Except AnalysisError α × Tour) :=
  search.run.run tour

variable {α β : Type} {tour : Tour}

theorem toured_bind (search : Touring α) (f : α → Touring β) (tour : Tour) :
    toured (search >>= f) tour =
      match toured search tour with
      | some (.ok a, tour') => toured (f a) tour'
      | some (.error error, tour') => some (.error error, tour')
      | none => none := by
  simp only [toured, bind, ExceptT.bind, ExceptT.run, ExceptT.mk, StateT.run, StateT.bind,
    ExceptT.bindCont]
  rcases search tour with _ | ⟨_ | _, _⟩ <;> rfl

theorem toured_asked (request : Request α) (tour : Tour) :
    toured (asked request) tour = some ((outcome request tour.engine).1,
      { tour with engine := (outcome request tour.engine).2 }) := rfl

theorem toured_asked_get (tour : Tour) : toured (asked get) tour = some (.ok tour.engine, tour) :=
  rfl

/-! ### Their steps -/

/-- A step of the search for errors, which may go on to some depth. -/
def lazyStepWithin (depth : Nat) (visited : List String) (name : String) : Touring (List String) := do
  let e ← asked get
  if e.analysed.contains name || visited.contains name then return visited
  let target ← asked (tree (.ofClass name))
  asked (inspect name target)
  let visited ← analyseWithin depth (name :: visited) target
  asked (markAnalysed name visited)

/-- A step of the search that compiles, which may go on to some depth. -/
def eagerStepWithin (depth : Nat) (visited : List String) (name : String) :
    Touring (List String) := do
  if visited.contains name then return visited
  let (_, visited) ← compileWithin depth visited (.ofClass name)
  return visited

/-- The search of what a tree cascades into, to some depth. -/
def searchWithin (depth : Nat) (visited : List String) (t : Node) : Touring (List String) := do
  let e ← asked get
  if e.config.eagerCascade then t.cascades.foldlM (eagerStepWithin depth) visited
  else analyseWithin depth visited t

/-- A root is compiled. -/
def recorded (root : Root) (t : Node) (visited : List String) :
    Touring (Criterion.On Value × List String) := do
  let criterion ← asked (compile linked t : Request (Criterion.On Value))
  publish root criterion
  return (criterion, visited)

/-- Requests one after another are asked one after another. -/
theorem asked_bind (request : Request α) (f : α → Request β) :
    asked (request >>= f) = asked request >>= fun a => asked (f a) := by
  refine funext fun tour => ?_
  change toured (asked (request >>= f)) tour = toured (asked request >>= fun a => asked (f a)) tour
  rw [toured_bind, toured_asked, toured_asked, outcome_bind]
  rcases outcome request tour.engine with ⟨_ | _, _⟩ <;> rfl

theorem analyseWithin_succ (depth : Nat) (visited : List String) (t : Node) :
    analyseWithin (depth + 1) visited t = t.cascades.foldlM (lazyStepWithin depth) visited := by
  have hstep : lazyStepWithin depth = fun visited name => do
      let e ← asked get
      if e.analysed.contains name || visited.contains name then return visited
      let target ← asked (tree (.ofClass name))
      let e ← asked get
      if (e.compiled.lookup (.ofClass name)).isNone then
        asked (discard (compile unlinked target : Request (Criterion.On Value)))
      let visited ← analyseWithin depth (name :: visited) target
      asked (modify fun e => { e with analysed := e.analysed ++ [name] })
      return visited := by
    funext visited name
    refine bind_congr fun e => ?_
    split
    · rfl
    refine bind_congr fun target => ?_
    rw [inspect, asked_bind, bind_assoc]
    refine bind_congr fun e => ?_
    split <;> rfl
  rw [analyseWithin, hstep]

theorem compileWithin_succ (depth : Nat) (visited : List String) (root : Root) :
    compileWithin (depth + 1) visited root = (do
      let e ← asked get
      match e.compiled.lookup root with
      | some criterion => return (criterion, visited)
      | none =>
        let t ← asked (tree root)
        let visited ← searchWithin depth (root.className?.toList ++ visited) t
        recorded root t visited) := by
  rw [compileWithin]
  refine bind_congr fun e => ?_
  cases e.compiled.lookup root with
  | some criterion => rfl
  | none =>
    refine bind_congr fun t => ?_
    rw [searchWithin, bind_assoc]
    refine bind_congr fun e => ?_
    split <;> rfl

/-! ### Following a request -/

/-- **A search that comes to what a request comes to**, and satisfies a condition if it succeeds. -/
def Follows (search : Touring α) (tour : Tour) (request : Request α) (post : α → Tour → Prop) :
    Prop :=
  ∃ made, toured search tour = some ((outcome request tour.engine).1,
      ⟨(outcome request tour.engine).2, made⟩) ∧
    ∀ a, (outcome request tour.engine).1 = .ok a → post a ⟨(outcome request tour.engine).2, made⟩

section Follows

variable {search : Touring α} {request : Request α} {f : α → Touring β} {g : α → Request β}
  {post : α → Tour → Prop} {post' : β → Tour → Prop}

theorem Follows.imp {post'' : α → Tour → Prop} (h : Follows search tour request post)
    (himp : ∀ a tour', post a tour' → post'' a tour') : Follows search tour request post'' := by
  obtain ⟨made, hrun, hpost⟩ := h
  exact ⟨made, hrun, fun a ha => himp a _ (hpost a ha)⟩

theorem follows_pure {a : α} (ha : post a tour) :
    Follows (pure a : Touring α) tour (pure a) post := by
  refine ⟨tour.made, rfl, fun b hb => ?_⟩
  cases hb
  exact ha

theorem follows_asked (h : ∀ a e', Gives request tour.engine a e' → post a ⟨e', tour.made⟩) :
    Follows (asked request) tour request post :=
  ⟨tour.made, rfl, fun a ha => h a _ (Prod.ext ha rfl)⟩

/-- A computation without an engine. -/
theorem follows_asked_lift (x : Except AnalysisError α) :
    Follows (asked (liftM x)) tour (liftM x) fun _ tour' => tour' = tour := by
  refine follows_asked fun a e' hgives => ?_
  obtain ⟨-, rfl⟩ := gives_lift.1 hgives
  rfl

theorem follows_publish (root : Root) (c : Criterion.On Value) :
    Follows (publish root c) tour
      (modify fun e => { e with compiled := insertAbsent root c e.compiled }) fun _ tour' =>
        tour' = { engine := { tour.engine with
                    compiled := insertAbsent root c tour.engine.compiled }
                  made := tour.made ++ [root] } := by
  refine ⟨tour.made ++ [root], rfl, fun _ _ => rfl⟩

/-- One step after another. -/
theorem follows_bind (hop : Follows search tour request post)
    (hf : ∀ a tour', Gives request tour.engine a tour'.engine → post a tour' →
      Follows (f a) tour' (g a) post') : Follows (search >>= f) tour (request >>= g) post' := by
  obtain ⟨made, hrun, hpost⟩ := hop
  rcases houtcome : outcome request tour.engine with ⟨error | a, e'⟩
  · rw [houtcome] at hrun
    refine ⟨made, ?_, fun b hb => ?_⟩
    · rw [toured_bind, hrun, outcome_bind, houtcome]
    · rw [outcome_bind, houtcome] at hb
      cases hb
  · rw [houtcome] at hrun hpost
    obtain ⟨made', hrun', hpost'⟩ := hf a ⟨e', made⟩ houtcome (hpost a rfl)
    have hbind : outcome (request >>= g) tour.engine = outcome (g a) e' := by
      rw [outcome_bind, houtcome]
    refine ⟨made', ?_, fun b hb => ?_⟩
    · rw [toured_bind, hrun, hbind]
      exact hrun'
    · rw [hbind] at hb ⊢
      exact hpost' b hb

theorem follows_get {f : Engine → Touring β} {g : Engine → Request β}
    (h : Follows (f tour.engine) tour (g tour.engine) post') :
    Follows (asked get >>= f) tour (do g (← get)) post' := by
  have hget : Follows (asked get) tour (get : Request Engine) fun e tour' =>
      e = tour.engine ∧ tour' = tour := by
    refine follows_asked fun e e' hgives => ?_
    obtain ⟨he, he'⟩ := Prod.ext_iff.1 hgives
    cases he
    cases he'
    exact ⟨rfl, rfl⟩
  refine follows_bind hget ?_
  rintro e tour' - ⟨rfl, rfl⟩
  exact h

/-- A step for one member of a list after another. -/
theorem follows_foldlM {γ : Type} {f : β → γ → Touring β} {g : β → γ → Request β} {l : List γ}
    (inv : β → Tour → Prop)
    (h : ∀ a ∈ l, ∀ b tour, inv b tour → Follows (f b a) tour (g b a) inv) {b : β} {tour : Tour}
    (hb : inv b tour) : Follows (l.foldlM f b) tour (l.foldlM g b) inv := by
  induction l generalizing b tour with
  | nil => exact follows_pure hb
  | cons a l ih =>
    rw [List.foldlM_cons, List.foldlM_cons]
    refine follows_bind (h a List.mem_cons_self b tour hb) fun b' tour' _ hb' => ?_
    exact ih (fun c hc => h c (List.mem_cons_of_mem _ hc)) hb'

end Follows

section Ends

variable {P : Constraint → Prop} {S : Kind → Prop} {e₀ : Engine} {root : Root} {t : Node}
  {visited : List String}

/-- What a request leads to holds of a search that follows it. -/
theorem Follows.of_leads {search : Touring α} {request : Request α} {post : α → Tour → Prop}
    {led : α → Engine → Prop} (h : Follows search tour request post)
    (hleads : Leads P S tour.engine request led) :
    Follows search tour request fun a tour' =>
      post a tour' ∧ Ran P S tour.engine tour'.engine ∧ led a tour'.engine := by
  obtain ⟨made, hrun, hpost⟩ := h
  refine ⟨made, hrun, fun a ha => ⟨hpost a ha, ?_⟩⟩
  exact hleads.of_gives (Prod.ext ha rfl)

theorem follows_asked_of_leads {request : Request α} {led : α → Engine → Prop}
    (hleads : Leads P S tour.engine request led) :
    Follows (asked request) tour request fun a tour' =>
      tour'.made = tour.made ∧ Ran P S tour.engine tour'.engine ∧ led a tour'.engine :=
  (follows_asked fun _ _ _ => rfl).of_leads hleads

/-- A class that is visited is passed over. -/
theorem toured_lazyStepWithin {depth : Nat} {name : String} (h : name ∈ visited) (tour : Tour) :
    toured (lazyStepWithin depth visited name) tour = some (.ok visited, tour) := by
  have hdone : (tour.engine.analysed.contains name || visited.contains name) = true := by
    rw [Bool.or_eq_true, List.contains_iff_mem, List.contains_iff_mem]
    exact .inr h
  rw [lazyStepWithin, toured_bind, toured_asked_get]
  dsimp only
  rw [if_pos hdone]
  rfl

theorem toured_sweep {depth : Nat} {names : List String} (h : ∀ name ∈ names, name ∈ visited)
    (tour : Tour) :
    toured (names.foldlM (lazyStepWithin depth) visited) tour = some (.ok visited, tour) := by
  induction names with
  | nil => rfl
  | cons name names ih =>
    obtain ⟨hname, hnames⟩ := List.forall_mem_cons.1 h
    rw [List.foldlM_cons, toured_bind, toured_lazyStepWithin hname]
    exact ih hnames

variable (hP : Assembles P S)

/-- To some depth the search for errors follows the one with the given fuel. -/
def AnalysesWithin (P : Constraint → Prop) (S : Kind → Prop) (e₀ : Engine) (fuel depth : Nat) : Prop :=
  ∀ {tour : Tour} {visited : List String} {root : Root} {t : Node}, Orderly P S tour.engine →
    Entered e₀ tour.engine root visited t →
    tour.engine.classes.length ≤ fuel + (root.className?.toList ++ visited).length →
    tour.engine.config.eagerCascade = false →
    Follows (analyseWithin depth (root.className?.toList ++ visited) t) tour
      (analyse fuel (root.className?.toList ++ visited) t) fun _ _ => True

include hP

/-- A step of the search for errors, if what comes below it ends. -/
theorem follows_lazyStep {fuel depth : Nat} (hrest : AnalysesWithin P S e₀ fuel depth)
    (he : Orderly P S tour.engine) {name : String}
    (happroaches : name ∉ visited → Approaches e₀ tour.engine visited (.ofClass name))
    (hroom : tour.engine.classes.length ≤ fuel + (name :: visited).length)
    (hlazy : tour.engine.config.eagerCascade = false) :
    Follows (lazyStepWithin depth visited name) tour (lazyStep fuel visited name)
      fun _ _ => True := by
  refine follows_get ?_
  split
  case isTrue => exact follows_pure trivial
  case isFalse hdone =>
    rw [Bool.or_eq_true, List.contains_iff_mem, List.contains_iff_mem, not_or] at hdone
    refine follows_bind (follows_asked_of_leads (leads_enter hP he (happroaches hdone.2))) ?_
    rintro target tour₁ - ⟨-, hran₁, htarget⟩
    refine follows_bind (follows_asked_of_leads (leads_inspect hran₁.orderly htarget.tree)) ?_
    rintro - ⟨_, made⟩ - ⟨-, hran₂, rfl, -⟩
    have hroom₁ : tour₁.engine.classes.length ≤ fuel + (name :: visited).length := by
      rwa [hran₁.classes]
    have hlazy₁ : tour₁.engine.config.eagerCascade = false := by rw [hran₁.grows.config, hlazy]
    refine follows_bind (hrest hran₂.orderly htarget hroom₁ hlazy₁) fun visited₂ tour₃ _ _ => ?_
    exact follows_asked fun _ _ _ => trivial

/-- **The search that only looks for errors ends.** -/
theorem follows_analyse (fuel : Nat) : ∀ {depth : Nat}, fuel < depth →
    AnalysesWithin P S e₀ fuel depth := by
  induction fuel with
  | zero =>
    intro depth hdepth tour visited root t he h hroom _
    obtain ⟨depth, rfl⟩ := Nat.exists_eq_succ_of_ne_zero (Nat.ne_of_gt hdepth)
    rw [Nat.zero_add] at hroom
    -- all classes are visited, so none is entered any more
    have hall : ∀ name ∈ t.cascades, name ∈ root.className?.toList ++ visited := fun name hname =>
      h.swept.exhausted hroom (he.registered_of_cascades hP h.tree hname)
    rw [analyseWithin_succ]
    exact ⟨tour.made, toured_sweep hall tour, fun _ _ => trivial⟩
  | succ fuel ih =>
    intro depth hdepth tour visited root t he h hroom hlazy
    obtain ⟨depth, rfl⟩ := Nat.exists_eq_succ_of_ne_zero (Nat.ne_of_gt (Nat.zero_lt_of_lt hdepth))
    rw [analyseWithin_succ, analyse_succ]
    let inv : List String → Tour → Prop := fun visited₁ tour₁ =>
      Ran P S tour.engine tour₁.engine ∧
        Swept e₀ tour₁.engine (root.className?.toList ++ visited) visited₁
    refine (follows_foldlM inv ?_ ⟨.refl he, h.swept⟩).imp fun _ _ _ => trivial
    rintro name hname visited₁ tour₁ ⟨hran₁, hswept₁⟩
    have hroom₁ : tour₁.engine.classes.length ≤ fuel + (name :: visited₁).length := by
      rw [hran₁.classes]
      exact hswept₁.room h.swept.nodup hroom name
    have hlazy₁ : tour₁.engine.config.eagerCascade = false := by rw [hran₁.grows.config, hlazy]
    have happroaches : name ∉ visited₁ → Approaches e₀ tour₁.engine visited₁ (.ofClass name) :=
      h.approaches hname hran₁.grows hswept₁
    have hleads := leads_lazyStep hP (leads_analyse hP fuel) hran₁.orderly hswept₁.again happroaches
      hroom₁ hlazy₁
    have hstep := (follows_lazyStep hP (ih (Nat.lt_of_succ_lt_succ hdepth)) hran₁.orderly happroaches
      hroom₁ hlazy₁).of_leads hleads
    refine hstep.imp ?_
    rintro visited₂ tour₂ ⟨-, hran₂, hswept₂, -⟩
    exact ⟨hran₁.trans hran₂, hswept₁.trans hran₂.grows hswept₂⟩

end Ends

end Validation.Engine
