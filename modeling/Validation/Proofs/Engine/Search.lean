import Validation.Proofs.Compile.Members
import Validation.Proofs.Compile.Refinement
import Validation.Proofs.Engine.Closure
import Validation.Proofs.Engine.Steps

/-!
# The search through the classes

Asking for a validator searches the classes that the root cascades into, depth first, and makes
public what it has searched through. The search is right about cycles because a class in progress
is only ever relied upon by what is found after it: when the search succeeds, nothing is in progress
any more, and the engine is closed again if it was closed before.

* `Engine.Approaches`, `Engine.Entered`, `Engine.Searched`: where a search is, at a root.
* `leads_lazyStep`, `leads_analyse`: the search that only looks for errors.
* `leads_eagerStep`, `leads_compileRoot`: the search that compiles.
* `leads_validator`: asking for a validator.
-/

namespace Validation.Engine

variable {P : Constraint → Prop} {S : Kind → Prop} {e₀ e e' : Engine} {root : Root} {t : Node}
  {visited visited' : List String}

/-- Whether a tree compiles is not a matter of what cascades are linked to. -/
theorem exists_compile_of_link {link : Linker} (link' : Linker) (hlink' : ∀ name, ∃ c, link' name = .ok c)
    (h : ∃ c, compile link t = .ok c) : ∃ c, compile link' t = .ok c := by
  have hfinished : ∀ n : Node, (∃ s, n.finished link = .ok s) → ∃ s, n.finished link' = .ok s := by
    intro n
    induction n using Node.induction with
    | _ n ih =>
      intro h
      obtain ⟨hown, hchildren, hcascade⟩ := Node.exists_finished_iff.1 h
      refine Node.exists_finished_iff.2 ⟨hown, fun k hk => ?_, fun name hname => ?_⟩
      · obtain ⟨hshape, hsupports, hfinished⟩ := hchildren k hk
        exact ⟨hshape, hsupports, ih k hk hfinished⟩
      · exact ⟨(hcascade name hname).1, hlink' name⟩
  obtain ⟨c, hc⟩ := h
  obtain ⟨s, hs, -⟩ := compile_eq_ok_iff.1 hc
  obtain ⟨s', hs'⟩ := hfinished t ⟨s, hs⟩
  exact ⟨s'.lift, compile_eq_ok_iff.2 ⟨s', hs', rfl⟩⟩

/-- As many different registered classes as there are registered are all of them. -/
theorem mem_of_exhausted (hnodup : visited.Nodup) (hregistered : ∀ name ∈ visited, name ∈ e.classNames)
    (hlength : e.classes.length ≤ visited.length) {name : String} (hname : name ∈ e.classNames) :
    name ∈ visited := by
  have hsub : visited.Subperm e.classNames := List.subperm_of_subset hnodup hregistered
  have hperm := hsub.perm_of_length_le (by simpa [classNames] using hlength)
  exact hperm.mem_iff.2 hname

/-- Where the fuel is used up every registered class is visited. -/
theorem Swept.exhausted (h : Swept e₀ e visited visited')
    (hlength : e.classes.length ≤ visited'.length) {name : String} (hname : name ∈ e.classNames) :
    name ∈ visited' := mem_of_exhausted h.nodup h.registered hlength hname

theorem Swept.length_le (h : Swept e₀ e visited visited') (hnodup : visited.Nodup) :
    visited.length ≤ visited'.length :=
  (List.subperm_of_subset hnodup h.kept).length_le

theorem public_analysed {name : String} :
    Public { e with analysed := e.analysed ++ [name] } root ↔
      Public e root ∨ root = .ofClass name := by
  simp only [Public, List.mem_append, List.mem_singleton, or_and_right, exists_or, exists_eq_left,
    or_assoc]

/-- An engine stays orderly when one more class is found to be free of errors. -/
theorem Orderly.markAnalysed (he : Orderly P S e) {name : String} {c : Criterion.On Value}
    (ht : e.trees.lookup (.ofClass name) = some t) (hc : compile linked t = .ok c)
    (hlazy : e.config.eagerCascade = false) :
    Orderly P S { e with analysed := e.analysed ++ [name] } := by
  refine ⟨he.kinds, he.constraints, he.trees, he.compiled, fun name' h => ?_, fun h => ?_⟩
  · rcases List.mem_append.1 h with h | h
    · exact he.analysed name' h
    · rw [List.mem_singleton.1 h]
      exact ⟨t, c, ht, hc⟩
  · rw [hlazy] at h
    cases h

/-- One more class is found to be free of errors. -/
theorem ran_analysed (he : Orderly P S e) {name : String} {c : Criterion.On Value}
    (ht : e.trees.lookup (.ofClass name) = some t) (hc : compile linked t = .ok c)
    (hlazy : e.config.eagerCascade = false)
    (hcascades : ∀ name' ∈ t.cascades,
      Public e (.ofClass name') ∨ Returns e name' (.ofClass name)) :
    Ran P S e { e with analysed := e.analysed ++ [name] } :=
  .publish (he.markAnalysed ht hc hlazy)
    ⟨rfl, rfl, rfl, fun _ _ h => h, fun _ _ h => h, fun _ _ h => h,
      fun _ h => List.mem_append_left _ h⟩ rfl (fun _ => public_analysed) ht hcascades

theorem public_compiled {c : Criterion.On Value} {root' : Root} :
    Public { e with compiled := insertAbsent root c e.compiled } root' ↔
      Public e root' ∨ root' = root := by
  constructor
  · rintro (⟨c', hc'⟩ | hanalysed)
    · rcases lookup_insertAbsent hc' with hc' | ⟨rfl, -⟩
      · exact .inl (.inl ⟨c', hc'⟩)
      · exact .inr rfl
    · exact .inl (.inr hanalysed)
  · rintro ((⟨c', hc'⟩ | hanalysed) | rfl)
    · exact .inl ⟨c', lookup_insertAbsent_of_some hc'⟩
    · exact .inr hanalysed
    · exact .inl (exists_lookup_insertAbsent root' c e.compiled)

/-- One more root is compiled. -/
theorem ran_compiled (he : Orderly P S e) {c : Criterion.On Value}
    (ht : e.trees.lookup root = some t) (hc : compile linked t = .ok c)
    (hcascades : ∀ name ∈ t.cascades, Public e (.ofClass name) ∨ Returns e name root) :
    Ran P S e { e with compiled := insertAbsent root c e.compiled } := by
  refine .publish ⟨he.kinds, he.constraints, he.trees, fun root' c' h => ?_, he.analysed, he.eager⟩
    ⟨rfl, rfl, rfl, fun _ _ h => h, fun _ _ h => h,
      fun _ _ h => lookup_insertAbsent_of_some h, fun _ h => h⟩ rfl (fun _ => public_compiled) ht
      hcascades
  rcases lookup_insertAbsent h with h | ⟨rfl, rfl⟩
  · exact he.compiled root' c' h
  · exact ⟨t, ht, hc⟩

/-- A search through several classes, one after another: when each is public in the end or was
visited before it, then each is public or was visited at the beginning. -/
theorem leads_sweep {step : List String → String → Request (List String)} {names : List String}
    (he : Orderly P S e) (hvisited : Swept e₀ e visited visited)
    (hstep : ∀ visited₁ e₁, Ran P S e e₁ → Swept e₀ e₁ visited visited₁ → ∀ name ∈ names,
      Leads P S e₁ (step visited₁ name) fun visited₂ e₂ =>
        Swept e₀ e₂ visited₁ visited₂ ∧ (name ∈ visited₁ ∨ Public e₂ (.ofClass name))) :
    Leads P S e (names.foldlM step visited) fun visited' e' =>
      Swept e₀ e' visited visited' ∧ ∀ name ∈ names, name ∈ visited ∨ Public e' (.ofClass name) := by
  refine leads_foldlM (fun pre visited' e' => Swept e₀ e' visited visited' ∧
    ∀ name ∈ pre, name ∈ visited ∨ Public e' (.ofClass name)) he ?_ ⟨hvisited, by simp⟩
  rintro pre name post hsplit visited₁ e₁ hran₁ ⟨hswept₁, hpre⟩
  refine (hstep visited₁ e₁ hran₁ hswept₁ name (by simp [hsplit])).imp ?_
  rintro visited₂ e₂ hran₂ ⟨hswept₂, hname⟩
  refine ⟨hswept₁.trans hran₂.grows hswept₂, fun name' hname' => ?_⟩
  rcases List.mem_append.1 hname' with hname' | hname'
  · exact (hpre name' hname').imp_right (·.grows hran₂.grows)
  · rw [List.mem_singleton.1 hname']
    rcases hname with hname | hname
    · exact (hswept₁.added name hname).imp_right (·.grows hran₂.grows)
    · exact .inr hname

/-- One class more is visited, so one chain less is left to be followed. -/
theorem Swept.room (h : Swept e₀ e visited visited') (hnodup : visited.Nodup) {fuel limit : Nat}
    (hroom : limit ≤ fuel + 1 + visited.length) (name : String) :
    limit ≤ fuel + (name :: visited').length := by
  have hlength := h.length_le hnodup
  rw [List.length_cons]
  omega

/-- A search may come to a root: it has not visited it, and it has come there from the classes in
progress. -/
structure Approaches (e₀ e : Engine) (visited : List String) (root : Root) : Prop where
  swept : Swept e₀ e visited visited
  new : ∀ name, root = .ofClass name → name ∉ visited
  returns : ∀ name ∈ visited, Public e (.ofClass name) ∨ Returns e name root

theorem Approaches.start (e : Engine) (root : Root) : Approaches e e [] root :=
  ⟨.start e, fun _ _ => List.not_mem_nil, fun _ hname => absurd hname List.not_mem_nil⟩

/-- A search is at a root: it has the tree, and the root is visited if it is a class. -/
structure Entered (e₀ e : Engine) (root : Root) (visited : List String) (t : Node) : Prop where
  tree : e.trees.lookup root = some t
  swept : Swept e₀ e (root.className?.toList ++ visited) (root.className?.toList ++ visited)
  led : Led e (root.className?.toList ++ visited) root

/-- A search has been through what a root cascades into, and the root can become public. -/
structure Searched (e₀ e : Engine) (root : Root) (visited visited' : List String) (t : Node) : Prop
    where
  tree : e.trees.lookup root = some t
  swept : Swept e₀ e (root.className?.toList ++ visited) visited'
  cascades : ∀ name ∈ t.cascades,
    name ∈ root.className?.toList ++ visited ∨ Public e (.ofClass name)
  returns : ∀ name ∈ t.cascades, Public e (.ofClass name) ∨ Returns e name root

/-- From a root a search goes on to the classes that this cascades into. -/
theorem Entered.approaches (h : Entered e₀ e root visited t) {name : String}
    (hname : name ∈ t.cascades) (hgrows : Grows e e')
    (hswept : Swept e₀ e' (root.className?.toList ++ visited) visited') (hnew : name ∉ visited') :
    Approaches e₀ e' visited' (.ofClass name) :=
  ⟨hswept.again, fun _ heq => Root.ofClass.inj heq ▸ hnew,
    h.led.step h.tree hname hgrows hswept⟩

theorem Entered.searched (h : Entered e₀ e root visited t) (hgrows : Grows e e')
    (hswept : Swept e₀ e' (root.className?.toList ++ visited) visited')
    (hcascades : ∀ name ∈ t.cascades,
      name ∈ root.className?.toList ++ visited ∨ Public e' (.ofClass name)) :
    Searched e₀ e' root visited visited' t :=
  ⟨hgrows.trees _ _ h.tree, hswept, hcascades, h.led.finish h.tree hgrows hcascades⟩

/-- A class that is searched through is marked as analysed. -/
theorem leads_markAnalysed (he : Orderly P S e) {name : String} {c : Criterion.On Value}
    (h : Searched e₀ e (.ofClass name) visited visited' t) (hc : compile linked t = .ok c)
    (hlazy : e.config.eagerCascade = false) :
    Leads P S e (markAnalysed name visited') fun visited'' e' =>
      Swept e₀ e' visited visited'' ∧ Public e' (.ofClass name) := by
  have hran := ran_analysed he h.tree hc hlazy h.returns
  refine leads_bind (leads_modify hran) ?_
  rintro _ _ - rfl
  refine leads_pure hran.orderly ⟨?_, public_analysed.2 (.inr rfl)⟩
  exact h.swept.publish (.ofClass name) h.tree h.cascades rfl rfl fun _ => public_analysed

/-- A root that is searched through is compiled. -/
theorem leads_record (he : Orderly P S e) (h : Searched e₀ e root visited visited' t) :
    Leads P S e (record root t visited') fun r e' =>
      Swept e₀ e' visited r.2 ∧ e'.compiled.lookup root = some r.1 := by
  refine leads_lift he fun c hc => ?_
  have hran := ran_compiled he h.tree hc h.returns
  refine leads_bind (leads_modify hran) ?_
  rintro _ _ - rfl
  refine leads_pure hran.orderly ⟨?_, ?_⟩
  · exact h.swept.publish root h.tree h.cascades rfl rfl fun _ => public_compiled
  · -- a criterion that was there before was compiled from the same tree
    obtain ⟨c', hc'⟩ := exists_lookup_insertAbsent root c e.compiled
    obtain rfl := Except.ok.inj (hc.symm.trans (hran.orderly.compile_eq h.tree hc'))
    exact hc'

/-- A class is inspected if it is not compiled, so either way it has a tree that compiles. -/
theorem leads_inspect (he : Orderly P S e) {name : String}
    (ht : e.trees.lookup (.ofClass name) = some t) :
    Leads P S e (inspect name t) fun _ e' => e' = e ∧ ∃ c, compile linked t = .ok c := by
  refine leads_get ?_
  split
  case isTrue =>
    rw [← bind_pure (discard _)]
    refine leads_discard he fun hcompile => leads_pure he ⟨rfl, ?_⟩
    exact exists_compile_of_link linked (fun _ => ⟨_, rfl⟩) hcompile
  case isFalse hcompiled =>
    rw [Bool.not_eq_true, Option.isNone_eq_false_iff, Option.isSome_iff_exists] at hcompiled
    obtain ⟨c, hc⟩ := hcompiled
    exact leads_pure he ⟨rfl, c, he.compile_eq ht hc⟩

/-- With the given fuel the search for errors, when it succeeds, has been through what the root
cascades into. -/
def AnalysesFor (P : Constraint → Prop) (S : Kind → Prop) (e₀ : Engine) (fuel : Nat) : Prop :=
  ∀ {e : Engine} {visited : List String} {root : Root} {t : Node}, Orderly P S e →
    Entered e₀ e root visited t →
    e.classes.length ≤ fuel + (root.className?.toList ++ visited).length →
    e.config.eagerCascade = false →
    Leads P S e (analyse fuel (root.className?.toList ++ visited) t) fun visited' e' =>
      Searched e₀ e' root visited visited' t

/-- With the given fuel the search that compiles, when it succeeds, has compiled the root. -/
def CompilesFor (P : Constraint → Prop) (S : Kind → Prop) (e₀ : Engine) (fuel : Nat) : Prop :=
  ∀ {e : Engine} {visited : List String} {root : Root}, Orderly P S e →
    Approaches e₀ e visited root →
    e.classes.length + 1 ≤ fuel + (root.className?.toList ++ visited).length →
    Leads P S e (compileRoot fuel visited root) fun r e' =>
      Swept e₀ e' visited r.2 ∧ e'.compiled.lookup root = some r.1

variable (hP : Assembles P S)
include hP

/-- A search comes to a root that it has not visited. -/
theorem leads_enter (he : Orderly P S e) (h : Approaches e₀ e visited root) :
    Leads P S e (tree root) fun t e' => Entered e₀ e' root visited t := by
  refine (leads_tree hP he root).imp ?_
  rintro t e' hran ⟨ht, hcompiled, hanalysed, htrees⟩
  refine ⟨ht, ?_, .enter root fun name hname => ?_⟩
  · refine (h.swept.tree he hcompiled hanalysed hran.classes htrees).enter root fun name heq => ?_
    subst heq
    exact ⟨h.new name rfl, hran.orderly.registered ht⟩
  · exact (h.returns name hname).imp (·.grows hran.grows) (·.grows hran.grows)

/-- A search that comes to a class which it has not visited or analysed goes through it, so that it is
public in the end. -/
theorem leads_lazyStep {fuel : Nat} (hrest : AnalysesFor P S e₀ fuel)
    (he : Orderly P S e) (hswept : Swept e₀ e visited visited) {name : String}
    (happroaches : name ∉ visited → Approaches e₀ e visited (.ofClass name))
    (hroom : e.classes.length ≤ fuel + (name :: visited).length)
    (hlazy : e.config.eagerCascade = false) :
    Leads P S e (lazyStep fuel visited name) fun visited' e' =>
      Swept e₀ e' visited visited' ∧ (name ∈ visited ∨ Public e' (.ofClass name)) := by
  refine leads_get ?_
  split
  case isTrue hdone =>
    rw [Bool.or_eq_true, List.contains_iff_mem, List.contains_iff_mem] at hdone
    exact leads_pure he ⟨hswept, hdone.symm.imp_right fun hanalysed => .inr ⟨name, hanalysed, rfl⟩⟩
  case isFalse hdone =>
    rw [Bool.or_eq_true, List.contains_iff_mem, List.contains_iff_mem, not_or] at hdone
    -- the class is new: its tree is made, inspected and searched, and then the class is marked
    refine leads_bind (leads_enter hP he (happroaches hdone.2)) fun target e₁ hran₁ htarget => ?_
    refine leads_bind (leads_inspect hran₁.orderly htarget.tree) ?_
    rintro - e₁ - ⟨rfl, c, hc⟩
    have hlazy₁ : e₁.config.eagerCascade = false := by rw [hran₁.grows.config, hlazy]
    have hroom₁ : e₁.classes.length ≤ fuel + (name :: visited).length := by rwa [hran₁.classes]
    refine leads_bind (hrest hran₁.orderly htarget hroom₁ hlazy₁) fun visited₂ e₂ hran₂ h => ?_
    have hlazy₂ : e₂.config.eagerCascade = false := by rw [hran₂.grows.config, hlazy₁]
    exact (leads_markAnalysed hran₂.orderly h hc hlazy₂).imp fun _ _ _ hend => hend.imp_right .inr

/-- **The search that only looks for errors.** When it succeeds, what the tree cascades into is
public, apart from the classes that were visited before. -/
theorem leads_analyse (fuel : Nat) : AnalysesFor P S e₀ fuel := by
  induction fuel with
  | zero =>
    intro e visited root t he h hroom _
    rw [Nat.zero_add] at hroom
    exact leads_pure he (h.searched (.refl e) h.swept fun name hname =>
      .inl (h.swept.exhausted hroom (he.registered_of_cascades hP h.tree hname)))
  | succ fuel ih =>
    intro e visited root t he h hroom hlazy
    rw [analyse_succ]
    refine (leads_sweep he h.swept ?_).imp fun visited' e' hran hsearch =>
      h.searched hran.grows hsearch.1 hsearch.2
    intro visited₁ e₁ hran₁ hswept₁ name hname
    refine leads_lazyStep hP ih hran₁.orderly hswept₁.again
      (h.approaches hname hran₁.grows hswept₁) ?_ ?_
    · rw [hran₁.classes]
      exact hswept₁.room h.swept.nodup hroom name
    · rw [hran₁.grows.config, hlazy]

omit hP in
/-- A search that comes to a class which it has not visited compiles it. -/
theorem leads_eagerStep {fuel : Nat} (hrest : CompilesFor P S e₀ fuel) (he : Orderly P S e)
    (hswept : Swept e₀ e visited visited) {name : String}
    (happroaches : name ∉ visited → Approaches e₀ e visited (.ofClass name))
    (hroom : e.classes.length + 1 ≤ fuel + (name :: visited).length) :
    Leads P S e (eagerStep fuel visited name) fun visited' e' =>
      Swept e₀ e' visited visited' ∧ (name ∈ visited ∨ Public e' (.ofClass name)) := by
  rw [eagerStep]
  split
  case isTrue hdone => exact leads_pure he ⟨hswept, .inl (List.contains_iff_mem.1 hdone)⟩
  case isFalse hdone =>
    rw [List.contains_iff_mem] at hdone
    refine leads_bind (hrest he (happroaches hdone) hroom) ?_
    rintro ⟨c, visited'⟩ e' hran ⟨hswept', hc⟩
    exact leads_pure hran.orderly ⟨hswept', .inr (.inl ⟨c, hc⟩)⟩

/-- What a root cascades into is searched as the settings say. -/
theorem leads_search {fuel : Nat} (hrest : CompilesFor P S e₀ fuel) (he : Orderly P S e)
    (h : Entered e₀ e root visited t)
    (hroom : e.classes.length + 1 ≤ fuel + 1 + (root.className?.toList ++ visited).length) :
    Leads P S e (search fuel (root.className?.toList ++ visited) t) fun visited' e' =>
      Searched e₀ e' root visited visited' t := by
  refine leads_get ?_
  split
  case isTrue =>
    refine (leads_sweep he h.swept ?_).imp fun visited' e' hran hsearch =>
      h.searched hran.grows hsearch.1 hsearch.2
    intro visited₁ e₁ hran₁ hswept₁ name hname
    refine leads_eagerStep hrest hran₁.orderly hswept₁.again
      (h.approaches hname hran₁.grows hswept₁) ?_
    rw [hran₁.classes]
    exact hswept₁.room h.swept.nodup hroom name
  case isFalse hlazy =>
    exact leads_analyse hP fuel he h (by omega) (Bool.not_eq_true _ ▸ hlazy)

/-- **The search that compiles.** When it succeeds the root is compiled, and what has become public
cascades into public classes, apart from the classes that were visited before. -/
theorem leads_compileRoot (fuel : Nat) : CompilesFor P S e₀ fuel := by
  induction fuel with
  | zero => exact fun he _ _ => leads_throw he
  | succ fuel ih =>
    intro e visited root he h hroom
    rw [compileRoot_succ]
    refine leads_get ?_
    cases hnone : e.compiled.lookup root with
    | some c => exact leads_pure he ⟨h.swept, hnone⟩
    | none =>
      refine leads_bind (leads_enter hP he h) fun t e₁ hran₁ hentered => ?_
      have hroom₁ : e₁.classes.length + 1 ≤
          fuel + 1 + (root.className?.toList ++ visited).length := by rwa [hran₁.classes]
      exact leads_bind (leads_search hP ih hran₁.orderly hentered hroom₁)
        fun visited₂ e₂ hran₂ hsearched => leads_record hran₂.orderly hsearched

/-- **Asking for a validator.** A closed engine is closed again if there is one. -/
theorem leads_validator (he : Orderly P S e) (root : Root) :
    Leads P S e (validator root) fun v e' =>
      v.root = root ∧ e'.compiled.lookup root = some v.criterion ∧ (Closed e → Closed e') := by
  refine leads_get (leads_bind
    (leads_compileRoot hP _ he (.start e root) (Nat.le_add_right _ _)) ?_)
  rintro ⟨c, visited⟩ e' hran ⟨hswept, hc⟩
  exact leads_pure hran.orderly ⟨rfl, hc, hswept.finish he hran.grows⟩

/-- The root of a validator that a closed engine gives is clear. -/
theorem clear_of_gives (he : Orderly P S e) (hclosed : Closed e) {w : Validator}
    (h : Gives (validator root) e w e') : Clear e' root := by
  obtain ⟨-, -, hcompiled, hclosed'⟩ := (leads_validator hP he root).of_gives h
  exact closed_iff.1 (hclosed' hclosed) root (.inl ⟨_, hcompiled⟩)

end Validation.Engine
