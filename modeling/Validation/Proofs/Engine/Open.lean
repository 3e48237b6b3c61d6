import Validation.Proofs.Build
import Validation.Proofs.Engine.Answers

/-!
# Open engines

An engine that is not closed gives out validators that are not clear. If a public root cascades into
a class that is not public, then the validator of the root is such a validator where the root is
compiled; and where it is a class that is only analysed, that of a type that cascades into it is.

* `closed_iff_validators_clear`: the engines all whose validators are clear.
-/

namespace Validation.Engine

variable {P : Constraint → Prop} {S : Kind → Prop} {e e' : Engine} {root : Root} {t : Node}

/-- The type of a class, with a cascade into it and nothing else. -/
def cascadeInto (name : String) : AnnotatedType := ⟨.classOf name, [.cascade]⟩

/-- Its tree. -/
def intoNode (name : String) : Node := ⟨.ofRoot name, .classOf name, [], some name, []⟩

theorem buildType_cascadeInto {a : Analyser} {name : String} {cache : ConstraintCache}
    (hname : name ∈ a.classNames) :
    Gives (a.buildType (cascadeInto name)) cache (intoNode name) cache := by
  have hdepth : ¬ a.config.maxTypeDepth < (Location.ofRoot name).depth := Nat.not_lt_zero _
  have htarget : a.cascadeTarget ⟨.ofRoot name, .classOf name⟩ = .ok name := by
    simp [Analyser.cascadeTarget, DeclaredType.className?, hname]
  have hcascaded : AnnotatedType.isCascaded ⟨.classOf name, [.cascade]⟩ = true := rfl
  have hrender : DeclaredType.render (.classOf name) = name := by rw [DeclaredType.render]
  simp only [Analyser.buildType, cascadeInto, Analyser.build, hrender, if_neg hdepth, hcascaded,
    if_true, htarget, Analyser.buildNested, AnnotatedType.declarations, Annotation.declarations,
    List.flatMap_cons, List.flatMap_nil, List.append_nil, List.foldlM_nil]
  rfl

theorem eq_intoNode {name : String} (h : IsTree P e (.ofType (cascadeInto name)) t) :
    t = intoNode name := by
  obtain ⟨names, cache, cache', -, -, ht⟩ := h
  have ht : Gives ((e.analyserOf names).buildType (cascadeInto name)) cache t cache' := ht
  obtain ⟨-, placed, s₁, cascade, nested, -, -, htarget, -⟩ := Analyser.build_gives ht
  have hname : name ∈ (e.analyserOf names).classNames := by
    obtain ⟨target, htarget, -⟩ := htarget
    by_contra hnot
    simp [cascadeInto, Analyser.cascadeTarget, DeclaredType.className?, hnot] at htarget
  exact (gives_unique ht (buildType_cascadeInto hname)).1

theorem tree_cascadeInto (he : Orderly P S e) {name : String} (hname : name ∈ e.classNames) :
    ∃ e', Gives (tree (.ofType (cascadeInto name))) e (intoNode name) e' ∧
      e'.config = e.config ∧ e'.compiled = e.compiled ∧ e'.analysed = e.analysed ∧
      e'.trees.lookup (.ofType (cascadeInto name)) = some (intoNode name) := by
  cases hlookup : e.trees.lookup (.ofType (cascadeInto name)) with
  | some t =>
    -- whatever tree is published for this type is the one that would be built
    obtain rfl := eq_intoNode (he.trees _ t hlookup)
    exact ⟨e, tree_of_lookup hlookup, rfl, rfl, rfl, hlookup⟩
  | none =>
    have hbuild : Gives (buildTree (.ofType (cascadeInto name))) e (intoNode name) e := by
      have hgives : Gives (e.analyser.buildType (cascadeInto name)) e.constraints (intoNode name)
          e.constraints := buildType_cascadeInto hname
      rw [Gives] at hgives
      have houtcome := outcome_interning (e.analyser.buildType (cascadeInto name)) e
      rw [hgives] at houtcome
      exact gives_get.2 houtcome
    refine ⟨{ e with trees := insertAbsent _ (intoNode name) e.trees }, ?_, rfl, rfl, rfl,
      lookup_insertAbsent_self hlookup⟩
    rw [tree]
    refine gives_get.2 ?_
    rw [hlookup]
    exact gives_bind.2 ⟨_, e, hbuild, gives_bind.2 ⟨(), _, gives_modify, gives_pure.2 ⟨rfl, rfl⟩⟩⟩

theorem cascades_intoNode (name : String) : (intoNode name).cascades = [name] := by
  simp [Node.cascades, Node.nodes, Node.nodesOf, intoNode, List.eraseDups_cons]

theorem compile_intoNode (name : String) : ∃ c, compile linked (intoNode name) = .ok c := by
  have hfinished : ∃ s, (intoNode name).finished linked = .ok s :=
    Node.exists_finished_iff.2 ⟨by simp [intoNode], by simp [intoNode],
      fun name' _ => ⟨rfl, _, rfl⟩⟩
  obtain ⟨s, hs⟩ := hfinished
  exact ⟨s.lift, compile_eq_ok_iff.2 ⟨s, hs, rfl⟩⟩

/-- A cascade into an analysed class is not searched. -/
theorem validator_cascadeInto (he : Orderly P S e) {name : String} (hname : name ∈ e.analysed) :
    ∃ w e', Gives (validator (.ofType (cascadeInto name))) e w e' ∧
      e'.trees.lookup (.ofType (cascadeInto name)) = some (intoNode name) ∧
      ∀ name', Public e' (.ofClass name') → Public e (.ofClass name') := by
  cases hlookup : e.compiled.lookup (.ofType (cascadeInto name)) with
  | some c =>
    obtain ⟨t, ht, -⟩ := he.compiled _ c hlookup
    obtain rfl := eq_intoNode (he.trees _ t ht)
    exact ⟨_, e, validator_of_compiled hlookup, ht, fun _ h => h⟩
  | none =>
    obtain ⟨t, -, ht, -⟩ := he.analysed name hname
    obtain ⟨e₁, htree, hconfig, hcompiled, hanalysed, htrees⟩ :=
      tree_cascadeInto he (he.registered ht)
    obtain ⟨c, hc⟩ := compile_intoNode name
    have hlazy : e₁.config.eagerCascade = false := by rw [hconfig, he.lazy hname]
    -- the one class that the tree cascades into is analysed, so there is nothing to search
    have hsearch : Gives (analyse e.classes.length [] (intoNode name)) e₁ [] e₁ := by
      cases e.classes.length with
      | zero => exact gives_pure.2 ⟨rfl, rfl⟩
      | succ fuel =>
        rw [analyse_succ, cascades_intoNode, List.foldlM_cons]
        refine gives_bind.2 ⟨[], e₁, gives_get.2 ?_, gives_pure.2 ⟨rfl, rfl⟩⟩
        rw [hanalysed, if_pos (by simp [hname])]
        exact gives_pure.2 ⟨rfl, rfl⟩
    refine ⟨_, _, validator_of_analyse hlookup htree hlazy hsearch hc, htrees, fun name' h => ?_⟩
    have hold := (public_compiled.1 h).resolve_right (by simp)
    rwa [Public, hcompiled, hanalysed] at hold

/-- **The engines all whose validators are clear** are the closed ones. -/
theorem closed_iff_validators_clear (hP : Assembles P S) (he : Orderly P S e) :
    Closed e ↔ ∀ root w e', Gives (validator root) e w e' → Clear e' root := by
  constructor
  · exact fun hclosed root w e' h => clear_of_gives hP he hclosed h
  · intro hclear root hroot t ht name hname
    rcases hroot with ⟨c, hc⟩ | ⟨own, hown, rfl⟩
    · exact (hclear root _ e (validator_of_compiled hc)).2 name (.one ht hname)
    · obtain ⟨w, e', hvalidator, htree, hpublic⟩ := validator_cascadeInto he hown
      obtain ⟨hran, -⟩ := (leads_validator hP he _).of_gives hvalidator
      refine hpublic name ((hclear _ w e' hvalidator).2 name ?_)
      refine (Reaches.one htree ?_).next (hran.grows.trees _ _ ht) hname
      rw [cascades_intoNode]
      exact List.mem_singleton_self own

end Validation.Engine
