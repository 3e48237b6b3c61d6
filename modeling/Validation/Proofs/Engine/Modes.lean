import Validation.Proofs.Engine.Twin
import Validation.Proofs.Reports
import Validation.Proofs.Verdict.Run

/-!
# Eager and lazy cascades

Whether the classes that a root cascades into are compiled with it or when a value needs them makes
no difference to what comes out: the request for the validator succeeds in both cases or in none, and
the validators say the same of every value. The first is the search side by side (`matches_validator`).
The second needs the engines at run time: both are clear at the root and have the same trees for it
and for all classes below it, which stays so however they are used (`Alike`), so every request of a
trial is answered in both by a criterion of the same tree.

* `Engine.Alike`: two engines are alike at a root.
* `answer_of_alike`: requests are answered alike.
* `eager_and_lazy_agree`: both treatments of cascades agree.
-/

namespace Validation

/-- What a kind makes of its constraints asks for no class. -/
def Kind.AsksNoClass (k : Kind) : Prop := k.Reports fun _ _ => True

theorem Kind.Probes.asksNoClass {k : Kind} (h : k.Probes) : k.AsksNoClass :=
  fun factory hfactory type attributes s hs x =>
    (h.reports factory hfactory type attributes s hs x).meets fun _ _ => trivial

/-- What a constraint becomes asks for no class. -/
abbrev Constraint.AsksNoClass (c : Constraint) : Prop := c.Reports fun _ _ => True

/-- A trial runs in two evaluations alike if its requests are answered alike. -/
theorem Trial.exists_yields_of_answers {limit : Nat} {rel : Evaluation → Evaluation → Prop}
    {asked : String → Prop}
    (hnote : ∀ s s' entry, rel s s' →
      rel { s with trail := entry :: s.trail } { s' with trail := entry :: s'.trail })
    (hanswer : ∀ className v (s s' : Evaluation), rel s s' → asked className →
      ∀ r s₁, (Engine.answer limit className v).run s = some (r, s₁) →
        ∃ s₁', (Engine.answer limit className v).run s' = some (r, s₁') ∧ rel s₁ s₁')
    {t : Trial Verdict}
    (ht : t.Meets (fun className _ => asked className) (fun _ _ _ => True) fun _ => True)
    {s s' s₁ : Evaluation} {r : Verdict} (hs : rel s s') (h : t.Yields limit s r s₁) :
    ∃ s₁', t.Yields limit s' r s₁' ∧ rel s₁ s₁' := by
  induction t generalizing s s' with
  | done result =>
    obtain ⟨rfl, rfl⟩ := yields_done.1 h
    exact ⟨s', yields_done.2 ⟨rfl, rfl⟩, hs⟩
  | note entry next ih => exact ih ht (hnote s s' entry hs) (yields_note.1 h)
  | cascade className v next ih =>
    obtain ⟨answered, s₂, hrun, h⟩ := yields_cascade.1 h
    obtain ⟨s₂', hrun', hs₂⟩ := hanswer className v s s' hs ht.1 answered s₂ hrun
    obtain ⟨s₁', hyields, hs₁⟩ := ih answered (ht.2 answered fun _ _ => trivial) hs₂ h
    exact ⟨s₁', yields_cascade.2 ⟨answered, s₂', hrun', hyields⟩, hs₁⟩

namespace Engine

variable {P : Constraint → Prop} {S : Kind → Prop} {e e' e₁ e₁' : Engine} {root : Root} {t : Node}

/-- Nothing that the kinds of the engine make asks for a class. -/
abbrev AsksOnly (e : Engine) : Prop := Orderly Constraint.AsksNoClass Kind.AsksNoClass e

theorem asks_assemble : Assembles Constraint.AsksNoClass Kind.AsksNoClass :=
  Constraint.reports_assemble fun _ _ _ _ h => h

/-- **What a compiled criterion asks for**: classes that its tree cascades into. -/
theorem asks_of_compiled (he : AsksOnly e) (ht : e.trees.lookup root = some t)
    {c : Criterion.On Value} (hc : e.compiled.lookup root = some c) (v : Value) :
    (c.validate v).Meets (fun className _ => className ∈ t.cascades) (fun _ _ _ => True)
      fun _ => True := by
  obtain ⟨t', ht', hcompile⟩ := he.compiled root c hc
  obtain rfl : t = t' := Option.some.inj (ht.symm.trans ht')
  obtain ⟨s, hs, rfl⟩ := compile_eq_ok_iff.1 hcompile
  refine Node.meets_finished (fun _ _ className _ => className ∈ t.cascades) (fun _ _ _ => True)
    (fun _ _ _ => trivial) (fun m hm => ⟨fun c hc s hs v => ?_, fun _ _ _ _ _ _ _ _ hname => hname,
      fun _ _ _ _ _ _ _ _ => trivial, fun name hname c hlink v => ?_⟩) hs v
  · have hreports := (he.consists asks_assemble ht m hm).1 c hc _ s hs
    exact ShapedCriterion.meets_lift (fun x _ => (hreports x).meets fun _ _ => trivial) trivial
  · cases hlink
    rw [Criterion.validate, cascadeCheck]
    split
    · exact Trial.meets_pass
    · exact ⟨Node.mem_cascades.2 ⟨m, hm, hname⟩, fun _ _ _ _ => trivial⟩

/-- **Two engines are alike at a root**: both are clear there, and they have the same trees for the
root and for all classes that it reaches. -/
structure Alike (e e' : Engine) (root : Root) : Prop where
  left : Clear e root
  right : Clear e' root
  tree : ∀ t, e.trees.lookup root = some t → e'.trees.lookup root = some t
  below : ∀ name, Reaches e root name → ∀ t, e.trees.lookup (.ofClass name) = some t →
    e'.trees.lookup (.ofClass name) = some t

theorem Alike.step (h : Alike e e' root) (ht : e.trees.lookup root = some t) {name : String}
    (hname : name ∈ t.cascades) : Alike e e' (.ofClass name) :=
  ⟨h.left.step ht hname, h.right.step (h.tree t ht) hname, h.below name (.one ht hname),
    fun name' hname' => h.below name' (hname'.cons ht hname)⟩

/-- What is clear reaches no more classes later. -/
theorem Clear.reaches_of_grows (h : Clear e root) (he : Orderly P S e) (hgrows : Grows e e₁)
    {name : String} (hname : Reaches e₁ root name) : Reaches e root name := by
  induction hname with
  | one ht hname => exact .one (he.tree_eq hgrows h.1 ht) hname
  | next _ ht hname ih => exact ih.next (he.tree_eq hgrows (h.2 _ ih) ht) hname

/-- **Engines that are alike stay so**, whatever is asked of each of them later. -/
theorem Alike.grows (h : Alike e e' root) (he : Orderly P S e) (he' : Orderly P S e')
    (hgrows : Grows e e₁) (hgrows' : Grows e' e₁') : Alike e₁ e₁' root where
  left := h.left.grows he hgrows
  right := h.right.grows he' hgrows'
  tree := fun t ht => hgrows'.trees _ t (h.tree t (he.tree_eq hgrows h.left.1 ht))
  below := by
    intro name hname t ht
    have hold := h.left.reaches_of_grows he hgrows hname
    exact hgrows'.trees _ t (h.below name hold t (he.tree_eq hgrows (h.left.2 name hold) ht))

theorem Alike.symm (h : Alike e e' root) (he : Orderly P S e) : Alike e' e root := by
  have htree : ∀ root', Public e root' →
      (∀ t, e.trees.lookup root' = some t → e'.trees.lookup root' = some t) →
      ∀ t, e'.trees.lookup root' = some t → e.trees.lookup root' = some t := by
    intro root' hpublic hsame t ht
    obtain ⟨t', -, ht', -⟩ := he.exists_tree hpublic
    rw [ht', ← ht, hsame t' ht']
  have hreaches : ∀ name, Reaches e' root name → Reaches e root name := by
    intro name hname
    induction hname with
    | one ht hname => exact .one (htree root h.left.1 h.tree _ ht) hname
    | next _ ht hname ih =>
      exact ih.next (htree _ (h.left.2 _ ih) (h.below _ ih) _ ht) hname
  exact ⟨h.right, h.left, htree root h.left.1 h.tree, fun name hname =>
    htree _ (h.left.2 name (hreaches name hname)) (h.below name (hreaches name hname))⟩

/-- Engines that are alike at a root have compiled the same criterion for it. -/
theorem Alike.criterion_eq (h : Alike e e' root) (he : Orderly P S e) (he' : Orderly P S e')
    {c c' : Criterion.On Value} (hc : e.compiled.lookup root = some c)
    (hc' : e'.compiled.lookup root = some c') : c = c' := by
  obtain ⟨t, ht, hcompile⟩ := he.compiled root c hc
  obtain ⟨t', ht', hcompile'⟩ := he'.compiled root c' hc'
  obtain rfl : t = t' := Option.some.inj ((h.tree t ht).symm.trans ht')
  exact Except.ok.inj (hcompile.symm.trans hcompile')

/-- Two evaluations that have come from two engines with the same notes. -/
structure SideBySide (e e' : Engine) (s s' : Evaluation) : Prop where
  left : Ran Constraint.AsksNoClass Kind.AsksNoClass e s.engine
  right : Ran Constraint.AsksNoClass Kind.AsksNoClass e' s'.engine
  notes : s.trail = s'.trail

/-- A criterion of what two engines are alike at runs alike in both, if requests are answered alike. -/
theorem exists_yields_of_alike {limit : Nat} (he : AsksOnly e)
    (halike : Alike e e' root)
    (hanswer : ∀ className v (s s' : Evaluation), SideBySide e e' s s' →
      Alike e e' (.ofClass className) →
      ∀ r s₁, (answer limit className v).run s = some (r, s₁) →
        ∃ s₁', (answer limit className v).run s' = some (r, s₁') ∧ SideBySide e e' s₁ s₁')
    {c : Criterion.On Value} (hc : e.compiled.lookup root = some c) {v : Value}
    {s s' s₁ : Evaluation} {r : Verdict} (hs : SideBySide e e' s s')
    (h : (c.validate v).Yields limit s r s₁) :
    ∃ s₁', (c.validate v).Yields limit s' r s₁' ∧ SideBySide e e' s₁ s₁' := by
  obtain ⟨t, ht, -⟩ := he.compiled root c hc
  refine Trial.exists_yields_of_answers ?_ ?_ (asks_of_compiled he ht hc v) hs h
  · exact fun s s' entry hs => ⟨hs.left, hs.right, congrArg (entry :: ·) hs.notes⟩
  · exact fun className v s s' hs hasked => hanswer className v s s' hs (halike.step ht hasked)

/-- **Requests are answered alike** in engines that are alike at the class. -/
theorem answer_of_alike (limit : Nat) : ∀ {e e' : Engine} (className : String) (v : Value)
    (s s' : Evaluation), AsksOnly e → AsksOnly e' → SideBySide e e' s s' →
    Alike e e' (.ofClass className) →
    ∀ r s₁, (answer limit className v).run s = some (r, s₁) →
      ∃ s₁', (answer limit className v).run s' = some (r, s₁') ∧ SideBySide e e' s₁ s₁' := by
  induction limit with
  | zero => exact fun _ _ _ _ _ _ _ _ _ _ h => nomatch h
  | succ limit ih =>
    intro e e' className v s s' he he' hs halike r s₁ h
    have halike := halike.grows he he' hs.left.grows hs.right.grows
    obtain ⟨w, e₁, hw⟩ := validator_of_clear hs.left.orderly halike.left
    obtain ⟨w', e₁', hw'⟩ := validator_of_clear hs.right.orderly halike.right
    obtain ⟨hran, -, hc, -⟩ := (leads_validator asks_assemble hs.left.orderly _).of_gives hw
    obtain ⟨hran', -, hc', -⟩ := (leads_validator asks_assemble hs.right.orderly _).of_gives hw'
    have halike₁ := halike.grows hs.left.orderly hs.right.orderly hran.grows hran'.grows
    -- both classes are compiled by now, from the same tree
    have hcriterion := halike₁.criterion_eq hran.orderly hran'.orderly hc hc'
    rw [answer_succ, show outcome _ _ = _ from hw] at h
    have hstart : SideBySide e₁ e₁' { s with engine := e₁ } { s' with engine := e₁' } :=
      ⟨.refl hran.orderly, .refl hran'.orderly, hs.notes⟩
    obtain ⟨s₁', hyields, hs₁⟩ := exists_yields_of_alike hran.orderly halike₁
      (fun name x s s' hs halike => ih name x s s' hran.orderly hran'.orderly hs halike) hc hstart h
    refine ⟨s₁', ?_, (hs.left.trans hran).trans hs₁.left, (hs.right.trans hran').trans hs₁.right,
      hs₁.notes⟩
    rw [hcriterion] at hyields
    rw [answer_succ, show outcome _ _ = _ from hw']
    exact hyields

/-- **Values are validated alike** in engines that are alike at the root. -/
theorem evaluate_of_alike (he : AsksOnly e) (he' : AsksOnly e') (halike : Alike e e' root)
    {c : Criterion.On Value} (hc : e.compiled.lookup root = some c)
    (hc' : e'.compiled.lookup root = some c) (limit : Nat) (v : Value) :
    (e.evaluate limit c v).map (fun r => (r.1, r.2.notes)) =
      (e'.evaluate limit c v).map fun r => (r.1, r.2.notes) := by
  -- one direction, for the two engines in either order
  have hone : ∀ {e e' : Engine}, AsksOnly e → AsksOnly e' → Alike e e' root →
      e.compiled.lookup root = some c → ∀ r s, e.evaluate limit c v = some (r, s) →
        ∃ s', e'.evaluate limit c v = some (r, s') ∧ s.notes = s'.notes := by
    intro e e' he he' halike hc r s h
    have hstart : SideBySide e e' ⟨e, []⟩ ⟨e', []⟩ := ⟨.refl he, .refl he', rfl⟩
    obtain ⟨s', hyields, hs⟩ := exists_yields_of_alike he halike
      (fun name x s s' hs halike => answer_of_alike limit name x s s' he he' hs halike) hc hstart h
    exact ⟨s', hyields, congrArg List.reverse hs.notes⟩
  cases h : e.evaluate limit c v with
  | some result =>
    obtain ⟨s', h', hnotes⟩ := hone he he' halike hc result.1 result.2 h
    rw [h', Option.map_some, Option.map_some, hnotes]
  | none =>
    cases h' : e'.evaluate limit c v with
    | none => rfl
    | some result =>
      obtain ⟨s, hback, -⟩ := hone he' he (halike.symm he) hc' result.1 result.2 h'
      rw [h] at hback
      cases hback

theorem foldlM_withClass_eagerTwin {classes : List ClassSchema} {e e' : Engine}
    (h : classes.foldlM withClass e = .ok e') :
    classes.foldlM withClass (e.eagerTwin []) = .ok (e'.eagerTwin []) := by
  induction classes generalizing e with
  | nil =>
    cases h
    rfl
  | cons schema classes ih =>
    obtain ⟨e₁, hone, hrest⟩ := foldlM_cons_eq_ok.1 h
    refine foldlM_cons_eq_ok.2 ⟨e₁.eagerTwin [], ?_, ih hrest⟩
    unfold withClass at hone
    split_ifs at hone with hregistered
    cases hone
    exact if_neg hregistered

/-- Two new engines that differ in how they treat cascades. -/
theorem build_eager_eq_twin {config : Config} {catalog : Catalog} {kinds : List Kind}
    {extractors : List Extractor} {classes : List ClassSchema} {eager lazy : Engine}
    (heager : build { config with eagerCascade := true } catalog kinds extractors classes = .ok eager)
    (hlazy : build { config with eagerCascade := false } catalog kinds extractors classes = .ok lazy) :
    eager = lazy.eagerTwin [] := by
  obtain ⟨catalog₁, hcatalog₁, heager⟩ := bind_eq_ok.1 heager
  obtain ⟨catalog₂, hcatalog₂, hlazy⟩ := bind_eq_ok.1 hlazy
  obtain rfl : catalog₁ = catalog₂ := Except.ok.inj (hcatalog₁.symm.trans hcatalog₂)
  exact Except.ok.inj (heager.symm.trans (foldlM_withClass_eagerTwin hlazy))

/-- Nothing has been searched in a new engine. -/
theorem searching_build {config : Config} {catalog : Catalog} {kinds : List Kind}
    {extractors : List Extractor} {classes : List ClassSchema} {lazy : Engine}
    (h : build { config with eagerCascade := false } catalog kinds extractors classes = .ok lazy) :
    Searching lazy [] [] := by
  have horderly := orderlyAny_build h
  obtain ⟨catalog', classes', -, rfl⟩ := build_eq_ok h
  exact ⟨horderly, rfl, rfl, nofun, nofun, .nil, nofun⟩

end Engine

/-- **Eager and lazy cascades agree.** Let two engines be new and differ only in how they treat
cascades, and let each be asked for the validator of the same root. Then both give one or none does.
If both do and no kind makes checks that ask for classes themselves, the validators come to the same
verdict with the same notes on every value, within the same limit for chains of cascades or not at
all, whatever values each of them has validated before. -/
theorem eager_and_lazy_agree {config : Config} {catalog : Catalog} {kinds : List Kind}
    {extractors : List Extractor} {classes : List ClassSchema} {eager lazy : Engine}
    (heager : Engine.build { config with eagerCascade := true } catalog kinds extractors classes =
      .ok eager)
    (hlazy : Engine.build { config with eagerCascade := false } catalog kinds extractors classes =
      .ok lazy)
    (root : Root) :
    ((∃ w e, Gives (Engine.validator root) eager w e) ↔
        ∃ w e, Gives (Engine.validator root) lazy w e) ∧
      ∀ w e w' e', Gives (Engine.validator root) eager w e → Gives (Engine.validator root) lazy w' e' →
        (∀ kind ∈ eager.catalog.kinds, kind.Every Kind.AsksNoClass) →
          ∀ limit before e₁ limit' before' e₁', e.afterAll limit w.criterion before = some e₁ →
            e'.afterAll limit' w'.criterion before' = some e₁' → ∀ limit v,
              (e₁.evaluate limit w.criterion v).map (fun r => (r.1, r.2.notes)) =
                (e₁'.evaluate limit w'.criterion v).map fun r => (r.1, r.2.notes) := by
  have htwin := Engine.build_eager_eq_twin heager hlazy
  have hmatches := Engine.matches_validator (Engine.searching_build hlazy) root
  rw [← htwin] at hmatches
  refine ⟨hmatches.iff, ?_⟩
  intro w e w' e' hw hw' hkinds n before e₁ n' before' e₁' hbefore hbefore' limit v
  obtain ⟨rfl, htrees⟩ := hmatches.of_gives hw hw'
  have hkinds' : ∀ kind ∈ lazy.catalog.kinds, kind.Every Kind.AsksNoClass := by
    rw [htwin] at hkinds
    exact hkinds
  obtain ⟨he, hclosed⟩ := Engine.orderly_build (P := Constraint.AsksNoClass) heager hkinds
  obtain ⟨he', hclosed'⟩ := Engine.orderly_build (P := Constraint.AsksNoClass) hlazy hkinds'
  obtain ⟨hran, -, hc, -⟩ := (Engine.leads_validator Engine.asks_assemble he root).of_gives hw
  obtain ⟨hran', -, hc', -⟩ := (Engine.leads_validator Engine.asks_assemble he' root).of_gives hw'
  -- the same trees are made on the way to both validators
  have halike : Engine.Alike e e' root :=
    ⟨Engine.clear_of_gives Engine.asks_assemble he hclosed hw,
      Engine.clear_of_gives Engine.asks_assemble he' hclosed' hw',
      fun _ ht => htrees ▸ ht, fun _ _ _ ht => htrees ▸ ht⟩
  have hlater := Engine.Ran.afterAll Engine.asks_assemble hran.orderly hbefore
  have hlater' := Engine.Ran.afterAll Engine.asks_assemble hran'.orderly hbefore'
  exact Engine.evaluate_of_alike hlater.orderly hlater'.orderly
    (halike.grows hran.orderly hran'.orderly hlater.grows hlater'.grows)
    (hlater.grows.compiled _ _ hc) (hlater'.grows.compiled _ _ hc') limit v

/-- Chains of links are validated alike by an engine that compiles the class with itself and by one
that finds it in progress. -/
theorem chain_is_validated_alike : ∃ w e w' e',
    Gives (Engine.validator (.ofClass "Link")) Chain.engine w e ∧
      Gives (Engine.validator (.ofClass "Link"))
        { Chain.engine with config := { eagerCascade := false } } w' e' ∧
      ∀ limit v, (e.evaluate limit w.criterion v).map (fun r => (r.1, r.2.notes)) =
        (e'.evaluate limit w'.criterion v).map fun r => (r.1, r.2.notes) := by
  have heager : Engine.build { ({} : Config) with eagerCascade := true } .builtin [] []
      [Chain.schema] = .ok Chain.engine := rfl
  have hlazy : Engine.build { ({} : Config) with eagerCascade := false } .builtin [] []
      [Chain.schema] = .ok { Chain.engine with config := { eagerCascade := false } } := rfl
  have hsucceeds : (outcome (Engine.validator (.ofClass "Link")) Chain.engine).1.toOption.isSome =
      true := by cbv
  have hkinds : ∀ kind ∈ Chain.engine.catalog.kinds, kind.Every Kind.AsksNoClass :=
    fun kind hkind => (Catalog.standard_builtin kind hkind).mono fun k hk =>
      (Catalog.probes_builtin k hk).asksNoClass
  obtain ⟨hiff, hagree⟩ := eager_and_lazy_agree heager hlazy (.ofClass "Link")
  rcases houtcome : outcome (Engine.validator (.ofClass "Link")) Chain.engine with ⟨error | w, e⟩
  · rw [houtcome] at hsucceeds
    cases hsucceeds
  · obtain ⟨w', e', hw'⟩ := hiff.1 ⟨w, e, houtcome⟩
    exact ⟨w, e, w', e', houtcome, hw',
      hagree w e w' e' houtcome hw' hkinds 0 [] e 0 [] e' rfl rfl⟩

end Validation
