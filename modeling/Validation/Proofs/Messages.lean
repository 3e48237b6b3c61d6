import Validation.Proofs.Checks
import Validation.Proofs.Failure

/-!
# The messages along a chain of constraints

A failure of a check comes out through all constraints that expand into it, the innermost first. Each
that has a message replaces the template and sets its own attributes as parameters, so in the end the
outermost message stands, and each parameter has the value of the outermost constraint that gives it
one. Code, value and path stay as the check made them.

* `Constraint.chains`: the ways from a constraint to the checks that it runs, in the order of the run.
* `mem_chains`: they lead from part to part, to every constraint with a check of its own.
* `Reported`: what is reported of a failure at the end of a chain.
* `reported_step`: what one constraint does to it.
* `messages_decorate_from_inside`: what is reported is what the outermost constraints say.
-/

namespace Validation

namespace Constraint

/-- The value that a constraint gives to a parameter: that of its attribute of the name, unless the
name is reserved. -/
def param? (c : Constraint) (name : String) : Option String :=
  if isReserved name then none else (c.attributes.get? name).map Attribute.render

theorem nodup_params (c : Constraint) : (c.params.map (·.1)).Nodup := by
  have hnames : (c.attributes.entries.map (·.1)).Nodup := by
    rw [List.Nodup, List.pairwise_map]
    refine c.attributes.sorted.imp fun {a b} hlt heq => ?_
    rw [heq] at hlt
    exact String.lt_irrefl _ hlt
  have hkeys : c.params.map (·.1) =
      (c.attributes.entries.filter fun e => !isReserved e.1).map (·.1) := by
    rw [params, List.map_map]
    rfl
  rw [hkeys]
  exact hnames.sublist (List.filter_sublist.map _)

theorem lookup_params (c : Constraint) (name : String) : c.params.lookup name = c.param? name := by
  unfold params param? Attributes.get?
  induction c.attributes.entries with
  | nil => cases isReserved name <;> rfl
  | cons e rest ih =>
    obtain ⟨n, value⟩ := e
    rw [List.lookup_cons]
    by_cases heq : name = n
    · -- the attribute itself, which is left out if its name is reserved
      subst heq
      cases hreserved : isReserved name with
      | true => simpa [hreserved] using ih
      | false => simp [hreserved]
    · rw [beq_eq_false_iff_ne.2 heq, ← ih]
      cases hreserved : isReserved n with
      | true => simp [hreserved]
      | false => simp [hreserved, List.lookup_cons, beq_eq_false_iff_ne.2 heq]

/-! ### Chains -/

/-- A constraint, one of its parts, one of the parts of that, and so on. -/
abbrev Chain := List Constraint

mutual

/-- **The chains of a constraint** to the constraints whose checks it runs, in the order of the run. -/
def chains : Constraint → List Chain
  | ⟨kind, attributes, order, message, parts⟩ =>
    let c : Constraint := ⟨kind, attributes, order, message, parts⟩
    let sorted := Order.sort (·.1) (partChains parts)
    let row := (sorted.filter (·.1.le order)).flatMap (·.2) ++
      (if kind.isCombinator then [] else [[]]) ++ (sorted.filter (!·.1.le order)).flatMap (·.2)
    row.map (c :: ·)

/-- The chains of each part, with its place. -/
def partChains : List Constraint → List (Order × List Chain)
  | [] => []
  | c :: rest => (c.order, c.chains) :: partChains rest

end

theorem partChains_eq (parts : List Constraint) :
    partChains parts = parts.map fun c => (c.order, c.chains) := by
  induction parts with
  | nil => rw [partChains, List.map_nil]
  | cons c rest ih => rw [partChains, ih, List.map_cons]

theorem chains_eq (c : Constraint) :
    c.chains = (c.partsBefore.flatMap chains ++ (if c.kind.isCombinator then [] else [[]]) ++
      c.partsAfter.flatMap chains).map (c :: ·) := by
  obtain ⟨kind, attributes, order, message, parts⟩ := c
  rw [chains, partChains_eq, Order.sort_map]
  simp only [List.filter_map, List.flatMap_map, partsBefore, partsAfter, Function.comp_def]

/-- The chains of a constraint are the one of its own check and those through its parts. -/
theorem mem_chains_iff {c : Constraint} {chain : Chain} :
    chain ∈ c.chains ↔ (chain = [c] ∧ c.kind.isCombinator = false) ∨
      ∃ part ∈ c.parts, ∃ rest ∈ part.chains, chain = c :: rest := by
  have hparts : ∀ rest : Chain, (∃ part ∈ c.parts, rest ∈ part.chains) ↔
      (∃ part ∈ c.partsBefore, rest ∈ part.chains) ∨ ∃ part ∈ c.partsAfter, rest ∈ part.chains := by
    intro rest
    simp only [mem_parts_iff, or_and_right, exists_or]
  have hown : ∀ rest : Chain, rest ∈ (if c.kind.isCombinator then [] else [[]]) ↔
      rest = [] ∧ c.kind.isCombinator = false := by
    intro rest
    cases c.kind.isCombinator <;> simp
  rw [chains_eq]
  simp only [List.mem_map, List.mem_append, List.mem_flatMap, hown]
  constructor
  · rintro ⟨rest, (hbefore | ⟨rfl, hcombinator⟩) | hafter, rfl⟩
    · obtain ⟨part, hpart, hrest⟩ := (hparts rest).2 (.inl hbefore)
      exact .inr ⟨part, hpart, rest, hrest, rfl⟩
    · exact .inl ⟨rfl, hcombinator⟩
    · obtain ⟨part, hpart, hrest⟩ := (hparts rest).2 (.inr hafter)
      exact .inr ⟨part, hpart, rest, hrest, rfl⟩
  · rintro (⟨rfl, hcombinator⟩ | ⟨part, hpart, rest, hrest, rfl⟩)
    · exact ⟨[], .inl (.inr ⟨rfl, hcombinator⟩), rfl⟩
    · refine ⟨rest, ?_, rfl⟩
      rcases (hparts rest).1 ⟨part, hpart, hrest⟩ with hbefore | hafter
      · exact .inl (.inl hbefore)
      · exact .inr hafter

/-- **Where chains lead**: from part to part, to a constraint with a check of its own. -/
theorem mem_chains {c : Constraint} {chain : Chain} :
    chain ∈ c.chains ↔ chain.head? = some c ∧ chain.IsChain (fun a b => b ∈ a.parts) ∧
      ∃ d, chain.getLast? = some d ∧ d.kind.isCombinator = false := by
  induction chain generalizing c with
  | nil =>
    refine iff_of_false (fun h => ?_) fun h => nomatch h.1
    rcases mem_chains_iff.1 h with ⟨heq, -⟩ | ⟨part, -, rest, -, heq⟩ <;> cases heq
  | cons d rest ih =>
    rw [mem_chains_iff]
    constructor
    · rintro (⟨heq, hcombinator⟩ | ⟨part, hpart, rest', hrest, heq⟩)
      · obtain ⟨rfl, rfl⟩ := List.cons.inj heq
        exact ⟨rfl, .singleton _, d, rfl, hcombinator⟩
      · obtain ⟨rfl, rfl⟩ := List.cons.inj heq
        obtain ⟨hhead, hchain, e, hlast, hcombinator⟩ := ih.1 hrest
        refine ⟨rfl, List.isChain_cons.2 ⟨fun b hb => ?_, hchain⟩, e, ?_, hcombinator⟩
        · rw [hhead] at hb
          exact Option.some.inj hb ▸ hpart
        · rw [List.getLast?_cons, hlast]
          rfl
    · rintro ⟨hhead, hchain, e, hlast, hcombinator⟩
      obtain rfl : d = c := Option.some.inj hhead
      cases rest with
      | nil =>
        obtain rfl : d = e := Option.some.inj hlast
        exact .inl ⟨rfl, hcombinator⟩
      | cons part rest =>
        obtain ⟨hpart, hchain⟩ := List.isChain_cons_cons.1 hchain
        refine .inr ⟨part, hpart, _, ih.2 ⟨rfl, hchain, e, ?_, hcombinator⟩, rfl⟩
        rw [← hlast, List.getLast?_cons_cons]

/-! ### What is reported -/

/-- What a constraint says of a parameter: the value it gives, as long as it has a message. -/
def says? (c : Constraint) (name : String) : Option String :=
  if c.message.isSome then c.param? name else none

/-- **What is reported of a failure** at the end of a chain: code, value and path of the failure, the
message of the outermost constraint that has one, and as the value of each parameter what the outermost
constraint says that says something. -/
structure Reported (chain : Chain) (f₀ f : Failure) : Prop where
  code : f.code = f₀.code
  value : f.value = f₀.value
  path : f.path = f₀.path
  template : f.template = (chain.findSome? (·.message)).getD f₀.template
  param : ∀ name, f.param? name = (chain.findSome? (·.says? name)).or (f₀.param? name)
  distinct : (f₀.params.map (·.1)).Nodup → (f.params.map (·.1)).Nodup

/-- A failure on its way out along a chain, through the last constraint first. -/
def decorateAlong (chain : Chain) : Enhancer := fun f₀ => chain.foldr (·.enhancer) f₀

/-- **One constraint more**: its message and its parameters come before those from inside. -/
theorem reported_step {chain : Chain} {f₀ f : Failure} (h : Reported chain f₀ f) (c : Constraint) :
    Reported (c :: chain) f₀ (c.enhancer f) := by
  have hrule : ∀ name, c.says? name = if c.message.isSome then c.param? name else none :=
    fun _ => rfl
  unfold enhancer
  cases hmessage : c.message with
  | none =>
    -- a constraint without a message sets no parameters either
    have hnothing : ∀ name, c.says? name = none := by
      intro name
      rw [hrule, hmessage]
      rfl
    refine ⟨h.code, h.value, h.path, ?_, fun name => ?_, h.distinct⟩
    · rw [List.findSome?_cons, hmessage]
      exact h.template
    · rw [List.findSome?_cons, hnothing]
      exact h.param name
  | some text =>
    have hset : decorate text c.params f = (f.withTemplate text).setParams c.params := rfl
    have hparts := (f.withTemplate text).setParams_eq c.params
    refine ⟨?_, ?_, ?_, ?_, fun name => ?_, fun hf₀ => ?_⟩
    · simp only [hset, hparts]
      exact h.code
    · simp only [hset, hparts]
      exact h.value
    · simp only [hset, hparts]
      exact h.path
    · simp only [hset, hparts, List.findSome?_cons, hmessage]
      rfl
    · have hinner : (f.withTemplate text).param? name = f.param? name := rfl
      have hsaid : c.says? name = c.param? name := by
        rw [hrule, hmessage]
        rfl
      simp only [hset]
      rw [Failure.param?_setParams (nodup_params c), lookup_params, hinner, h.param,
        List.findSome?_cons, hsaid]
      cases c.param? name <;> rfl
    · have hbefore : ((f.withTemplate text).params.map (·.1)).Nodup := h.distinct hf₀
      exact Failure.nodup_setParams hbefore c.params

/-- **What is reported is what the outermost constraints say.** -/
theorem reported_decorateAlong (chain : Chain) (f₀ : Failure) :
    Reported chain f₀ (decorateAlong chain f₀) := by
  induction chain with
  | nil => exact ⟨rfl, rfl, rfl, rfl, fun _ => rfl, id⟩
  | cons c chain ih => exact reported_step ih c

/-! ### The run along the chains -/

/-- The run of the check at the end of a chain, on a value. -/
def runChain (p : Position) (v : Value) (chain : Chain) : Trial Verdict :=
  match chain.getLast? with
  | none => .pass
  | some d =>
    match d.ownCriterion p with
    | .ok own => (own.validate v).mapFailure (decorateAlong chain)
    | .error _ => .pass

/-- A chain leads to a check in the row, and its messages are the ones around the check. -/
def Chain.LeadsTo (chain : Chain) (l : OwnCheck) : Prop :=
  chain.getLast? = some l.check ∧ l.decorate = decorateAlong chain

theorem decorate_around (c : Constraint) (l : OwnCheck) :
    (c.around l).decorate = fun f₀ => c.enhancer (l.decorate f₀) := by
  unfold around enhancer
  cases c.message with
  | none => rfl
  | some text => exact Leaf.decorate_inside _ l

theorem Chain.LeadsTo.cons {chain : Chain} {l : OwnCheck} (h : chain.LeadsTo l) (c : Constraint) :
    Chain.LeadsTo (c :: chain) (c.around l) := by
  obtain ⟨hlast, hdecorate⟩ := h
  refine ⟨?_, ?_⟩
  · rw [List.getLast?_cons, hlast, check_around]
    rfl
  · rw [decorate_around, hdecorate]
    rfl

/-- **The chains lead to the row of checks**, one after another. -/
theorem chains_lead_to_checks (c : Constraint) :
    List.Forall₂ Chain.LeadsTo c.chains c.checks := by
  induction c using induction with
  | _ c ih =>
    have hparts : ∀ parts : List Constraint, (∀ part ∈ parts, part ∈ c.parts) →
        List.Forall₂ (fun chain l => Chain.LeadsTo (c :: chain) (c.around l))
          (parts.flatMap chains) (parts.flatMap (·.checks)) := by
      intro parts hsub
      induction parts with
      | nil => exact .nil
      | cons part parts ihparts =>
        have hpart := ih part (hsub part List.mem_cons_self)
        have hrest := ihparts fun d hd => hsub d (List.mem_cons_of_mem _ hd)
        exact List.rel_append (hpart.imp fun _ _ h => h.cons c) hrest
    have hown : List.Forall₂ (fun chain l => Chain.LeadsTo (c :: chain) (c.around l))
        (if c.kind.isCombinator then [] else [[]]) c.ownChecks := by
      unfold ownChecks
      cases c.kind.isCombinator with
      | true => exact .nil
      | false =>
        refine .cons ⟨?_, ?_⟩ .nil
        · rw [check_around]
          rfl
        · rw [decorate_around]
          rfl
    rw [chains_eq, checks_eq, List.forall₂_map_left_iff, List.forall₂_map_right_iff]
    refine List.rel_append (List.rel_append ?_ hown) ?_
    · exact hparts c.partsBefore fun part hpart => mem_parts_iff.2 (.inl hpart)
    · exact hparts c.partsAfter fun part hpart => mem_parts_iff.2 (.inr hpart)

/-- **The criterion of a constraint runs the checks at the ends of its chains**, on a value that its
shape converts. -/
theorem validate_eq_first_chains {c : Constraint} {p : Position} {s : ShapedCriterion}
    (hs : c.process p = .ok s) {v : Value} (hv : (p.type.shape.ofValue? v).isSome) :
    s.validate v = Trial.first (runChain p v) c.chains := by
  rw [validate_of_process hv hs]
  have hleads := chains_lead_to_checks c
  generalize c.chains = row, c.checks = row' at hleads
  induction hleads with
  | nil => rfl
  | @cons chain l row row' h _ ih =>
    have hrun : runCheck p v l = runChain p v chain := by
      obtain ⟨hlast, hdecorate⟩ := h
      cases hown : l.check.ownCriterion p <;> simp only [runCheck, runChain, hlast, hown, hdecorate]
    rw [Trial.first, Trial.first, ih, hrun]

/-- The own check at the end of a chain comes to a verdict on a value, before any message. -/
def OwnVerdict (p : Position) (answer : String → Value → Verdict) (v : Value) (chain : Chain)
    (verdict : Verdict) : Prop :=
  ∃ d own, chain.getLast? = some d ∧ d.ownCriterion p = .ok own ∧
    (own.validate v).verdict answer = verdict

/-- **The check that fails**: of a value that the shape of the type converts, the own check at the end
of a chain reports a failure, and those at the ends of all chains before it pass. -/
structure FailsAt (c : Constraint) (p : Position) (answer : String → Value → Verdict) (v : Value)
    (chain : Chain) (f₀ : Failure) : Prop where
  converts : (p.type.shape.ofValue? v).isSome = true
  first : ∃ before after, c.chains = before ++ chain :: after ∧
    ∀ earlier ∈ before, OwnVerdict p answer v earlier (.ok ())
  fails : OwnVerdict p answer v chain (.error f₀)

/-- Every chain of a constraint that becomes a criterion ends in a check. -/
theorem exists_own_of_mem_chains {c : Constraint} {p : Position} {s : ShapedCriterion}
    (hs : c.process p = .ok s) {chain : Chain} (hchain : chain ∈ c.chains) :
    ∃ d own, chain.getLast? = some d ∧ d.ownCriterion p = .ok own := by
  obtain ⟨l, hl, hlast, -⟩ := exists_mem_right_of_forall₂ (chains_lead_to_checks c) chain hchain
  obtain ⟨hmem, hcombinator⟩ := exists_mem_checks.1 ⟨l, hl, rfl⟩
  obtain ⟨own, hown⟩ := exists_process_iff.1 ⟨s, hs⟩ l.check hmem hcombinator
  exact ⟨l.check, own, hlast, hown⟩

section Verdict

variable {p : Position} {answer : String → Value → Verdict} {v : Value} {chain : Chain}
  {d : Constraint} {own : ShapedCriterion}

theorem verdict_runChain (hlast : chain.getLast? = some d) (hown : d.ownCriterion p = .ok own) :
    (runChain p v chain).verdict answer =
      ((own.validate v).verdict answer).mapError (decorateAlong chain) := by
  simp only [runChain, hlast, hown]
  exact Trial.verdict_mapFailure _ _

/-- The messages along a chain do not change whether the check at its end passes. -/
theorem ownVerdict_ok_iff (hlast : chain.getLast? = some d) (hown : d.ownCriterion p = .ok own) :
    OwnVerdict p answer v chain (.ok ()) ↔ (runChain p v chain).verdict answer = .ok () := by
  rw [verdict_runChain hlast hown]
  constructor
  · rintro ⟨d', own', hlast', hown', hpass⟩
    obtain rfl := Option.some.inj (hlast.symm.trans hlast')
    obtain rfl := Except.ok.inj (hown.symm.trans hown')
    rw [hpass]
    rfl
  · intro hpass
    refine ⟨d, own, hlast, hown, ?_⟩
    cases hverdict : (own.validate v).verdict answer with
    | ok => rfl
    | error f₀ =>
      rw [hverdict] at hpass
      cases hpass

end Verdict

/-- **Messages decorate from inside.** The chains of a constraint lead from it from part to part to the
constraints with checks of their own. If the constraint becomes a criterion, every value that fails, and
that the shape of the type converts, fails in the check at the end of one of the chains; and what is
reported is the failure of that check, with what the outermost constraints along the chain say. -/
theorem messages_decorate_from_inside {c : Constraint} {p : Position} {s : ShapedCriterion}
    (hs : c.process p = .ok s) :
    (∀ chain, chain ∈ c.chains ↔ chain.head? = some c ∧ chain.IsChain (fun a b => b ∈ a.parts) ∧
      ∃ d, chain.getLast? = some d ∧ d.kind.isCombinator = false) ∧
    ∀ answer v,
      (∀ f, (p.type.shape.ofValue? v).isSome = true → (s.validate v).verdict answer = .error f →
        ∃ chain f₀, c.FailsAt p answer v chain f₀) ∧
      ∀ chain f₀, c.FailsAt p answer v chain f₀ →
        ∃ f, (s.validate v).verdict answer = .error f ∧ Reported chain f₀ f := by
  refine ⟨fun chain => mem_chains, fun answer v => ⟨fun f hv hfails => ?_, fun chain f₀ h => ?_⟩⟩
  · rw [validate_eq_first_chains hs hv] at hfails
    obtain ⟨before, chain, after, hsplit, hbefore, hchain⟩ := Trial.verdict_first_error.1 hfails
    obtain ⟨d, own, hlast, hown⟩ := exists_own_of_mem_chains hs
      (hsplit ▸ List.mem_append_right before List.mem_cons_self : chain ∈ c.chains)
    -- the chains before the failing one pass
    have hearly : ∀ earlier ∈ before, OwnVerdict p answer v earlier (.ok ()) := by
      intro earlier hearlier
      obtain ⟨e, own', hlast', hown'⟩ := exists_own_of_mem_chains hs
        (hsplit ▸ List.mem_append_left _ hearlier : earlier ∈ c.chains)
      exact (ownVerdict_ok_iff hlast' hown').2 (hbefore earlier hearlier)
    rw [verdict_runChain hlast hown] at hchain
    cases hverdict : (own.validate v).verdict answer with
    | ok =>
      rw [hverdict] at hchain
      cases hchain
    | error f₀ =>
      exact ⟨chain, f₀, hv, ⟨before, after, hsplit, hearly⟩, d, own, hlast, hown, hverdict⟩
  · obtain ⟨before, after, hsplit, hbefore⟩ := h.first
    obtain ⟨d, own, hlast, hown, hf₀⟩ := h.fails
    refine ⟨decorateAlong chain f₀, ?_, reported_decorateAlong chain f₀⟩
    rw [validate_eq_first_chains hs h.converts]
    refine Trial.verdict_first_error.2 ⟨before, chain, after, hsplit, fun earlier hearlier => ?_, ?_⟩
    · have hpass := hbefore earlier hearlier
      obtain ⟨e, own', hlast', hown', -⟩ := hbefore earlier hearlier
      exact (ownVerdict_ok_iff hlast' hown').1 hpass
    · rw [verdict_runChain hlast hown, hf₀]
      rfl

/-! ### A limit under limits -/

namespace Limits

/-- A limit that expands into another, with a message of its own or none. -/
def limit (name : String) (value : Int) (message : Option String) (part : Constraint) : Constraint :=
  ⟨⟨name, none, none, [], [], []⟩, .ofList [("limit", .int value), ("order", .int 1)], some 1, message,
    [part]⟩

/-- The failure of the check inside the limits. -/
def failure : Failure := ⟨"inner", "too much", [("limit", "0"), ("actual", "9")], .bool true, []⟩

/-- A check of truth values that always fails, with a message and two parameters of its own. -/
def inner : Constraint :=
  ⟨⟨"inner", none, none, [],
      [⟨fun _ => true, fun _ _ => .ok ⟨.scalar .boolean, .leaf fun _ => .fail failure⟩⟩], []⟩,
    .ofList [("limit", .int 7), ("low", .int 5)], none, some "inner", []⟩

def middle : Constraint := limit "middle" 2 none inner

def outer : Constraint := limit "outer" 3 (some "outer") middle

def position : Position := ⟨.ofRoot "flag", .scalar .boolean⟩

/-- The message and the limit are those of the outermost limit, the lower bound is the check's own, and
the limit without a message says nothing. -/
theorem outermost_limit_is_reported :
    ∃ s f, outer.process position = .ok s ∧
      outer.FailsAt position (fun _ _ => .ok ()) (.bool true) [outer, middle, inner] failure ∧
      (s.validate (.bool true)).verdict (fun _ _ => .ok ()) = .error f ∧ f.code = "inner" ∧
      f.template = "outer" ∧ f.param? "limit" = some "3" ∧ f.param? "low" = some "5" ∧
      f.param? "actual" = some "9" ∧ f.param? "order" = none := by
  obtain ⟨s, hs⟩ : ∃ s, outer.process position = .ok s := exists_of_isOk (by cbv)
  have hfails : outer.FailsAt position (fun _ _ => .ok ()) (.bool true) [outer, middle, inner] failure :=
    { converts := rfl
      first := ⟨[], [], by cbv, fun _ hmem => absurd hmem List.not_mem_nil⟩
      fails := ⟨inner, _, rfl, rfl, rfl⟩ }
  obtain ⟨f, hf, hreported⟩ :=
    ((messages_decorate_from_inside hs).2 (fun _ _ => .ok ()) (.bool true)).2 _ _ hfails
  refine ⟨s, f, hs, hfails, hf, hreported.code, hreported.template, ?_, ?_, ?_, ?_⟩
  · rw [hreported.param]
    rfl
  · rw [hreported.param]
    rfl
  · rw [hreported.param]
    rfl
  · rw [hreported.param]
    rfl

end Limits

end Constraint

end Validation
