import Validation.Proofs.Domain.Spelling
import Validation.Proofs.Messages
import Validation.Proofs.Template
import Validation.Proofs.Verdict.Numbers

/-!
# Ranges of integers

A range makes no check of its own. It expands into a lower and an upper limit, which are handed its two
ends, and its message stands in place of theirs. So on integers it passes what lies between the ends,
however wide the value is that they are stored in, and says the same of both ends whichever limit fails.

* `ScalarKind.Holds`: the integers of a kind.
* `Constraint.chains_of_unordered`: parts without a place are run in the order of the definition.
* `validate_numericCriterion`: a test of numbers, on an integer.
* `expand_range`: what a range expands into, with its ends declared or left out.
* `message_between`: the message of a range.
* `ranges_are_exact_on_integers`: what the criterion of a range passes, and what it reports.
-/

namespace Validation

open Text Constraint

/-! ### Integers of a kind -/

/-- The integers that a kind of integers has room for. -/
def ScalarKind.Holds : ScalarKind → Int → Prop
  | byte, n => -2 ^ 7 ≤ n ∧ n < 2 ^ 7
  | short, n => -2 ^ 15 ≤ n ∧ n < 2 ^ 15
  | int, n => -2 ^ 31 ≤ n ∧ n < 2 ^ 31
  | long, n => -2 ^ 63 ≤ n ∧ n < 2 ^ 63
  | _, _ => False

instance : ∀ (k : ScalarKind) (n : Int), Decidable (k.Holds n)
  | .byte, _ | .short, _ | .int, _ | .long, _ => inferInstanceAs (Decidable (_ ∧ _))
  | .boolean, _ | .char, _ | .float, _ | .double, _ => inferInstanceAs (Decidable False)

/-- **A kind of integers converts the values of the integers that it holds**, whatever their width. -/
theorem ScalarKind.exists_ofValue?_iff {k : ScalarKind} (hk : k.isIntegral = true) {v : Value} {n : Int}
    (hv : v.integral? = some n) : (∃ x, k.ofValue? v = some x) ↔ k.Holds n := by
  have hwithin : ∀ {α : Type} {ofInt : Int → α} {low high : Int},
      (∃ x, (v.integralWithin? low high).map ofInt = some x) ↔ low ≤ n ∧ n ≤ high := by
    intro α ofInt low high
    simp [Option.map_eq_some_iff, Value.integralWithin?_eq_some, hv]
  -- only the greatest kind converts without a look at its ends: every integer is between them
  cases k with
  | byte =>
    refine hwithin.trans ?_
    unfold Holds
    omega
  | short =>
    refine hwithin.trans ?_
    unfold Holds
    omega
  | int =>
    refine hwithin.trans ?_
    unfold Holds
    omega
  | long => exact iff_of_true ⟨_, Option.map_eq_some_iff.2 ⟨n, hv, rfl⟩⟩ (Value.integral?_bounds hv)
  | _ => cases hk

theorem ScalarKind.isNumeric_of_isIntegral {k : ScalarKind} (hk : k.isIntegral = true) :
    k.isNumeric = true := by
  cases k <;> first | rfl | cases hk

/-! ### Parts without a place -/

namespace Constraint

variable {c : Constraint}

/-- A constraint without parts runs its own check only. -/
theorem chains_of_no_parts (hown : c.kind.isCombinator = false) (hparts : c.parts = []) :
    c.chains = [[c]] := by
  simp [chains_eq, partsBefore, partsAfter, Order.sort, hown, hparts]

/-- **Parts without a place are run in the order of the definition.** -/
theorem chains_of_unordered (hown : c.kind.isCombinator = true)
    (hparts : ∀ part ∈ c.parts, part.order = none) :
    c.chains = (c.parts.flatMap chains).map (c :: ·) := by
  have hle : ∀ part ∈ c.parts, ∀ o : Order, part.order.le o = true := by
    intro part hpart o
    rw [hparts part hpart]
    rfl
  have hsort : Order.sort (·.order) c.parts = c.parts :=
    List.mergeSort_of_pairwise (List.pairwise_iff_forall_sublist.2 fun {a b} hsub =>
      hle a (hsub.subset List.mem_cons_self) b.order)
  have hbefore : c.partsBefore = c.parts := by
    rw [partsBefore, hsort, List.filter_eq_self]
    exact fun part hpart => hle part hpart c.order
  have hafter : c.partsAfter = [] := by
    rw [partsAfter, hsort, List.filter_eq_nil_iff]
    intro part hpart
    rw [hle part hpart]
    decide
  rw [chains_eq, hbefore, hafter, hown]
  simp

end Constraint

namespace Builtin

/-! ### Tests of numbers on integers -/

section Test

variable {k : ScalarKind} {type : DeclaredType} {test : Number → Bool} {report : Report} {v : Value}
  {n : Int} {own : ShapedCriterion}

/-- The type is that of the scalars of a kind, or of the scalars and null. -/
def IsOf (k : ScalarKind) (type : DeclaredType) : Prop := type = .scalar k ∨ type = .boxed k

/-- A test of numbers is made at both types. -/
theorem exists_numericCriterion (hk : k.isNumeric = true) (htype : IsOf k type) :
    ∃ own, numericCriterion type test report = .ok own ∧ own.shape = type.shape := by
  rcases htype with rfl | rfl
  · exact ⟨_, numericCriterion_scalar hk, rfl⟩
  · exact ⟨_, numericCriterion_boxed hk, rfl⟩

theorem checkNumber_of_integral (hv : v.integral? = some n) :
    checkNumber k test report v = if test (.int n) then .pass else .fail (report.failure v) := by
  have hnull : v.isNull = false := by
    cases v with
    | null => cases hv
    | _ => rfl
  unfold checkNumber
  rw [hnull, Value.number_of_integral hv]
  rfl

/-- **A test of numbers on an integer** is the test of this integer at both types. What is reported is the
value, at scalars as the kind converts it. -/
theorem validate_numericCriterion (hk : k.isIntegral = true) (htype : IsOf k type)
    (hown : numericCriterion type test report = .ok own) (hv : v.integral? = some n) (hn : k.Holds n) :
    ∃ w, own.validate v = if test (.int n) then .pass else .fail (report.failure w) := by
  have hnumeric : k.isNumeric = true := ScalarKind.isNumeric_of_isIntegral hk
  rcases htype with rfl | rfl
  · obtain ⟨x, hx⟩ := (ScalarKind.exists_ofValue?_iff hk hv).2 hn
    obtain ⟨m, hm, hxm⟩ := ScalarKind.integral?_of_ofValue? hk hx
    obtain rfl : n = m := Option.some.inj (hv.symm.trans hm)
    rw [numericCriterion_scalar hnumeric, Except.ok.injEq] at hown
    subst hown
    refine ⟨k.toValue x, ?_⟩
    rw [← checkNumber_of_integral (k := k) hxm]
    simp only [ShapedCriterion.validate, Shape.ofValue?, hx]
    rfl
  · rw [numericCriterion_boxed hnumeric, Except.ok.injEq] at hown
    subst hown
    exact ⟨v, checkNumber_of_integral hv⟩

/-- Null passes where it may stand. -/
theorem validate_numericCriterion_null (hk : k.isNumeric = true)
    (hown : numericCriterion (.boxed k) test report = .ok own) : own.validate .null = .pass := by
  rw [numericCriterion_boxed hk, Except.ok.injEq] at hown
  subst hown
  rfl

end Test

/-! ### Limits and ranges -/

/-- The constraint of a lower or an upper limit, by its kind. -/
def limit (kind : Kind) (n : Int64) : Constraint :=
  .assemble kind (.ofList [("value", .int n.toInt)]) []

/-- The report of a limit. -/
def limitReport (kind : Kind) (message : String) (n : Int64) : Report :=
  ⟨kind.name, message, [("value", (Number.int n.toInt).render)]⟩

/-- The constraint of a range. -/
def between (low high : Int64) : Constraint :=
  .assemble range (.ofList [("min", .int low.toInt), ("max", .int high.toInt)])
    [limit Builtin.min low, limit Builtin.max high]

/-- The attributes of a range as they are declared. Either end may be left out. -/
def rangeEnds (low high : Option Int64) : Attributes :=
  .ofList ((low.map fun n => ("min", .int n.toInt)).toList ++
    (high.map fun n => ("max", .int n.toInt)).toList)

/-- **What a range expands into.** An end that is left out is the least or the greatest integer. -/
theorem expand_range (low high : Option Int64) : range.expand (rangeEnds low high) =
    .ok (between (low.getD Int64.minValue) (high.getD Int64.maxValue)) := by
  have hresolve : range.resolve (rangeEnds low high) = .ok (.ofList
      [("min", .int (low.getD Int64.minValue).toInt),
        ("max", .int (high.getD Int64.maxValue).toInt)]) := by
    cases low <;> cases high <;> rfl
  rw [Kind.expand_eq, hresolve]
  rfl

/-- A range runs the check of its lower limit, then that of its upper one. -/
theorem chains_between (low high : Int64) : (between low high).chains =
    [[between low high, limit Builtin.min low], [between low high, limit Builtin.max high]] := by
  have hparts : ∀ part ∈ (between low high).parts, part.order = none := by
    intro part hpart
    rcases List.mem_pair.1 hpart with rfl | rfl <;> rfl
  have hmin : (limit Builtin.min low).chains = [[limit Builtin.min low]] := chains_of_no_parts rfl rfl
  have hmax : (limit Builtin.max high).chains = [[limit Builtin.max high]] := chains_of_no_parts rfl rfl
  rw [chains_of_unordered rfl hparts]
  change ((limit Builtin.min low).chains ++ ((limit Builtin.max high).chains ++ [])).map _ = _
  rw [hmin, hmax]
  rfl

section Limit

variable {kind : Kind} {message : String} {accepts : Ordering → Bool} {low high m : Int64}
  {p : Position} {k : ScalarKind}

/-- The own check of a limit is a test of numbers: how they compare with the limit. -/
theorem ownCriterion_limit (hkind : kind.factories = [bound message accepts]) (hk : k.isNumeric = true)
    (htype : IsOf k p.type) : (limit kind m).ownCriterion p = numericCriterion p.type
      (fun x => (x.compare? (.int m.toInt)).any accepts) (limitReport kind message m) := by
  have hnumeric : p.type.isNumeric = true := by
    rcases htype with htype | htype <;> rw [htype] <;> exact hk
  have hfactory : (limit kind m).kind.factory? p.type = some (bound message accepts) := by
    change kind.factories.find? _ = _
    rw [hkind]
    exact List.find?_cons_of_pos hnumeric
  have hmade : ∃ own, numericCriterion p.type (fun x => (x.compare? (.int m.toInt)).any accepts)
      (limitReport kind message m) = .ok own ∧ own.shape = p.type.shape :=
    exists_numericCriterion hk htype
  obtain ⟨own, hown, hshape⟩ := hmade
  rw [hown]
  exact ownCriterion_eq_ok.2 ⟨_, hfactory, hown, hshape⟩

/-- A limit becomes a check of its own at both types. -/
theorem exists_ownCriterion_limit (hkind : kind.factories = [bound message accepts])
    (hk : k.isNumeric = true) (htype : IsOf k p.type) (m : Int64) :
    ∃ own, (limit kind m).ownCriterion p = .ok own := by
  rw [ownCriterion_limit hkind hk htype]
  exact (exists_numericCriterion hk htype).imp fun _ h => h.1

theorem exists_process_between (hk : k.isNumeric = true) (htype : IsOf k p.type) (low high : Int64) :
    ∃ s, (between low high).process p = .ok s := by
  have hexpansion : (between low high).expansion =
      [between low high, limit Builtin.min low, limit Builtin.max high] := rfl
  have hmin : ∃ own, (limit Builtin.min low).ownCriterion p = .ok own :=
    exists_ownCriterion_limit rfl hk htype low
  have hmax : ∃ own, (limit Builtin.max high).ownCriterion p = .ok own :=
    exists_ownCriterion_limit rfl hk htype high
  rw [exists_process_iff, hexpansion]
  simp only [List.forall_mem_cons]
  exact ⟨fun h => absurd h.symm Bool.false_ne_true, fun _ => hmin, fun _ => hmax, List.forall_mem_nil _⟩

/-- A range runs its lower limit and, if this passes, its upper one. -/
theorem validate_between {s : ShapedCriterion} (hs : (between low high).process p = .ok s) {v : Value}
    (hv : (p.type.shape.ofValue? v).isSome = true) :
    s.validate v = (runChain p v [between low high, limit Builtin.min low]).andThen fun _ =>
      runChain p v [between low high, limit Builtin.max high] := by
  rw [validate_eq_first_chains hs hv, chains_between, Trial.first, Trial.first, Trial.first,
    Trial.andThen_pass]

theorem runChain_limit {own : ShapedCriterion} (hown : (limit kind m).ownCriterion p = .ok own)
    (v : Value) : runChain p v [between low high, limit kind m] =
      (own.validate v).mapFailure (decorateAlong [between low high, limit kind m]) := by
  simp only [runChain, List.getLast?_cons_cons, List.getLast?_singleton, hown]

end Limit

/-! ### The message -/

/-- An integer has no braces. -/
theorem brace_not_mem_toString (n : Int) :
    '{' ∉ (toString n).toList ∧ '}' ∉ (toString n).toList := by
  have hnumeral := (Domain.spells_toString n).isNumeral
  exact ⟨fun h => absurd (hnumeral '{' h) (by decide), fun h => absurd (hnumeral '}' h) (by decide)⟩

/-- **The message of a range** names its ends, whatever the value of the limit that failed. -/
theorem message_between {f : Failure} {low high : Int} (value : Int)
    (htemplate : f.template = "must be between \x7bmin\x7d and \x7bmax\x7d")
    (hparams : f.params =
      [("value", toString value), ("max", toString high), ("min", toString low)]) :
    f.message = "must be between " ++ toString low ++ " and " ++ toString high := by
  have hsplit : f.template.toList = "must be between ".toList ++
      (placeholder "min".toList ++ (" and ".toList ++ (placeholder "max".toList ++ []))) := by
    rw [htemplate]
    decide
  have hclosed : IsClosed (fun _ => True) f.template.toList := by
    rw [hsplit]
    exact (isClosed_of_notMem (by decide) (by decide)).append (.placeholder (by decide) trivial
      ((isClosed_of_notMem (by decide) (by decide)).append (.placeholder (by decide) trivial .nil)))
  have hnamed : Named f.fillings := by
    rw [Failure.fillings, hparams]
    exact ⟨by simp, by simp [Braceless]⟩
  have hvalues : ∀ q ∈ f.params, '{' ∉ q.2.toList ∧ '}' ∉ q.2.toList := by
    rw [hparams]
    simp only [List.forall_mem_cons]
    exact ⟨brace_not_mem_toString _, brace_not_mem_toString _, brace_not_mem_toString _,
      List.forall_mem_nil _⟩
  have hmin : ("min".toList, (toString low).toList) ∈ f.fillings := by
    simp [Failure.fillings, hparams]
  have hmax : ("max".toList, (toString high).toList) ∈ f.fillings := by
    simp [Failure.fillings, hparams]
  -- integers bring about no placeholder, so the three parameters are filled in as if at once
  have honce : f.message = f.messageAtOnce := by
    refine Failure.message_eq_messageAtOnce_iff.2 (fill_eq_fillOnce hnamed ?_)
    refine undisturbed_of_isClosed hnamed hclosed fun p hp => ?_
    obtain ⟨q, hq, rfl⟩ := List.mem_map.1 hp
    exact isClosed_of_notMem (hvalues q hq).1 (hvalues q hq).2
  rw [honce, Failure.messageAtOnce, hsplit, fillOnce_append_of_notMem (by decide),
    fillOnce_placeholder hnamed hmin, fillOnce_append_of_notMem (by decide),
    fillOnce_placeholder hnamed hmax, fillOnce_nil, ← String.toList_inj]
  simp

/-! ### Ranges on integers -/

section Exact

variable {kind : Kind} {message : String} {accepts : Ordering → Bool} {low high m : Int64}
  {p : Position} {k : ScalarKind} {v : Value} {n : Int}

/-- What a range says of a value that one of its limits refuses. -/
structure SaysBetween (low high : Int) (code : String) (f : Failure) : Prop where
  code : f.code = code
  message : f.message = "must be between " ++ toString low ++ " and " ++ toString high

variable (kind) in
/-- **A limit in a range**, on an integer: it makes its comparison, and the range speaks for it. -/
theorem runChain_limit_on_integer (hkind : kind.factories = [bound message accepts])
    (hmessage : kind.message = some message) (hk : k.isIntegral = true) (htype : IsOf k p.type)
    (hv : v.integral? = some n) (hn : k.Holds n) (low high m : Int64) :
    ∃ f, SaysBetween low.toInt high.toInt kind.name f ∧
      runChain p v [between low high, limit kind m] =
        if accepts (compare n m.toInt) then .pass else .fail f := by
  have hnumeric : k.isNumeric = true := ScalarKind.isNumeric_of_isIntegral hk
  obtain ⟨own, hown⟩ := exists_ownCriterion_limit hkind hnumeric htype m
  have htest := hown
  rw [ownCriterion_limit hkind hnumeric htype] at htest
  obtain ⟨w, hw⟩ := validate_numericCriterion hk htype htest hv hn
  refine ⟨decorateAlong [between low high, limit kind m] ((limitReport kind message m).failure w),
    ⟨(reported_decorateAlong _ _).code, ?_⟩, ?_⟩
  -- the limit has a message of its own, over which the range says its
  · have henhancer : (limit kind m).enhancer = decorate message (limit kind m).params := by
      have hlimit : (limit kind m).message = some message := hmessage
      unfold enhancer
      rw [hlimit]
    refine message_between m.toInt rfl ?_
    simp only [decorateAlong, List.foldr_cons, List.foldr_nil, henhancer]
    rfl
  · rw [runChain_limit hown, hw]
    change Trial.mapFailure _ (if accepts (compare n m.toInt) then _ else _) = _
    split_ifs <;> rfl

/-- **A range of integers** passes the integers between its ends, and reports the limit that is not
kept. -/
theorem validate_between_on_integer {s : ShapedCriterion} (hs : (between low high).process p = .ok s)
    (hk : k.isIntegral = true) (htype : IsOf k p.type) (hv : v.integral? = some n) (hn : k.Holds n) :
    (s.validate v = .pass ↔ low.toInt ≤ n ∧ n ≤ high.toInt) ∧
    (s.validate v ≠ .pass → ∃ f, s.validate v = .fail f ∧
      SaysBetween low.toInt high.toInt (if n < low.toInt then "min" else "max") f) := by
  have hconverts : (p.type.shape.ofValue? v).isSome = true := by
    rcases htype with htype | htype <;> rw [htype]
    · obtain ⟨x, hx⟩ := (ScalarKind.exists_ofValue?_iff hk hv).2 hn
      exact Option.isSome_iff_exists.2 ⟨x, hx⟩
    · rfl
  obtain ⟨f, hf, hmin⟩ := runChain_limit_on_integer Builtin.min rfl rfl hk htype hv hn
    low high low
  obtain ⟨g, hg, hmax⟩ := runChain_limit_on_integer Builtin.max rfl rfl hk htype hv hn
    low high high
  rw [validate_between hs hconverts, hmin, hmax]
  -- the lower limit comes first: between crossed ends, where both fail, it is the one reported
  by_cases hlow : low.toInt ≤ n
  · have hnot : ¬ n < low.toInt := by omega
    rw [if_pos (Int.isGE_compare.2 hlow), if_neg hnot, Trial.pass_andThen]
    by_cases hhigh : n ≤ high.toInt
    · rw [if_pos (Int.isLE_compare.2 hhigh)]
      exact ⟨iff_of_true rfl ⟨hlow, hhigh⟩, fun h => absurd rfl h⟩
    · rw [if_neg fun h => hhigh (Int.isLE_compare.1 h)]
      exact ⟨iff_of_false nofun fun h => hhigh h.2, fun _ => ⟨g, rfl, hg⟩⟩
  · have hlt : n < low.toInt := by omega
    rw [if_neg fun h => hlow (Int.isGE_compare.1 h), if_pos hlt, Trial.fail_andThen]
    exact ⟨iff_of_false nofun fun h => hlow h.1, fun _ => ⟨f, rfl, hf⟩⟩

/-- Null passes a range where it may stand. -/
theorem validate_between_null {s : ShapedCriterion} (hs : (between low high).process p = .ok s)
    (hk : k.isNumeric = true) (htype : p.type = .boxed k) : s.validate .null = .pass := by
  have hlimit : ∀ kind message accepts, kind.factories = [bound message accepts] → ∀ m,
      runChain p .null [between low high, limit kind m] = .pass := by
    intro kind message accepts hkind m
    obtain ⟨own, hown⟩ := exists_ownCriterion_limit hkind hk (.inr htype) m
    have htest := hown
    rw [ownCriterion_limit hkind hk (.inr htype), htype] at htest
    rw [runChain_limit hown, validate_numericCriterion_null hk htest]
    rfl
  have hconverts : (p.type.shape.ofValue? .null).isSome = true := by
    rw [htype]
    rfl
  rw [validate_between hs hconverts, hlimit Builtin.min _ _ rfl, hlimit Builtin.max _ _ rfl]
  rfl

end Exact

/-- **Ranges are exact on integers.** Let a range be declared, with ends that may be crossed or left out,
and interned where kinds are told apart by their names. It becomes a criterion wherever the type is that
of the scalars of a kind of integers, or of these scalars and null. Of the values of any width whose
integer the kind holds, this passes exactly those between the ends, where an end that is left out is the
least or the greatest integer. For all others it reports the lower limit if they are below it, and else
the upper one, with a message that names both ends. Null passes where it may stand. -/
theorem ranges_are_exact_on_integers {S : Kind → Prop} (hS : Kind.Distinct S) (hrange : range.Every S)
    {cache : ConstraintCache} (hcache : cache.Coherent S) (low high : Option Int64) {k : ScalarKind}
    (hk : k.isIntegral = true) {p : Position} (hp : p.type = .scalar k ∨ p.type = .boxed k) :
    let lo : Int := (low.getD Int64.minValue).toInt
    let hi : Int := (high.getD Int64.maxValue).toInt
    ∃ kind c cache' s, Catalog.builtin.resolve "range" = .ok kind ∧
      Gives (kind.intern (rangeEnds low high)) cache c cache' ∧ c.process p = .ok s ∧
      (∀ v n, v.integral? = some n → k.Holds n →
        (s.validate v = .pass ↔ lo ≤ n ∧ n ≤ hi) ∧
        (s.validate v ≠ .pass → ∃ f, s.validate v = .fail f ∧
          f.code = (if n < lo then "min" else "max") ∧
          f.message = "must be between " ++ toString lo ++ " and " ++ toString hi)) ∧
      (p.type = .boxed k → s.validate .null = .pass) := by
  intro lo hi
  have hnumeric : k.isNumeric = true := ScalarKind.isNumeric_of_isIntegral hk
  obtain ⟨cache', hgives⟩ :=
    Kind.exists_gives_intern_of_expand hS hrange hcache (by decide) (expand_range low high)
  obtain ⟨s, hs⟩ := exists_process_between hnumeric hp (low.getD Int64.minValue)
    (high.getD Int64.maxValue)
  refine ⟨range, _, cache', s, rfl, hgives, hs, fun v n hv hn => ?_, validate_between_null hs hnumeric⟩
  obtain ⟨hpass, hfail⟩ := validate_between_on_integer hs hk hp hv hn
  refine ⟨hpass, fun h => ?_⟩
  obtain ⟨f, hf, hsays⟩ := hfail h
  exact ⟨f, hf, hsays.code, hsays.message⟩

/-- Between crossed ends there is nothing but null: 4 is below the lower end, and 7, in a single octet, is
above the upper one. -/
theorem crossed_range_passes_null_only : ∃ c cache' s,
    Gives (range.intern (rangeEnds (some 5) (some 3))) .empty c cache' ∧
    c.process ⟨.ofRoot "age", .boxed .int⟩ = .ok s ∧ s.validate .null = .pass ∧
      (∃ f, s.validate (.long 4) = .fail f ∧ f.code = "min" ∧ f.message = "must be between 5 and 3") ∧
      ∃ f, s.validate (.byte 7) = .fail f ∧ f.code = "max" ∧ f.message = "must be between 5 and 3" := by
  have hdistinct : Kind.Distinct Catalog.IsStandard :=
    fun _ _ hk hk' hname => Catalog.standard_unique hk hk' hname
  have hmem : range ∈ Catalog.builtin.kinds := by simp [Catalog.builtin]
  have hrange : range.Every Catalog.IsStandard := Catalog.standard_builtin range hmem
  obtain ⟨kind, c, cache', s, hkind, hgives, hs, hexact, hnull⟩ :=
    ranges_are_exact_on_integers hdistinct hrange ConstraintCache.coherent_empty (some 5) (some 3)
      (k := .int) rfl (p := ⟨.ofRoot "age", .boxed .int⟩) (.inr rfl)
  obtain rfl : range = kind := Except.ok.inj hkind
  obtain ⟨hfour, hfourFails⟩ := hexact (.long 4) 4 rfl (by decide)
  obtain ⟨hseven, hsevenFails⟩ := hexact (.byte 7) 7 rfl (by decide)
  exact ⟨c, cache', s, hgives, hs, hnull rfl, hfourFails fun h => absurd (hfour.1 h) (by decide),
    hsevenFails fun h => absurd (hseven.1 h) (by decide)⟩

end Builtin

end Validation
