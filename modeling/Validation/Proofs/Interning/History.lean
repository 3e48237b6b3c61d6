import Mathlib.Data.List.Nodup
import Validation.Proofs.Interning.Coherent

/-!
# Interning after other declarations

What a declaration is interned as does not depend on what was interned before it, with one exception.
The limit on how deep parts nest is counted from the declaration that is interned, and what is found
in the cache is not entered: so a declaration that nests too deep on an empty cache is accepted once
enough of its parts are interned.

* `gives_internAt_of_extends`: what succeeds also succeeds when more is interned.
* `exists_gives_intern`: whatever expands is accepted after its parts.
* `history_matters_for_depth_only`: the comparison with the empty cache.
* `Tower.low_level_admits_top`: a declaration that is accepted after another one only.
-/

namespace Validation

open ConstraintCache

variable {S : Kind → Prop}

/-- The cache after declarations have been interned one after another, whatever came of each. -/
def ConstraintCache.after (cache : ConstraintCache) (declarations : List (Kind × Attributes)) :
    ConstraintCache :=
  declarations.foldl (fun cache d => (outcome (d.1.intern d.2) cache).2) cache

/-- What a declaration is interned as, after other declarations. -/
def Kind.internedAfter (earlier : List (Kind × Attributes)) (k : Kind) (declared : Attributes) :
    Except AnalysisError Constraint :=
  (outcome (k.intern declared) (ConstraintCache.empty.after earlier)).1

namespace Kind

variable {cache cache' : ConstraintCache} {k : Kind} {depth depth' : Nat} {declared : Attributes}
  {c : Constraint}

/-! ### A success, step by step -/

/-- **How interning succeeds** on a coherent cache: the constraint is found, or its parts are
interned and it is inserted. -/
theorem gives_internAt (hS : Distinct S) (hk : k.Every S) (hcache : cache.Coherent S) :
    Gives (k.internAt depth declared) cache c cache' ↔
      depth ≤ maxCombinationDepth ∧ ∃ attributes parts, k.resolve declared = .ok attributes ∧
        expandParts k.name attributes k.parts = .ok parts ∧ c = .assemble k attributes parts ∧
        (cache.find? c.key = some c ∧ cache' = cache ∨
          cache.find? c.key = none ∧ ∃ cache₁,
            Gives (internParts (depth + 1) k.name attributes k.parts) cache parts cache₁ ∧
            cache' = cache₁.insert c.key c) := by
  rw [internAt_eq]
  split_ifs with hdepth
  · have hthrow : ¬ Gives (throw (.nestsTooDeep k.name) : Interning Constraint) cache c cache' := by
      simp
    exact iff_of_false hthrow (by omega)
  rw [gives_bind]
  simp only [gives_lift]
  constructor
  · rintro ⟨attributes, cache, ⟨hresolve, rfl⟩, hgives⟩
    refine ⟨by omega, attributes, ?_⟩
    rw [gives_get] at hgives
    cases hfind : cache.find? ⟨k.name, attributes⟩ with
    | some found =>
      simp only [hfind, gives_pure] at hgives
      obtain ⟨rfl, rfl⟩ := hgives
      obtain ⟨parts, hparts, rfl, -⟩ := hcache.of_find? hS hk hfind
      exact ⟨parts, hresolve, hparts, rfl, .inl ⟨hfind, rfl⟩⟩
    | none =>
      simp only [hfind] at hgives
      obtain ⟨parts, cache₁, hgives₁, hgives₂⟩ := gives_bind.1 hgives
      obtain ⟨hparts, hcache₁, -, -⟩ :=
        (served_internParts hS k.parts depth k.name attributes cache hk.parts hcache).of_gives hgives₁
      -- the parts leave a coherent cache, so what was assembled is what the insertion gives
      have houtcome := (outcome_insert hS hcache₁ hk hparts).symm.trans hgives₂
      obtain ⟨hc, rfl⟩ := Prod.mk.inj houtcome
      obtain rfl := Except.ok.inj hc
      exact ⟨parts, hresolve, hparts, rfl, .inr ⟨hfind, cache₁, hgives₁, rfl⟩⟩
  · rintro ⟨-, attributes, parts, hresolve, hparts, rfl, hcases⟩
    refine ⟨attributes, cache, ⟨hresolve, rfl⟩, ?_⟩
    rw [gives_get]
    rcases hcases with ⟨hfind, rfl⟩ | ⟨hfind, cache₁, hgives, rfl⟩
    · have hfind' : cache'.find? ⟨k.name, attributes⟩ = some (.assemble k attributes parts) := hfind
      simp only [hfind', gives_pure, and_self]
    · have hfind' : cache.find? ⟨k.name, attributes⟩ = none := hfind
      simp only [hfind']
      have hcache₁ := ((served_internParts hS k.parts depth k.name attributes cache hk.parts
        hcache).of_gives hgives).2.1
      exact gives_bind.2 ⟨parts, cache₁, hgives, outcome_insert hS hcache₁ hk hparts⟩

theorem gives_internParts_cons {part : Part Kind} {rest : List (Part Kind)} {outerKind : String}
    {outer : Attributes} {cs : List Constraint} :
    Gives (internParts depth outerKind outer (part :: rest)) cache cs cache' ↔
      ∃ declared c cache₁ cs', part.instantiate outerKind outer = .ok declared ∧
        Gives (part.target.internAt depth declared) cache c cache₁ ∧
        Gives (internParts depth outerKind outer rest) cache₁ cs' cache' ∧ cs = c :: cs' := by
  rw [internParts]
  simp only [gives_bind, gives_lift, gives_pure]
  constructor
  · rintro ⟨declared, _, ⟨hdeclared, rfl⟩, c, cache₁, hc, cs', _, hcs', rfl, rfl⟩
    exact ⟨declared, c, cache₁, cs', hdeclared, hc, hcs', rfl⟩
  · rintro ⟨declared, c, cache₁, cs', hdeclared, hc, hcs', rfl⟩
    exact ⟨declared, _, ⟨hdeclared, rfl⟩, c, cache₁, hc, cs', _, hcs', rfl, rfl⟩

theorem expandParts_cons_eq_ok {part : Part Kind} {rest : List (Part Kind)} {outerKind : String}
    {outer : Attributes} {cs : List Constraint} :
    expandParts outerKind outer (part :: rest) = .ok cs ↔
      ∃ declared c cs', part.instantiate outerKind outer = .ok declared ∧
        part.target.expand declared = .ok c ∧ expandParts outerKind outer rest = .ok cs' ∧
        cs = c :: cs' := by
  rw [expandParts]
  simp only [bind_eq_ok, pure_eq_ok, eq_comm (a := cs)]
  constructor
  · rintro ⟨declared, hdeclared, c, hc, cs', hcs', rfl⟩
    exact ⟨declared, c, cs', hdeclared, hc, hcs', rfl⟩
  · rintro ⟨declared, c, cs', hdeclared, hc, hcs', rfl⟩
    exact ⟨declared, hdeclared, c, hc, cs', hcs', rfl⟩

theorem expand_eq_ok : k.expand declared = .ok c ↔
    ∃ attributes parts, k.resolve declared = .ok attributes ∧
      expandParts k.name attributes k.parts = .ok parts ∧ c = .assemble k attributes parts := by
  rw [expand_eq]
  simp only [bind_eq_ok, pure_eq_ok, eq_comm (a := c)]
  constructor
  · rintro ⟨attributes, hresolve, parts, hparts, rfl⟩
    exact ⟨attributes, parts, hresolve, hparts, rfl⟩
  · rintro ⟨attributes, parts, hresolve, hparts, rfl⟩
    exact ⟨attributes, hresolve, parts, hparts, rfl⟩

/-- Parts that are interned already are found, and nothing is added to the cache. -/
theorem gives_internParts_of_found (hS : Distinct S) (hcache : cache.Coherent S)
    (hdepth : depth ≤ maxCombinationDepth) {outerKind : String} {outer : Attributes} :
    ∀ {parts : List (Part Kind)} {cs : List Constraint}, EveryPart S parts →
      expandParts outerKind outer parts = .ok cs → (∀ c ∈ cs, cache.find? c.key = some c) →
      Gives (internParts depth outerKind outer parts) cache cs cache
  | [], cs, _, hcs, _ => by
    rw [expandParts, pure_eq_ok] at hcs
    rw [internParts, gives_pure]
    exact ⟨hcs.symm, rfl⟩
  | part :: rest, cs, hparts, hcs, hfound => by
    obtain ⟨declared, c, cs', hdeclared, hc, hcs', rfl⟩ := expandParts_cons_eq_ok.1 hcs
    obtain ⟨attributes, parts, hresolve, hexpands, rfl⟩ := expand_eq_ok.1 hc
    have hfirst : Gives (part.target.internAt depth declared) cache
        (.assemble part.target attributes parts) cache :=
      (gives_internAt hS hparts.1 hcache).2 ⟨hdepth, attributes, parts, hresolve, hexpands, rfl,
        .inl ⟨hfound _ List.mem_cons_self, rfl⟩⟩
    have hrest : Gives (internParts depth outerKind outer rest) cache cs' cache :=
      gives_internParts_of_found hS hcache hdepth hparts.2 hcs'
        fun c hc => hfound c (List.mem_cons_of_mem _ hc)
    exact gives_internParts_cons.2 ⟨declared, _, cache, cs', hdeclared, hfirst, hrest, rfl⟩

theorem eq_of_gives_internParts (hS : Distinct S) (hcache : cache.Coherent S)
    {parts : List (Part Kind)} (hparts : EveryPart S parts) {outerKind : String} {outer : Attributes}
    {cs : List Constraint} (hcs : expandParts outerKind outer parts = .ok cs)
    (hfound : ∀ c ∈ cs, cache.find? c.key = some c)
    (hgives : Gives (internParts depth outerKind outer parts) cache cs cache') : cache' = cache := by
  cases parts with
  | nil =>
    rw [internParts, gives_pure] at hgives
    exact hgives.2
  | cons part rest =>
    obtain ⟨declared, c, cache₁, cs', -, hfirst, -, -⟩ := gives_internParts_cons.1 hgives
    have hdepth : depth ≤ maxCombinationDepth := ((gives_internAt hS hparts.1 hcache).1 hfirst).1
    exact (gives_unique hgives (gives_internParts_of_found hS hcache hdepth hparts hcs hfound)).2

/-! ### More interned -/

theorem insert_extends {key : ConstraintKey} (hext : cache.Extends cache')
    (hc : cache'.find? key = some c) : (cache.insert key c).Extends cache' := by
  intro key' c' hc'
  rw [find?_insert, Option.or_eq_some_iff] at hc'
  rcases hc' with hfound | ⟨-, hnew⟩
  · exact hext key' c' hfound
  · split at hnew
    case isTrue hkey =>
      cases hnew
      rwa [hkey]
    case isFalse => cases hnew

/-- What one request gives another gives as well, and it leaves no less interned. -/
def Covered {α : Type} (op : Interning α) (cache : ConstraintCache) (op' : Interning α)
    (cache' : ConstraintCache) : Prop :=
  ∀ a after, Gives op cache a after → ∃ after', Gives op' cache' a after' ∧ after.Extends after'

/-- A constraint is covered when its parts are. -/
theorem covered_internAt (hS : Distinct S) (hk : k.Every S) (hcache : cache.Coherent S)
    (hcache' : cache'.Coherent S) (hext : cache.Extends cache') (hle : depth' ≤ depth)
    (hparts : ∀ attributes,
      Covered (internParts (depth + 1) k.name attributes k.parts) cache
        (internParts (depth' + 1) k.name attributes k.parts) cache') :
    Covered (k.internAt depth declared) cache (k.internAt depth' declared) cache' := by
  intro c after hgives
  obtain ⟨hdepth, attributes, cs, hresolve, hexpands, rfl, hcases⟩ :=
    (gives_internAt hS hk hcache).1 hgives
  have hdepth' : depth' ≤ maxCombinationDepth := by omega
  rcases hcases with ⟨hfound, rfl⟩ | ⟨hmissing, cache₁, hgives₁, rfl⟩
  · have hfound' := hext _ _ hfound
    exact ⟨cache', (gives_internAt hS hk hcache').2 ⟨hdepth', attributes, cs, hresolve, hexpands, rfl,
      .inl ⟨hfound', rfl⟩⟩, hext⟩
  obtain ⟨cache₁', hgives₁', hext₁⟩ := hparts attributes cs cache₁ hgives₁
  cases hfind : cache'.find? ⟨k.name, attributes⟩ with
  | none =>
    have hcache₁' := ((served_internParts hS k.parts depth' k.name attributes cache' hk.parts
      hcache').of_gives hgives₁').2.1
    have hnew := find?_insert_assemble hS hcache₁' hk hexpands
    refine ⟨_, (gives_internAt hS hk hcache').2 ⟨hdepth', attributes, cs, hresolve, hexpands, rfl,
      .inr ⟨hfind, cache₁', hgives₁', rfl⟩⟩, ?_⟩
    exact insert_extends (hext₁.trans (extends_insert cache₁' _ _)) hnew
  | some c' =>
    -- With a constraint its parts are interned, so here they are all found and add nothing.
    obtain ⟨cs', hexpands', rfl, hinterned⟩ := hcache'.of_find? hS hk hfind
    obtain rfl : cs' = cs := Except.ok.inj (hexpands'.symm.trans hexpands)
    obtain rfl : cache₁' = cache' :=
      eq_of_gives_internParts hS hcache' hk.parts hexpands hinterned hgives₁'
    exact ⟨_, (gives_internAt hS hk hcache').2 ⟨hdepth', attributes, cs', hresolve, hexpands, rfl,
      .inl ⟨hfind, rfl⟩⟩, insert_extends hext₁ hfind⟩

mutual

/-- **What succeeds also succeeds when more is interned**, as deep below the declaration or less
deep. -/
theorem covered_internAt_of_extends (hS : Distinct S) :
    ∀ (k : Kind) {depth depth' : Nat} {declared : Attributes} {cache cache' : ConstraintCache},
      k.Every S → cache.Coherent S → cache'.Coherent S → cache.Extends cache' → depth' ≤ depth →
      Covered (k.internAt depth declared) cache (k.internAt depth' declared) cache'
  | ⟨_, _, _, _, _, parts⟩, _, _, _, _, _, hk, hcache, hcache', hext, hle =>
    covered_internAt hS hk hcache hcache' hext hle fun _ =>
      covered_internParts hS parts hk.2 hcache hcache' hext (Nat.succ_le_succ hle)

theorem covered_internParts (hS : Distinct S) :
    ∀ (parts : List (Part Kind)) {depth depth' : Nat} {outerKind : String} {outer : Attributes}
      {cache cache' : ConstraintCache}, EveryPart S parts → cache.Coherent S → cache'.Coherent S →
      cache.Extends cache' → depth' ≤ depth →
      Covered (internParts depth outerKind outer parts) cache
        (internParts depth' outerKind outer parts) cache'
  | [], _, _, _, _, cache, cache', _, _, _, hext, _ => by
    intro cs after hgives
    rw [internParts, gives_pure] at hgives
    obtain ⟨rfl, rfl⟩ := hgives
    refine ⟨cache', ?_, hext⟩
    rw [internParts, gives_pure]
    exact ⟨rfl, rfl⟩
  | ⟨target, sources⟩ :: rest, depth, depth', _, _, cache, cache', hparts, hcache, hcache', hext,
      hle => by
    intro cs after hgives
    obtain ⟨declared, c, cache₁, cs', hdeclared, hfirst, hrest, rfl⟩ :=
      gives_internParts_cons.1 hgives
    obtain ⟨cache₁', hfirst', hext₁⟩ :=
      covered_internAt_of_extends hS target hparts.1 hcache hcache' hext hle c cache₁ hfirst
    have hcache₁ := (served_internAt hS target depth declared cache hparts.1 hcache).of_gives hfirst
    have hcache₁' :=
      (served_internAt hS target depth' declared cache' hparts.1 hcache').of_gives hfirst'
    obtain ⟨after', hrest', hext'⟩ := covered_internParts hS rest hparts.2 hcache₁.2.1 hcache₁'.2.1
      hext₁ hle cs' after hrest
    exact ⟨after', gives_internParts_cons.2 ⟨declared, c, cache₁', cs', hdeclared, hfirst', hrest',
      rfl⟩, hext'⟩

end

end Kind

/-! ### After other declarations -/

/-- All declarations are of kinds that have a property, and so have all kinds they expand into. -/
def DeclaredOf (S : Kind → Prop) (declarations : List (Kind × Attributes)) : Prop :=
  ∀ d ∈ declarations, d.1.Every S

theorem DeclaredOf.append {ds ds' : List (Kind × Attributes)} (h : DeclaredOf S ds)
    (h' : DeclaredOf S ds') : DeclaredOf S (ds ++ ds') := by
  intro d hd
  rcases List.mem_append.1 hd with hd | hd
  · exact h d hd
  · exact h' d hd

namespace ConstraintCache

variable {cache : ConstraintCache} {declarations : List (Kind × Attributes)}

theorem after_cons (cache : ConstraintCache) (d : Kind × Attributes) (ds : List (Kind × Attributes)) :
    cache.after (d :: ds) = (outcome (d.1.intern d.2) cache).2.after ds := rfl

theorem after_append (cache : ConstraintCache) (ds ds' : List (Kind × Attributes)) :
    cache.after (ds ++ ds') = (cache.after ds).after ds' := List.foldl_append

/-- The cache stays coherent and keeps what it has, whatever is interned. -/
theorem coherent_after (hS : Kind.Distinct S) (hcache : cache.Coherent S)
    (hds : DeclaredOf S declarations) :
    (cache.after declarations).Coherent S ∧ cache.Extends (cache.after declarations) := by
  induction declarations generalizing cache with
  | nil => exact ⟨hcache, .refl cache⟩
  | cons d ds ih =>
    have hserved := Kind.served_internAt hS d.1 0 d.2 cache (hds d List.mem_cons_self) hcache
    obtain ⟨hcoherent, hext⟩ := ih hserved.coherent fun d' hd' => hds d' (List.mem_cons_of_mem _ hd')
    exact ⟨hcoherent, hserved.grows.trans hext⟩

end ConstraintCache

namespace Kind

mutual

/-- **Whatever expands is accepted after its parts**, which are declared from the bottom up. -/
theorem exists_gives_intern (hS : Distinct S) :
    ∀ (k : Kind) {declared : Attributes} {c : Constraint} {cache : ConstraintCache}, k.Every S →
      cache.Coherent S → k.expand declared = .ok c →
      ∃ earlier after, DeclaredOf S earlier ∧ Gives (k.intern declared) (cache.after earlier) c after
  | ⟨name, order, message, specs, factories, parts⟩, declared, c, cache, hk, hcache, hc => by
    obtain ⟨attributes, cs, hresolve, hexpands, rfl⟩ := expand_eq_ok.1 hc
    -- once all parts are interned, the recursion goes no deeper than one level
    obtain ⟨earlier, hearlier, hfound⟩ := exists_found hS parts hk.2 hcache hexpands
    have hcache' := (coherent_after hS hcache hearlier).1
    have hdepth : 0 + 1 ≤ maxCombinationDepth := by decide
    have hparts := gives_internParts_of_found hS hcache' hdepth hk.2 hexpands hfound
    refine ⟨earlier, ?_⟩
    cases hfind : (cache.after earlier).find? ⟨name, attributes⟩ with
    | some c' =>
      obtain ⟨cs', hexpands', rfl, -⟩ := hcache'.of_find? hS hk hfind
      obtain rfl : cs' = cs := Except.ok.inj (hexpands'.symm.trans hexpands)
      exact ⟨_, hearlier, (gives_internAt hS hk hcache').2 ⟨by decide, attributes, cs', hresolve,
        hexpands, rfl, .inl ⟨hfind, rfl⟩⟩⟩
    | none =>
      exact ⟨_, hearlier, (gives_internAt hS hk hcache').2 ⟨by decide, attributes, cs, hresolve,
        hexpands, rfl, .inr ⟨hfind, _, hparts, rfl⟩⟩⟩

theorem exists_found (hS : Distinct S) :
    ∀ (parts : List (Part Kind)) {outerKind : String} {outer : Attributes} {cs : List Constraint}
      {cache : ConstraintCache}, EveryPart S parts → cache.Coherent S →
      expandParts outerKind outer parts = .ok cs →
      ∃ earlier, DeclaredOf S earlier ∧ ∀ c ∈ cs, (cache.after earlier).find? c.key = some c
  | [], _, _, cs, cache, _, _, hcs => by
    rw [expandParts, pure_eq_ok] at hcs
    subst hcs
    exact ⟨[], nofun, nofun⟩
  | ⟨target, sources⟩ :: rest, _, _, cs, cache, hparts, hcache, hcs => by
    obtain ⟨declared, c, cs', hdeclared, hc, hcs', rfl⟩ := expandParts_cons_eq_ok.1 hcs
    obtain ⟨earlier, after, hearlier, hgives⟩ := exists_gives_intern hS target hparts.1 hcache hc
    have hcache' := (coherent_after hS hcache hearlier).1
    obtain ⟨-, hafter, -, hfound⟩ :=
      (served_internAt hS target 0 declared _ hparts.1 hcache').of_gives hgives
    -- the other parts are declared after this one, which stays interned
    obtain ⟨later, hlater, hrest⟩ := exists_found hS rest hparts.2 hafter hcs'
    have hsame : cache.after (earlier ++ (target, declared) :: later) = after.after later := by
      rw [after_append, after_cons, hgives]
    refine ⟨earlier ++ (target, declared) :: later, hearlier.append ?_, ?_⟩
    · intro d hd
      rcases List.mem_cons.1 hd with rfl | hd
      · exact hparts.1
      · exact hlater d hd
    · rw [hsame]
      intro c' hc'
      rcases List.mem_cons.1 hc' with rfl | hc'
      · exact (coherent_after hS hafter hlater).2 _ _ hfound
      · exact hrest c' hc'

end

end Kind

variable {kind : Kind} {declared : Attributes} {earlier : List (Kind × Attributes)}

/-- **What was interned before matters for the depth only.** Let all kinds of one name be one kind.
After any declarations, whether they were accepted or not, a declaration comes to its expansion, or
else its parts nest too deep for that. So it comes to the same as on an empty cache if its parts do
not nest too deep; and if they do, what the empty cache accepts stays accepted, with the same
constraint, but what the empty cache refuses for its depth alone is accepted after some others. -/
theorem history_matters_for_depth_only (hS : Kind.Distinct S) (hkind : kind.Every S)
    (hearlier : DeclaredOf S earlier) :
    (kind.internedAfter earlier declared = kind.expand declared ∨
      maxCombinationDepth < kind.height ∧
        ∃ k, kind.internedAfter earlier declared = .error (.nestsTooDeep k)) ∧
    (kind.height ≤ maxCombinationDepth →
      kind.internedAfter earlier declared = kind.internedAfter [] declared) ∧
    (∀ c, kind.internedAfter [] declared = .ok c → kind.internedAfter earlier declared = .ok c) ∧
    (∀ c, kind.expand declared = .ok c →
      ∃ more, DeclaredOf S more ∧ kind.internedAfter (earlier ++ more) declared = .ok c) := by
  have hcomes : ∀ earlier, DeclaredOf S earlier →
      kind.internedAfter earlier declared = kind.expand declared ∨
        maxCombinationDepth < kind.height ∧
          ∃ k, kind.internedAfter earlier declared = .error (.nestsTooDeep k) := by
    intro earlier hearlier
    have hcache := (coherent_after hS coherent_empty hearlier).1
    have hserved := Kind.served_internAt hS kind 0 declared _ hkind hcache
    exact (hserved.imp (by omega)).result
  refine ⟨hcomes earlier hearlier, fun hheight => ?_, fun c hc => ?_, fun c hc => ?_⟩
  · have hexpands : ∀ earlier, DeclaredOf S earlier →
        kind.internedAfter earlier declared = kind.expand declared := by
      intro earlier hearlier
      rcases hcomes earlier hearlier with heq | ⟨hdeep, -⟩
      · exact heq
      · omega
    rw [hexpands earlier hearlier, hexpands [] nofun]
  · obtain ⟨hcache, hext⟩ := coherent_after hS coherent_empty hearlier
    have hgives : Gives (kind.intern declared) .empty c (outcome (kind.intern declared) .empty).2 :=
      Prod.ext hc rfl
    obtain ⟨after, hafter, -⟩ := Kind.covered_internAt_of_extends hS kind hkind coherent_empty hcache
      hext (Nat.le_refl 0) c _ hgives
    exact congrArg Prod.fst hafter
  · have hcache := (coherent_after hS coherent_empty hearlier).1
    obtain ⟨more, after, hmore, hgives⟩ := Kind.exists_gives_intern hS kind hkind hcache hc
    refine ⟨more, hmore, ?_⟩
    rw [Kind.internedAfter, after_append]
    exact congrArg Prod.fst hgives

/-! ### A tower of kinds -/

namespace Tower

/-- A kind for each floor: the lowest accepts all values, each other expands into the one below. -/
def level : Nat → Kind
  | 0 => ⟨"level0", none, none, [], [⟨fun _ => true, fun _ _ => .ok (.truth .reference)⟩], []⟩
  | n + 1 => ⟨"level" ++ toString (n + 1), none, none, [], [], [.ofTarget (level n)]⟩

/-- The tower with one floor more than parts may nest. -/
def kinds : List Kind := (List.range 34).map level

theorem level_mem {n : Nat} (hn : n < 34) : level n ∈ kinds :=
  List.mem_map_of_mem (List.mem_range.2 hn)

theorem level_every {n : Nat} (hn : n < 34) : (level n).Every (· ∈ kinds) := by
  induction n with
  | zero => exact ⟨level_mem hn, trivial⟩
  | succ n ih => exact ⟨level_mem hn, ih (by omega), trivial⟩

theorem distinct : Kind.Distinct (· ∈ kinds) := by
  have hnodup : (kinds.map (·.name)).Nodup := by decide +kernel
  intro k k' hk hk' hname
  exact List.inj_on_of_nodup_map hnodup hk hk' hname

theorem declared_level_one : DeclaredOf (· ∈ kinds) [(level 1, .empty)] := by
  intro d hd
  rw [List.mem_singleton.1 hd]
  exact level_every (by decide)

/-- Below the top of the tower it does not matter that another floor is interned. -/
theorem upper_level_is_accepted_anyway :
    (level 32).height ≤ maxCombinationDepth ∧
      (level 32).internedAfter [(level 1, .empty)] .empty = (level 32).internedAfter [] .empty ∧
      ((level 32).internedAfter [] .empty).isOk = true := by
  have hheight : (level 32).height ≤ maxCombinationDepth := by decide +kernel
  have hsame : (level 32).internedAfter [(level 1, .empty)] .empty =
      (level 32).internedAfter [] .empty :=
    (history_matters_for_depth_only distinct (level_every (by decide)) declared_level_one).2.1 hheight
  exact ⟨hheight, hsame, by decide +kernel⟩

/-- The top of the tower is refused at first, and accepted once the floor above the lowest is
interned. -/
theorem low_level_admits_top :
    Kind.Distinct (· ∈ kinds) ∧ (level 33).Every (· ∈ kinds) ∧
      DeclaredOf (· ∈ kinds) [(level 1, .empty)] ∧
      (¬ ∃ c, (level 33).internedAfter [] .empty = .ok c) ∧
      ∃ c, (level 33).internedAfter [(level 1, .empty)] .empty = .ok c := by
  have hrefused : ((level 33).internedAfter [] .empty).isOk = false := by decide +kernel
  have haccepted : ((level 33).internedAfter [(level 1, .empty)] .empty).isOk = true := by
    decide +kernel
  refine ⟨distinct, level_every (by decide), declared_level_one, ?_, ?_⟩
  · rintro ⟨c, hc⟩
    rw [hc] at hrefused
    cases hrefused
  · cases hc : (level 33).internedAfter [(level 1, .empty)] .empty with
    | ok c => exact ⟨c, rfl⟩
    | error e =>
      rw [hc] at haccepted
      cases haccepted

end Tower

end Validation
