import Validation.Proofs.Intern

/-!
# What interning comes to

A kind and declared attributes expand into a constraint, whatever is interned (`Kind.expand`).
Interning differs from this in one respect only: it gives up on parts that nest too deep, counted
from the declaration that is interned. What it finds in the cache it does not put together again, so
a cache has to be coherent: it holds expansions, and with each of them its parts.

* `Kind.expand`: the constraint of a declaration, put together without a cache.
* `ConstraintCache.Coherent`: the invariant of the cache.
* `served_internAt`: interning comes to the expansion, or the parts nest too deep.
* `interned_of_expand`: what holds of every constraint that is put together holds of an expansion.
-/

namespace Validation

namespace Kind

mutual

/-- The constraint of a kind with the declared attributes, put together without a cache and however
deep its parts nest. -/
def expand : Kind → Attributes → Except AnalysisError Constraint
  | ⟨name, order, message, specs, factories, parts⟩, declared => do
    let kind : Kind := ⟨name, order, message, specs, factories, parts⟩
    let attributes ← kind.resolve declared
    return .assemble kind attributes (← expandParts name attributes parts)

/-- The constraints that a constraint of the given kind and attributes expands into. -/
def expandParts (outerKind : String) (outer : Attributes) :
    List (Part Kind) → Except AnalysisError (List Constraint)
  | [] => return []
  | ⟨target, sources⟩ :: rest => do
    let declared ← Part.instantiate (κ := Kind) ⟨target, sources⟩ outerKind outer
    let part ← target.expand declared
    return part :: (← expandParts outerKind outer rest)

end

mutual

/-- How deep parts nest in a kind. -/
def height : Kind → Nat
  | ⟨_, _, _, _, _, parts⟩ => heightParts parts

/-- How deep parts nest, these counted. -/
def heightParts : List (Part Kind) → Nat
  | [] => 0
  | ⟨target, _⟩ :: rest => max (target.height + 1) (heightParts rest)

end

theorem expand_eq (k : Kind) (declared : Attributes) :
    k.expand declared = do
      let attributes ← k.resolve declared
      return .assemble k attributes (← expandParts k.name attributes k.parts) := by
  cases k
  rw [expand]

theorem height_eq (k : Kind) : k.height = heightParts k.parts := by
  cases k
  rw [height]

/-- Kinds of one name are one kind. -/
def Distinct (S : Kind → Prop) : Prop := ∀ ⦃k k'⦄, S k → S k' → k.name = k'.name → k = k'

end Kind

/-- The error of interning at a kind below too many others. -/
def AnalysisError.nestsTooDeep (kind : String) : AnalysisError :=
  .invalidDefinition kind
    ("combined constraints nest deeper than " ++ toString maxCombinationDepth)

namespace ConstraintCache

/-- The cache holds all that another holds. -/
def Extends (cache cache' : ConstraintCache) : Prop :=
  ∀ key c, cache.find? key = some c → cache'.find? key = some c

variable {cache cache' cache'' : ConstraintCache}

theorem Extends.refl (cache : ConstraintCache) : cache.Extends cache := fun _ _ h => h

theorem Extends.trans (h : cache.Extends cache') (h' : cache'.Extends cache'') :
    cache.Extends cache'' := fun key c hc => h' key c (h key c hc)

/-- After an insertion a key has what it had, and else the new constraint. -/
theorem find?_insert (cache : ConstraintCache) (key key' : ConstraintKey) (c : Constraint) :
    (cache.insert key c).find? key' =
      (cache.find? key').or (if key' = key then some c else none) := by
  unfold insert
  cases hfind : cache.find? key with
  | some interned =>
    by_cases hkey : key' = key
    · rw [hkey, hfind]
      rfl
    · rw [if_neg hkey, Option.or_none]
  | none =>
    simp only [find?, List.lookup_append, List.lookup_cons, List.lookup_nil]
    by_cases hkey : key' = key
    · simp [hkey]
    · simp [hkey, beq_eq_false_iff_ne.2 hkey]

theorem extends_insert (cache : ConstraintCache) (key : ConstraintKey) (c : Constraint) :
    cache.Extends (cache.insert key c) := by
  intro key' c' hc'
  rw [find?_insert, hc']
  rfl

variable {S : Kind → Prop}

/-- The constraint is an expansion under its own key, and its parts are interned. -/
structure Expansion (S : Kind → Prop) (cache : ConstraintCache) (key : ConstraintKey)
    (c : Constraint) : Prop where
  every : c.kind.Every S
  key_eq : c.key = key
  assembled : c = .assemble c.kind c.attributes c.parts
  expands : Kind.expandParts c.kind.name c.attributes c.kind.parts = .ok c.parts
  parts : ∀ part ∈ c.parts, cache.find? part.key = some part

/-- **A coherent cache** holds expansions, each with its parts. -/
def Coherent (S : Kind → Prop) (cache : ConstraintCache) : Prop :=
  ∀ key c, cache.find? key = some c → Expansion S cache key c

theorem coherent_empty : empty.Coherent S := nofun

theorem Expansion.mono {key : ConstraintKey} {c : Constraint} (h : Expansion S cache key c)
    (hext : cache.Extends cache') : Expansion S cache' key c :=
  { h with parts := fun part hpart => hext _ _ (h.parts part hpart) }

theorem Coherent.insert (h : cache.Coherent S) {key : ConstraintKey} {c : Constraint}
    (hc : Expansion S cache key c) : (cache.insert key c).Coherent S := by
  intro key' c' hc'
  rw [find?_insert, Option.or_eq_some_iff] at hc'
  have hext := extends_insert cache key c
  rcases hc' with hfound | ⟨-, hnew⟩
  · exact (h key' c' hfound).mono hext
  · split at hnew
    case isTrue hkey =>
      cases hnew
      exact hkey ▸ hc.mono hext
    case isFalse => cases hnew

/-- What is interned for a kind is what its parts expand into. -/
theorem Coherent.of_find? (h : cache.Coherent S) (hS : Kind.Distinct S) {k : Kind}
    (hk : k.Every S) {attributes : Attributes} {c : Constraint}
    (hc : cache.find? ⟨k.name, attributes⟩ = some c) :
    ∃ parts, Kind.expandParts k.name attributes k.parts = .ok parts ∧
      c = .assemble k attributes parts ∧ ∀ part ∈ parts, cache.find? part.key = some part := by
  have hexp := h _ _ hc
  have hname : c.kind.name = k.name := congrArg ConstraintKey.kind hexp.key_eq
  have hattributes : c.attributes = attributes := congrArg ConstraintKey.attributes hexp.key_eq
  have hkind : c.kind = k := hS hexp.every.self hk.self hname
  have hexpands := hexp.expands
  have hassembled := hexp.assembled
  rw [hkind, hattributes] at hexpands hassembled
  exact ⟨c.parts, hexpands, hassembled, hexp.parts⟩

theorem expansion_assemble {k : Kind} (hk : k.Every S) {attributes : Attributes}
    {parts : List Constraint} (hparts : Kind.expandParts k.name attributes k.parts = .ok parts)
    (hinterned : ∀ part ∈ parts, cache.find? part.key = some part) :
    Expansion S cache ⟨k.name, attributes⟩ (.assemble k attributes parts) :=
  ⟨hk, rfl, rfl, hparts, hinterned⟩

end ConstraintCache

open ConstraintCache

variable {S : Kind → Prop} {α β : Type}

/-- **What a request of the cache comes to.** It keeps the cache coherent and all that is interned. Its
result is the expansion, as long as the parts do not nest too deep for it, and is interned after
it. -/
structure Served (S : Kind → Prop) (cache : ConstraintCache) (op : Interning α)
    (expansion : Except AnalysisError α) (deep : Prop) (interned : ConstraintCache → α → Prop) :
    Prop where
  coherent : (outcome op cache).2.Coherent S
  grows : cache.Extends (outcome op cache).2
  result : (outcome op cache).1 = expansion ∨
    deep ∧ ∃ kind, (outcome op cache).1 = .error (.nestsTooDeep kind)
  interned : ∀ a, (outcome op cache).1 = .ok a → interned (outcome op cache).2 a

section Rules

variable {cache : ConstraintCache} {op : Interning α} {f : α → Interning β}
  {expansion : Except AnalysisError α} {g : α → Except AnalysisError β} {deep deep' : Prop}
  {interned : ConstraintCache → α → Prop} {interned' : ConstraintCache → β → Prop}

theorem Served.imp (h : Served S cache op expansion deep interned) (himp : deep → deep') :
    Served S cache op expansion deep' interned :=
  { h with result := h.result.imp_right fun ⟨hdeep, herror⟩ => ⟨himp hdeep, herror⟩ }

/-- A request that gives a result gives the expansion. -/
theorem Served.of_gives (h : Served S cache op expansion deep interned) {a : α}
    {cache' : ConstraintCache} (hop : Gives op cache a cache') :
    expansion = .ok a ∧ cache'.Coherent S ∧ cache.Extends cache' ∧ interned cache' a := by
  obtain ⟨hcoherent, hgrows, hresult, hinterned⟩ := h
  rw [Gives] at hop
  rw [hop] at hcoherent hgrows hresult hinterned
  refine ⟨?_, hcoherent, hgrows, hinterned a rfl⟩
  rcases hresult with hresult | ⟨-, kind, hresult⟩
  · exact hresult.symm
  · cases hresult

theorem served_pure (hcache : cache.Coherent S) {a : α} (ha : interned cache a) :
    Served S cache (pure a) (.ok a) deep interned := by
  refine ⟨hcache, .refl cache, .inl rfl, fun b hb => ?_⟩
  cases hb
  exact ha

theorem served_throw (hcache : cache.Coherent S) (hdeep : deep) (kind : String) :
    Served S cache (throw (.nestsTooDeep kind)) expansion deep interned :=
  ⟨hcache, .refl cache, .inr ⟨hdeep, kind, rfl⟩, nofun⟩

theorem served_lift (hcache : cache.Coherent S) (x : Except AnalysisError α) :
    Served S cache (liftM x) x deep fun cache' a => cache' = cache ∧ x = .ok a := by
  refine ⟨?_, ?_, .inl ?_, ?_⟩ <;> rw [outcome_lift]
  · exact hcache
  · exact .refl cache
  · exact fun a ha => ⟨rfl, ha⟩

theorem served_get {f : ConstraintCache → Interning β} {expansion : Except AnalysisError β}
    (h : Served S cache (f cache) expansion deep interned') :
    Served S cache (do f (← get)) expansion deep interned' :=
  ⟨h.coherent, h.grows, h.result, h.interned⟩

/-- One request after another, against one expansion after another. -/
theorem served_bind (hop : Served S cache op expansion deep interned)
    (hf : ∀ a cache', Gives op cache a cache' → expansion = .ok a → cache'.Coherent S →
      interned cache' a → Served S cache' (f a) (g a) deep interned') :
    Served S cache (op >>= f) (expansion >>= g) deep interned' := by
  rcases houtcome : outcome op cache with ⟨error | a, cache'⟩
  -- an error of the first request is that of both
  · have hbind : outcome (op >>= f) cache = (.error error, cache') := by
      rw [outcome_bind, houtcome]
    obtain ⟨hcoherent, hgrows, hresult, -⟩ := hop
    rw [houtcome] at hcoherent hgrows hresult
    refine ⟨?_, ?_, ?_, ?_⟩ <;> rw [hbind]
    · exact hcoherent
    · exact hgrows
    · rcases hresult with rfl | ⟨hdeep, kind, hkind⟩
      · exact .inl rfl
      · cases hkind
        exact .inr ⟨hdeep, kind, rfl⟩
    · exact nofun
  · obtain ⟨hexpansion, hcoherent, hgrows, ha⟩ := hop.of_gives houtcome
    have hrest := hf a cache' houtcome hexpansion hcoherent ha
    have hbind : outcome (op >>= f) cache = outcome (f a) cache' := by
      rw [outcome_bind, houtcome]
    rw [hexpansion, ok_bind]
    refine ⟨?_, ?_, ?_, ?_⟩ <;> rw [hbind]
    · exact hrest.coherent
    · exact hgrows.trans hrest.grows
    · exact hrest.result
    · exact hrest.interned

end Rules

namespace Kind

theorem internAt_eq (k : Kind) (depth : Nat) (declared : Attributes) :
    k.internAt depth declared = do
      if maxCombinationDepth < depth then throw (.nestsTooDeep k.name)
      let attributes ← k.resolve declared
      match (← get).find? ⟨k.name, attributes⟩ with
      | some interned => return interned
      | none =>
        let parts ← internParts (depth + 1) k.name attributes k.parts
        let assembled := Constraint.assemble k attributes parts
        modify (·.insert ⟨k.name, attributes⟩ assembled)
        return ((← get).find? ⟨k.name, attributes⟩).getD assembled := by
  cases k
  rw [internAt]
  rfl

/-- What is put together is also what is found under its key afterwards. -/
theorem find?_insert_assemble (hS : Distinct S) {cache : ConstraintCache}
    (hcache : cache.Coherent S) {k : Kind} (hk : k.Every S) {attributes : Attributes}
    {parts : List Constraint} (hparts : expandParts k.name attributes k.parts = .ok parts) :
    (cache.insert ⟨k.name, attributes⟩ (.assemble k attributes parts)).find? ⟨k.name, attributes⟩ =
      some (.assemble k attributes parts) := by
  rw [find?_insert]
  cases hfind : cache.find? ⟨k.name, attributes⟩ with
  | none => simp
  | some c =>
    -- the insertion changes nothing, but what is there is the expansion of the same kind
    obtain ⟨parts', hparts', rfl, -⟩ := hcache.of_find? hS hk hfind
    obtain rfl : parts' = parts := Except.ok.inj (hparts'.symm.trans hparts)
    rfl

/-- The last step of interning, which inserts what is put together. -/
theorem outcome_insert (hS : Distinct S) {cache : ConstraintCache} (hcache : cache.Coherent S)
    {k : Kind} (hk : k.Every S) {attributes : Attributes} {parts : List Constraint}
    (hparts : expandParts k.name attributes k.parts = .ok parts) :
    outcome (do
        modify (·.insert ⟨k.name, attributes⟩ (.assemble k attributes parts))
        return ((← get).find? ⟨k.name, attributes⟩).getD (.assemble k attributes parts) :
          Interning Constraint) cache =
      (.ok (.assemble k attributes parts),
        cache.insert ⟨k.name, attributes⟩ (.assemble k attributes parts)) := by
  rw [outcome_bind]
  change (Except.ok (Option.getD _ _), _) = _
  rw [find?_insert_assemble hS hcache hk hparts]
  rfl

theorem served_insert (hS : Distinct S) {cache : ConstraintCache} (hcache : cache.Coherent S)
    {k : Kind} (hk : k.Every S) {attributes : Attributes} {parts : List Constraint} {deep : Prop}
    (hparts : expandParts k.name attributes k.parts = .ok parts)
    (hinterned : ∀ part ∈ parts, cache.find? part.key = some part) :
    Served S cache (do
        modify (·.insert ⟨k.name, attributes⟩ (.assemble k attributes parts))
        return ((← get).find? ⟨k.name, attributes⟩).getD (.assemble k attributes parts))
      (.ok (.assemble k attributes parts)) deep fun cache' c => cache'.find? c.key = some c := by
  refine ⟨?_, ?_, .inl ?_, ?_⟩ <;> rw [outcome_insert hS hcache hk hparts]
  · exact hcache.insert (expansion_assemble hk hparts hinterned)
  · exact extends_insert cache _ _
  · intro c hc
    cases hc
    exact find?_insert_assemble hS hcache hk hparts

mutual

/-- **Interning comes to the expansion**, unless parts nest too deep below the declaration. -/
theorem served_internAt (hS : Distinct S) :
    ∀ (k : Kind) (depth : Nat) (declared : Attributes) (cache : ConstraintCache), k.Every S →
      cache.Coherent S →
      Served S cache (k.internAt depth declared) (k.expand declared)
        (maxCombinationDepth < depth + k.height) fun cache' c => cache'.find? c.key = some c
  | ⟨name, order, message, specs, factories, parts⟩, depth, declared, cache, hk, hcache => by
    rw [internAt_eq, expand_eq, height_eq]
    split_ifs with hdepth
    · exact served_throw hcache (by omega) name
    refine served_bind (served_lift hcache _) ?_
    rintro attributes cache - - - ⟨rfl, -⟩
    refine served_get ?_
    cases hfind : cache.find? ⟨name, attributes⟩ with
    | some c =>
      simp only
      -- kinds of one name are one kind, so what is found is made of the same parts
      obtain ⟨cs, hcs, rfl, -⟩ := hcache.of_find? hS hk hfind
      simp only at hcs ⊢
      rw [hcs]
      exact served_pure hcache hfind
    | none =>
      simp only
      refine served_bind (served_internParts hS parts depth name attributes cache hk.2 hcache) ?_
      intro cs cache' _ hcs hcache' hinterned
      exact served_insert hS hcache' hk hcs hinterned

theorem served_internParts (hS : Distinct S) :
    ∀ (parts : List (Part Kind)) (depth : Nat) (outerKind : String) (outer : Attributes)
      (cache : ConstraintCache), EveryPart S parts → cache.Coherent S →
      Served S cache (internParts (depth + 1) outerKind outer parts)
        (expandParts outerKind outer parts) (maxCombinationDepth < depth + heightParts parts)
        fun cache' cs => ∀ c ∈ cs, cache'.find? c.key = some c
  | [], depth, outerKind, outer, cache, _, hcache => by
    rw [internParts, expandParts]
    exact served_pure hcache (by simp)
  | ⟨target, sources⟩ :: rest, depth, outerKind, outer, cache, hparts, hcache => by
    rw [internParts, expandParts, heightParts]
    refine served_bind (served_lift hcache _) ?_
    rintro declared cache - - - ⟨rfl, -⟩
    have htarget := served_internAt hS target (depth + 1) declared cache hparts.1 hcache
    -- a target is one level deeper and at least one level less high, so too deep for it is too deep
    refine served_bind (htarget.imp (by omega)) ?_
    intro c cache₁ _ _ hcache₁ hc
    have hrest := served_internParts hS rest depth outerKind outer cache₁ hparts.2 hcache₁
    refine served_bind (hrest.imp (by omega)) ?_
    intro cs cache₂ hgives _ hcache₂ hcs
    refine served_pure hcache₂ fun c' hc' => ?_
    rcases List.mem_cons.1 hc' with rfl | hc'
    · exact (hrest.of_gives hgives).2.2.1 _ _ hc
    · exact hcs c' hc'

end

/-- A declaration of a kind whose parts do not nest too deep is interned if it expands. -/
theorem exists_gives_intern_of_expand (hS : Distinct S) {k : Kind} (hk : k.Every S)
    {cache : ConstraintCache} (hcache : cache.Coherent S) (hheight : k.height ≤ maxCombinationDepth)
    {declared : Attributes} {c : Constraint} (hc : k.expand declared = .ok c) :
    ∃ cache', Gives (k.intern declared) cache c cache' := by
  have hserved := served_internAt hS k 0 declared cache hk hcache
  refine ⟨(outcome (k.intern declared) cache).2, Prod.ext ?_ rfl⟩
  rcases hserved.result with hresult | ⟨hdeep, -⟩
  · exact hresult.trans hc
  · omega

end Kind

section Assembled

variable {P : Constraint → Prop}

mutual

/-- **A property of constraints that passes from the kind and the parts** holds of what a declaration
expands into. -/
theorem interned_of_expand (hP : Assembles P S) : ∀ (k : Kind) (declared : Attributes) (c : Constraint),
    k.Every S → k.expand declared = .ok c → Interned P k declared c
  | ⟨name, order, message, specs, factories, parts⟩, declared, c, hk, hc => by
    rw [Kind.expand] at hc
    obtain ⟨attributes, hresolve, hc⟩ := bind_eq_ok.1 hc
    obtain ⟨cs, hcs, hc⟩ := bind_eq_ok.1 hc
    rw [pure_eq_ok] at hc
    subst hc
    exact ⟨hP _ attributes cs hk.1 (internedParts_of_expandParts hP parts _ _ cs hk.2 hcs), attributes,
      hresolve, rfl⟩

theorem internedParts_of_expandParts (hP : Assembles P S) : ∀ (parts : List (Part Kind))
    (outerKind : String) (outer : Attributes) (cs : List Constraint), Kind.EveryPart S parts →
    Kind.expandParts outerKind outer parts = .ok cs →
      List.Forall₂ (InternedPart P outerKind outer) parts cs
  | [], outerKind, outer, cs, _, hcs => by
    rw [Kind.expandParts, pure_eq_ok] at hcs
    subst hcs
    exact .nil
  | ⟨target, sources⟩ :: rest, outerKind, outer, cs, hparts, hcs => by
    rw [Kind.expandParts] at hcs
    obtain ⟨declared, hdeclared, hcs⟩ := bind_eq_ok.1 hcs
    obtain ⟨part, hpart, hcs⟩ := bind_eq_ok.1 hcs
    obtain ⟨others, hothers, hcs⟩ := bind_eq_ok.1 hcs
    rw [pure_eq_ok] at hcs
    subst hcs
    have hinterned := interned_of_expand hP target declared part hparts.1 hpart
    exact .cons ⟨declared, hdeclared, hinterned⟩
      (internedParts_of_expandParts hP rest _ _ others hparts.2 hothers)

end

end Assembled

end Validation
