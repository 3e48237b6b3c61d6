import Validation.Proofs.Interning.History
import Validation.Proofs.Kind
import Validation.Proofs.Lookup

/-!
# Instances

An interned constraint is told apart from others by its place among the interned ones, at which it
stays: a request adds entries at the end only, each under a key of its own and with attributes that
resolve from a declaration. With that, and because a cache is coherent, an entry is known by its key,
and two requests give one instance when their kinds and resolved attributes are the same. A request
that fails may leave entries behind, for which all of this holds as well.

* `keeps_internAt_of_insert`: interning keeps what the insertion of an assembled constraint keeps.
* `get?_of_resolve`: the value of every attribute after the defaults are written out.
* `Instance`: what the entry under a key is.
* `interned_constraints_are_shared`: the entries of every cache, and when two requests share one.
-/

namespace Validation

variable {S : Kind → Prop}

/-! ### Resolved attributes -/

namespace Kind

variable {k : Kind} {declared attributes : Attributes}

/-- Written out, an attribute has its declared value or else the default. -/
theorem get?_of_fillDefault {spec : AttributeSpec} {resolved : Attributes}
    (h : k.fillDefault resolved spec = .ok attributes) :
    attributes.contains spec.name ∧ ∀ name, attributes.get? name =
      (resolved.get? name).or (if spec.name = name then spec.default else none) := by
  unfold fillDefault at h
  split at h
  case isTrue hcontains =>
    obtain rfl := Except.ok.inj h
    refine ⟨hcontains, fun name => ?_⟩
    by_cases hname : spec.name = name
    · obtain ⟨value, hvalue⟩ := Option.isSome_iff_exists.1 hcontains
      rw [← hname, hvalue]
      rfl
    · rw [if_neg hname, Option.or_none]
  case isFalse hmissing =>
    have hnone : resolved.get? spec.name = none := by
      simpa [Attributes.contains] using hmissing
    split at h
    case h_1 value hdefault =>
      obtain rfl := Except.ok.inj h
      refine ⟨by simp [Attributes.contains, Attributes.get?_insert_self], fun name => ?_⟩
      by_cases hname : spec.name = name
      · rw [← hname, hnone, if_pos rfl, hdefault, Attributes.get?_insert_self]
        rfl
      · rw [if_neg hname, Option.or_none, Attributes.get?_insert_of_ne _ (Ne.symm hname)]
    case h_2 => cases h

/-- **The value of an attribute** of a constraint is the declared one, or else the default. -/
theorem get?_of_resolve (h : k.resolve declared = .ok attributes) (name : String) :
    attributes.get? name = (declared.get? name).or ((k.attribute? name).bind (·.default)) := by
  obtain ⟨-, -, hfill⟩ := bind_eq_ok.1 h
  clear h
  unfold attribute?
  generalize k.attributes = specs at hfill
  induction specs generalizing declared with
  | nil =>
    rw [List.foldlM_nil, pure_eq_ok] at hfill
    rw [hfill, List.find?_nil, Option.bind_none, Option.or_none]
  | cons spec specs ih =>
    obtain ⟨resolved, hspec, hrest⟩ := foldlM_cons_eq_ok.1 hfill
    obtain ⟨hcontains, hget⟩ := get?_of_fillDefault hspec
    rw [ih hrest, List.find?_cons]
    by_cases hname : spec.name = name
    · -- once the attribute has a value, a later one of the name no longer counts
      obtain ⟨value, hvalue⟩ := Option.isSome_iff_exists.1 hcontains
      rw [hname] at hvalue
      have hhere := hget name
      rw [hvalue, if_pos hname] at hhere
      simp only [hname, beq_self_eq_true, Option.bind_some, ← hhere, hvalue, Option.some_or]
    · have hbeq : (spec.name == name) = false := by simp [hname]
      rw [hbeq, hget, if_neg hname, Option.or_none]

/-- The names of a defined kind's attributes are not reserved. -/
theorem attribute?_of_isReserved (h : k.define = .ok k) {name : String}
    (hname : isReserved name = true) : k.attribute? name = none := by
  obtain ⟨-, hreserved, -⟩ := of_define h
  refine List.find?_eq_none.2 fun spec hspec heq => ?_
  have hspec := hreserved spec hspec
  rw [eq_of_beq heq, hname] at hspec
  cases hspec

end Kind

/-- A constraint has the order and the message that are declared, or else those of its kind. -/
structure Constraint.Settled (c : Constraint) (declared : Attributes) : Prop where
  order : (∃ n, declared.get? orderName = some (.int n) ∧ c.order = some n) ∨
    declared.get? orderName = none ∧ c.order = c.kind.order
  message : (∃ text, declared.get? messageName = some (.text text) ∧ c.message = some text) ∨
    declared.get? messageName = none ∧ c.message = c.kind.message

namespace Kind

variable {k : Kind} {declared attributes : Attributes}

theorem checkDeclared_of_resolve (h : k.resolve declared = .ok attributes) {name : String}
    {value : Attribute} (hvalue : declared.get? name = some value) :
    k.checkDeclared name value = .ok () := by
  obtain ⟨⟨⟩, hchecked, -⟩ := bind_eq_ok.1 h
  exact forM_eq_ok.1 hchecked _ (mem_of_lookup hvalue)

theorem get?_of_resolve_of_isReserved (hk : k.define = .ok k)
    (h : k.resolve declared = .ok attributes) {name : String} (hname : isReserved name = true) :
    attributes.get? name = declared.get? name := by
  rw [get?_of_resolve h, attribute?_of_isReserved hk hname, Option.bind_none, Option.or_none]

theorem settled_assemble (hk : k.define = .ok k) (h : k.resolve declared = .ok attributes)
    (parts : List Constraint) : (Constraint.assemble k attributes parts).Settled declared := by
  have horder := get?_of_resolve_of_isReserved hk h (show isReserved orderName = true by decide)
  have hmessage := get?_of_resolve_of_isReserved hk h (show isReserved messageName = true by decide)
  refine ⟨?_, ?_⟩
  · cases hdeclared : declared.get? orderName with
    | none => exact .inr ⟨rfl, by simp [Constraint.assemble, horder, hdeclared]⟩
    | some value =>
      obtain ⟨n, rfl, hrange⟩ := checkDeclared_order_iff.1 (checkDeclared_of_resolve h hdeclared)
      refine .inl ⟨n, rfl, ?_⟩
      simp [Constraint.assemble, horder, hdeclared, Attribute.int?, ofInt?_eq_some_iff.2 hrange]
  · cases hdeclared : declared.get? messageName with
    | none => exact .inr ⟨rfl, by simp [Constraint.assemble, hmessage, hdeclared]⟩
    | some value =>
      obtain ⟨text, rfl⟩ := checkDeclared_message_iff.1 (checkDeclared_of_resolve h hdeclared)
      refine .inl ⟨text, rfl, ?_⟩
      simp [Constraint.assemble, hmessage, hdeclared, Attribute.text?]

/-- The parts of a constraint, and the key of each. -/
theorem keys_of_expandParts {outerKind : String} {outer : Attributes} :
    ∀ {parts : List (Part Kind)} {cs : List Constraint},
      expandParts outerKind outer parts = .ok cs →
      List.Forall₂ (fun part c => ∃ declared attributes,
        part.instantiate outerKind outer = .ok declared ∧
        part.target.resolve declared = .ok attributes ∧ c.key = ⟨part.target.name, attributes⟩)
        parts cs
  | [], cs, h => by
    rw [expandParts, pure_eq_ok] at h
    rw [← h]
    exact .nil
  | part :: rest, cs, h => by
    obtain ⟨declared, c, cs', hdeclared, hc, hcs', rfl⟩ := expandParts_cons_eq_ok.1 h
    obtain ⟨attributes, parts, hresolve, -, rfl⟩ := expand_eq_ok.1 hc
    exact .cons ⟨declared, attributes, hdeclared, hresolve, rfl⟩ (keys_of_expandParts hcs')

end Kind

/-! ### What insertions keep -/

section Keeps

variable {inv : ConstraintCache → Prop}

/-- An invariant that stays when a constraint with resolved attributes is inserted. -/
def KeptByInsert (S : Kind → Prop) (inv : ConstraintCache → Prop) : Prop :=
  ∀ cache k declared attributes parts, S k → k.resolve declared = .ok attributes → inv cache →
    inv (cache.insert ⟨k.name, attributes⟩ (.assemble k attributes parts))

mutual

/-- **Interning keeps what insertions keep**, whether it succeeds or fails. -/
theorem keeps_internAt_of_insert (hinv : KeptByInsert S inv) :
    ∀ (k : Kind) (depth : Nat) (declared : Attributes), k.Every S →
      Keeps inv (k.internAt depth declared) fun _ => True
  | ⟨name, order, message, specs, factories, parts⟩, depth, declared, hk => by
    rw [Kind.internAt_eq]
    split_ifs
    · exact keeps_throw
    refine keeps_bind keeps_liftM fun attributes hresolve => ?_
    refine keeps_bind (keeps_get fun _ hs => hs) fun cache _ => ?_
    split
    · exact keeps_pure trivial
    · refine keeps_bind (keeps_internParts_of_insert hinv parts _ _ _ hk.2) fun cs _ => ?_
      refine keeps_bind (keeps_modify fun cache hcache => ?_) fun _ _ => ?_
      · exact hinv cache _ declared attributes cs hk.self hresolve hcache
      · exact keeps_bind (keeps_get fun _ hs => hs) fun _ _ => keeps_pure trivial

theorem keeps_internParts_of_insert (hinv : KeptByInsert S inv) :
    ∀ (parts : List (Part Kind)) (depth : Nat) (outerKind : String) (outer : Attributes),
      Kind.EveryPart S parts →
      Keeps inv (Kind.internParts depth outerKind outer parts) fun _ => True
  | [], depth, outerKind, outer, _ => by
    rw [Kind.internParts]
    exact keeps_pure trivial
  | ⟨target, sources⟩ :: rest, depth, outerKind, outer, hparts => by
    rw [Kind.internParts]
    refine keeps_bind keeps_liftM fun declared _ => ?_
    refine keeps_bind (keeps_internAt_of_insert hinv target depth declared hparts.1) fun _ _ => ?_
    refine keeps_bind (keeps_internParts_of_insert hinv rest depth _ _ hparts.2) fun _ _ => ?_
    exact keeps_pure trivial

end

/-- A history keeps what insertions keep. -/
theorem ConstraintCache.after_of_insert (hinv : KeptByInsert S inv)
    {declarations : List (Kind × Attributes)} (hds : DeclaredOf S declarations)
    {cache : ConstraintCache} (hcache : inv cache) : inv (cache.after declarations) := by
  induction declarations generalizing cache with
  | nil => exact hcache
  | cons d ds ih =>
    have hd : d.1.Every S := hds d List.mem_cons_self
    rw [after_cons]
    refine ih (fun d' hd' => hds d' (List.mem_cons_of_mem _ hd')) ?_
    exact (keeps_internAt_of_insert hinv d.1 0 d.2 hd cache hcache).1

end Keeps

namespace ConstraintCache

variable {cache initial : ConstraintCache}

/-! ### The entries -/

/-- The entries have keys of their own, and attributes that resolve from a declaration. -/
structure Tidy (cache : ConstraintCache) : Prop where
  nodup : (cache.entries.map (·.1)).Nodup
  declared : ∀ e ∈ cache.entries, ∃ declared, e.2.kind.resolve declared = .ok e.2.attributes

theorem tidy_empty : empty.Tidy := ⟨List.nodup_nil, nofun⟩

/-- What is inserted stands behind what was there, under a key of its own. -/
theorem keptByInsert_tidy (S : Kind → Prop) (initial : ConstraintCache) :
    KeptByInsert S fun cache => initial.entries <+: cache.entries ∧ cache.Tidy := by
  rintro cache k declared attributes parts - hresolve ⟨hgrows, htidy⟩
  unfold insert
  cases hfind : cache.find? ⟨k.name, attributes⟩ with
  | some c => exact ⟨hgrows, htidy⟩
  | none =>
    refine ⟨hgrows.trans (List.prefix_append _ _), nodup_keys_append htidy.nodup hfind, ?_⟩
    intro e he
    rcases List.mem_append.1 he with he | he
    · exact htidy.declared e he
    · rw [List.mem_singleton.1 he]
      exact ⟨declared, hresolve⟩

theorem Tidy.after (h : cache.Tidy) {declarations : List (Kind × Attributes)}
    (hds : DeclaredOf S declarations) :
    cache.entries <+: (cache.after declarations).entries ∧ (cache.after declarations).Tidy :=
  after_of_insert (keptByInsert_tidy S cache) hds ⟨List.prefix_rfl, h⟩

theorem mem_of_find? {key : ConstraintKey} {c : Constraint} (h : cache.find? key = some c) :
    (key, c) ∈ cache.entries := mem_of_lookup h

theorem Tidy.find?_of_mem (h : cache.Tidy) {key : ConstraintKey} {c : Constraint}
    (hmem : (key, c) ∈ cache.entries) : cache.find? key = some c := lookup_of_mem h.nodup hmem

/-- **What the entry under a key is**: a constraint of the kind with the attributes of the key, settled
as declared, whose parts are the constraints that are interned under the keys of the kind's parts. -/
structure Instance (S : Kind → Prop) (cache : ConstraintCache) (key : ConstraintKey)
    (c : Constraint) : Prop where
  kind : S c.kind ∧ c.kind.name = key.kind
  attributes : c.attributes = key.attributes
  declared : ∃ declared, c.kind.resolve declared = .ok key.attributes
  settled : ∀ declared, c.kind.resolve declared = .ok key.attributes → c.Settled declared
  parts : List.Forall₂ (fun part member => ∃ declared attributes,
    part.instantiate key.kind key.attributes = .ok declared ∧
    part.target.resolve declared = .ok attributes ∧
    cache.find? ⟨part.target.name, attributes⟩ = some member) c.kind.parts c.parts

theorem instance_of_mem (hdefined : ∀ k, S k → k.define = .ok k) (hcoherent : cache.Coherent S)
    (htidy : cache.Tidy) {key : ConstraintKey} {c : Constraint} (hmem : (key, c) ∈ cache.entries) :
    Instance S cache key c := by
  have hexpansion := hcoherent key c (htidy.find?_of_mem hmem)
  have hkind : S c.kind := hexpansion.every.self
  have hname : c.kind.name = key.kind := congrArg ConstraintKey.kind hexpansion.key_eq
  have hattributes : c.attributes = key.attributes :=
    congrArg ConstraintKey.attributes hexpansion.key_eq
  have hparts := Kind.keys_of_expandParts hexpansion.expands
  rw [hname, hattributes] at hparts
  refine ⟨⟨hkind, hname⟩, hattributes, ?_, fun declared hresolve => ?_, ?_⟩
  · rw [← hattributes]
    exact htidy.declared _ hmem
  · have hsettled := Kind.settled_assemble (hdefined _ hkind) hresolve c.parts
    rwa [← hattributes, ← hexpansion.assembled] at hsettled
  · have hinterned := (List.forall₂_and_left _ _).2 ⟨hexpansion.parts, hparts.flip⟩
    refine hinterned.flip.imp ?_
    rintro part member ⟨hfound, declared, attributes, hdeclared, hresolve, hkey⟩
    exact ⟨declared, attributes, hdeclared, hresolve, hkey ▸ hfound⟩

/-- The constraint is the instance with a number: the place at which it is interned. -/
def Holds (cache : ConstraintCache) (n : Nat) (c : Constraint) : Prop :=
  cache.entries[n]? = some (c.key, c)

theorem Holds.mono {cache' : ConstraintCache} {n : Nat} {c : Constraint} (h : cache.Holds n c)
    (hgrows : cache.entries <+: cache'.entries) : cache'.Holds n c := getElem?_of_prefix hgrows h

theorem exists_holds {c : Constraint} (h : cache.find? c.key = some c) : ∃ n, cache.Holds n c :=
  List.getElem?_of_mem (mem_of_find? h)

theorem Tidy.number_eq_iff (h : cache.Tidy) {n n' : Nat} {c c' : Constraint} (hc : cache.Holds n c)
    (hc' : cache.Holds n' c') : n = n' ↔ c.key = c'.key := by
  constructor
  · rintro rfl
    exact (Prod.mk.inj (Option.some.inj (hc.symm.trans hc'))).1
  · intro hkey
    have hkeys : ∀ {m : Nat} {d : Constraint}, cache.Holds m d →
        (cache.entries.map (·.1))[m]? = some d.key := by
      intro m d hd
      rw [List.getElem?_map, hd]
      rfl
    obtain ⟨hn, -⟩ := List.getElem?_eq_some_iff.1 (hkeys hc)
    refine (List.getElem?_inj hn h.nodup).1 ?_
    rw [hkeys hc, hkeys hc', hkey]

end ConstraintCache

open ConstraintCache

variable {k k' : Kind} {earlier later : List (Kind × Attributes)}

/-- A request that succeeds gives an instance of its own key. -/
theorem exists_instance (hS : Kind.Distinct S) (hk : k.Every S) (hearlier : DeclaredOf S earlier)
    {declared : Attributes} {c : Constraint} (hc : k.internedAfter earlier declared = .ok c) :
    (∃ n, (empty.after (earlier ++ [(k, declared)])).Holds n c) ∧
      ∃ attributes, k.resolve declared = .ok attributes ∧ c.key = ⟨k.name, attributes⟩ := by
  have hcoherent := (coherent_after hS coherent_empty hearlier).1
  have hgives : Gives (k.intern declared) (empty.after earlier) c
      (empty.after (earlier ++ [(k, declared)])) := by
    rw [after_append]
    exact Prod.ext hc rfl
  have hserved := Kind.served_internAt hS k 0 declared _ hk hcoherent
  obtain ⟨hexpand, -, -, hfound⟩ := hserved.of_gives hgives
  obtain ⟨attributes, parts, hresolve, -, rfl⟩ := Kind.expand_eq_ok.1 hexpand
  exact ⟨exists_holds hfound, attributes, hresolve, rfl⟩

/-- **Interned constraints are shared.** Let all kinds of one name be one kind, and let their
definitions be accepted. After any declarations, whether they were accepted or not, every entry is a
constraint of the kind and with the attributes of its key, settled as declared, with one part for each
part of its kind, which is the constraint interned under that part's key. No two entries have one key,
and what is interned later stands behind them. Two declarations that are accepted, whatever is
declared between them, give one instance exactly when they are of one kind and resolve to the same
attributes. -/
theorem interned_constraints_are_shared (hS : Kind.Distinct S)
    (hdefined : ∀ k, S k → k.define = .ok k) (hearlier : DeclaredOf S earlier)
    (hlater : DeclaredOf S later) (hk : k.Every S) (hk' : k'.Every S) :
    (∀ key c, (key, c) ∈ (empty.after earlier).entries →
      Instance S (empty.after earlier) key c) ∧
    ((empty.after earlier).entries.map (·.1)).Nodup ∧
    (empty.after earlier).entries <+: (empty.after (earlier ++ later)).entries ∧
    ∀ declared declared' c c', k.internedAfter earlier declared = .ok c →
      k'.internedAfter (earlier ++ (k, declared) :: later) declared' = .ok c' →
      ∃ n n', (empty.after (earlier ++ [(k, declared)])).Holds n c ∧
        (empty.after (earlier ++ (k, declared) :: later ++ [(k', declared')])).Holds n' c' ∧
        (n = n' ↔ k = k' ∧ ∃ attributes, k.resolve declared = .ok attributes ∧
          k'.resolve declared' = .ok attributes) := by
  have hcoherent := (coherent_after hS coherent_empty hearlier).1
  have htidy := (tidy_empty.after hearlier).2
  refine ⟨fun key c hmem => instance_of_mem hdefined hcoherent htidy hmem, htidy.nodup, ?_, ?_⟩
  · rw [after_append]
    exact (htidy.after hlater).1
  intro declared declared' c c' hc hc'
  have hone : DeclaredOf S [(k, declared)] := by simpa [DeclaredOf] using hk
  have hone' : DeclaredOf S [(k', declared')] := by simpa [DeclaredOf] using hk'
  have hboth : DeclaredOf S (earlier ++ (k, declared) :: later) := hearlier.append (hone.append hlater)
  obtain ⟨⟨n, hn⟩, attributes, hresolve, hkey⟩ := exists_instance hS hk hearlier hc
  obtain ⟨⟨n', hn'⟩, attributes', hresolve', hkey'⟩ := exists_instance hS hk' hboth hc'
  refine ⟨n, n', hn, hn', ?_⟩
  -- the first instance is still in its place after the second request
  have htidy₁ := (tidy_empty.after (hearlier.append hone)).2
  have hgrows := (htidy₁.after (hlater.append hone')).1
  have hsplit : earlier ++ (k, declared) :: later ++ [(k', declared')] =
      earlier ++ [(k, declared)] ++ (later ++ [(k', declared')]) := by simp
  rw [hsplit, after_append] at hn'
  rw [((htidy₁.after (hlater.append hone')).2).number_eq_iff (hn.mono hgrows) hn', hkey, hkey']
  constructor
  · intro heq
    obtain ⟨hname, rfl⟩ := ConstraintKey.mk.inj heq
    exact ⟨hS hk.self hk'.self hname, attributes, hresolve, hresolve'⟩
  · rintro ⟨rfl, both, hboth, hboth'⟩
    obtain rfl := Except.ok.inj (hresolve.symm.trans hboth)
    obtain rfl := Except.ok.inj (hresolve'.symm.trans hboth')
    rfl

/-! ### Bounds -/

namespace Bounds

/-- A bound, which is zero unless it is declared. -/
def least : Kind :=
  ⟨"least", some 2, none, [⟨"value", some (.int 0)⟩],
    [⟨fun _ => true, fun _ _ => .ok (.truth .reference)⟩], []⟩

/-- The bits of not-a-number. -/
def nan : Attribute := .float 0x7FF8000000000000

/-- A kind that expands into a bound, which is not a number unless it is declared. -/
def floor : Kind :=
  ⟨"floor", none, some "too low", [⟨"level", some nan⟩], [], [⟨least, [("value", .outer "level")]⟩]⟩

/-- A kind whose second part refers to an attribute that it does not have. -/
def broken : Kind :=
  ⟨"broken", none, none, [], [], [.ofTarget least, ⟨least, [("value", .outer "level")]⟩]⟩

def kinds : List Kind := [least, floor, broken]

theorem distinct : Kind.Distinct (· ∈ kinds) := by
  have hnodup : (kinds.map (·.name)).Nodup := by decide
  intro k k' hk hk' hname
  exact List.inj_on_of_nodup_map hnodup hk hk' hname

theorem defined : ∀ k ∈ kinds, k.define = .ok k := by
  intro k hk
  simp only [kinds, List.mem_cons, List.not_mem_nil, or_false] at hk
  rcases hk with rfl | rfl | rfl <;> rfl

theorem every_least : least.Every (· ∈ kinds) := ⟨by simp [kinds, least], trivial⟩

theorem every_floor : floor.Every (· ∈ kinds) := ⟨by simp [kinds, floor], every_least, trivial⟩

theorem every_broken : broken.Every (· ∈ kinds) :=
  ⟨by simp [kinds, broken], every_least, every_least, trivial⟩

theorem declared_broken : DeclaredOf (· ∈ kinds) [(broken, .empty)] := by
  intro d hd
  rw [List.mem_singleton.1 hd]
  exact every_broken

/-- The attributes of a floor at a level that is not a number. -/
def atNan : Attributes := Attributes.empty.insert "level" nan

/-- A request that fails at its second part has interned the first. After it a floor is one instance
with the floor at the level that is the default, which is not a number. -/
theorem default_floor_is_floor_at_nan :
    (broken.internedAfter [] .empty).isOk = false ∧
    (empty.after [(broken, .empty)]).size = 1 ∧
    ∃ n c c', (empty.after [(broken, .empty), (floor, .empty)]).Holds n c ∧
      (empty.after [(broken, .empty), (floor, .empty), (broken, .empty), (floor, atNan)]).Holds n c' := by
  refine ⟨by decide +kernel, by decide +kernel, ?_⟩
  have hshared := interned_constraints_are_shared distinct defined declared_broken declared_broken
    every_floor every_floor
  obtain ⟨c, hc⟩ : ∃ c, floor.internedAfter [(broken, .empty)] .empty = .ok c :=
    exists_of_isOk (by decide +kernel)
  obtain ⟨c', hc'⟩ : ∃ c', floor.internedAfter [(broken, .empty), (floor, .empty), (broken, .empty)]
      atNan = .ok c' := exists_of_isOk (by decide +kernel)
  obtain ⟨n, n', hn, hn', hsame⟩ := hshared.2.2.2 .empty atNan c c' hc hc'
  obtain ⟨attributes, hdefault⟩ : ∃ attributes, floor.resolve .empty = .ok attributes :=
    exists_of_isOk (by decide +kernel)
  have hnan : floor.resolve atNan = floor.resolve .empty := by decide +kernel
  obtain rfl := hsame.2 ⟨rfl, attributes, hdefault, hnan.trans hdefault⟩
  exact ⟨n, c, c', hn, hn'⟩

end Bounds

end Validation
