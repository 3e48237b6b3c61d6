import Validation.Constraint.Cache
import Validation.Proofs.Except
import Validation.Proofs.Lookup
import Validation.Proofs.Operation

/-!
# What is interned

A constraint is put together from its kind, its attributes and its parts, which are interned before
it. So what holds of every constraint that is put together in this way holds of all interned ones,
whether the request that interned them has failed or not.

* `Kind.Every`: a property of a kind and all kinds that it expands into.
* `Interned`: what is interned for a kind and declared attributes.
* `keeps_internAt`: interning keeps a property of constraints.
-/

namespace Validation

namespace Kind

variable (S : Kind → Prop)

mutual

/-- A kind and all kinds that it expands into have a property. -/
def Every : Kind → Prop
  | ⟨name, order, message, attributes, factories, parts⟩ =>
    S ⟨name, order, message, attributes, factories, parts⟩ ∧ EveryPart parts

/-- The kinds of parts, and all kinds that they expand into, have a property. -/
def EveryPart : List (Part Kind) → Prop
  | [] => True
  | ⟨target, _⟩ :: rest => Every target ∧ EveryPart rest

end

variable {S} {S' : Kind → Prop}

mutual

theorem Every.mono (himp : ∀ k, S k → S' k) : ∀ {k : Kind}, k.Every S → k.Every S'
  | ⟨_, _, _, _, _, _⟩, h => ⟨himp _ h.1, EveryPart.mono himp h.2⟩

theorem EveryPart.mono (himp : ∀ k, S k → S' k) : ∀ {parts : List (Part Kind)},
    EveryPart S parts → EveryPart S' parts
  | [], _ => trivial
  | ⟨_, _⟩ :: _, h => ⟨Every.mono himp h.1, EveryPart.mono himp h.2⟩

end

mutual

theorem every_of_forall (h : ∀ k, S k) : ∀ k : Kind, k.Every S
  | ⟨_, _, _, _, _, _⟩ => ⟨h _, everyPart_of_forall h _⟩

theorem everyPart_of_forall (h : ∀ k, S k) : ∀ parts : List (Part Kind), EveryPart S parts
  | [] => trivial
  | ⟨_, _⟩ :: _ => ⟨every_of_forall h _, everyPart_of_forall h _⟩

end

theorem Every.parts {k : Kind} (h : k.Every S) : EveryPart S k.parts := by
  cases k
  exact h.2

theorem Every.self {k : Kind} (h : k.Every S) : S k := by
  cases k
  exact h.1

theorem EveryPart.target {parts : List (Part Kind)} (h : EveryPart S parts) :
    ∀ part ∈ parts, part.target.Every S := by
  induction parts with
  | nil => exact nofun
  | cons part rest ih => exact List.forall_mem_cons.2 ⟨h.1, ih h.2⟩

end Kind

/-- All interned constraints have a property, and each stands under its own key. -/
def ConstraintCache.All (P : Constraint → Prop) (cache : ConstraintCache) : Prop :=
  ∀ e ∈ cache.entries, P e.2 ∧ e.2.key = e.1

namespace ConstraintCache

variable {P : Constraint → Prop} {cache : ConstraintCache}

theorem all_empty : empty.All P := fun _ h => absurd h List.not_mem_nil

theorem All.find? (h : cache.All P) {key : ConstraintKey} {c : Constraint}
    (hc : cache.find? key = some c) : P c ∧ c.key = key := h (key, c) (mem_of_lookup hc)

theorem All.insert (h : cache.All P) {key : ConstraintKey} {c : Constraint} (hc : P c)
    (hkey : c.key = key) : (cache.insert key c).All P := by
  unfold ConstraintCache.insert
  split
  · exact h
  · intro e he
    rcases List.mem_append.1 he with he | he
    · exact h e he
    · rw [List.mem_singleton.1 he]
      exact ⟨hc, hkey⟩

end ConstraintCache

variable {P : Constraint → Prop} {S : Kind → Prop}

/-- The constraint is interned for the kind and the declared attributes. -/
def Interned (P : Constraint → Prop) (kind : Kind) (declared : Attributes) (c : Constraint) : Prop :=
  P c ∧ ∃ attributes, kind.resolve declared = .ok attributes ∧ c.key = ⟨kind.name, attributes⟩

/-- The constraint is interned for a part of one of the given kind and attributes. -/
def InternedPart (P : Constraint → Prop) (outerKind : String) (outer : Attributes)
    (part : Part Kind) (c : Constraint) : Prop :=
  ∃ declared, part.instantiate outerKind outer = .ok declared ∧ Interned P part.target declared c

/-- A property that passes from a kind and from the parts of a constraint to the constraint. -/
def Assembles (P : Constraint → Prop) (S : Kind → Prop) : Prop :=
  ∀ kind attributes cs, S kind →
    List.Forall₂ (InternedPart P kind.name attributes) kind.parts cs →
    P (.assemble kind attributes cs)

theorem forall_of_internedParts {outerKind : String} {outer : Attributes} {parts : List (Part Kind)}
    {cs : List Constraint} (h : List.Forall₂ (InternedPart P outerKind outer) parts cs) :
    ∀ c ∈ cs, P c := by
  intro c hc
  obtain ⟨part, -, declared, -, hP, -⟩ := exists_mem_of_forall₂ h c hc
  exact hP

mutual

/-- **Interning keeps a property of constraints** that passes from the kind and the parts of a
constraint to the constraint. -/
theorem keeps_internAt (hP : Assembles P S) :
    ∀ (k : Kind) (depth : Nat) (declared : Attributes), k.Every S →
      Keeps (ConstraintCache.All P) (k.internAt depth declared) (Interned P k declared)
  | ⟨name, order, message, specs, factories, parts⟩, depth, declared, hk => by
    rw [Kind.internAt]
    obtain ⟨hS, hparts⟩ := hk
    split_ifs
    · exact keeps_throw
    refine keeps_bind keeps_liftM fun attributes hresolve => ?_
    -- a constraint that is found has the property, as all in the cache have
    have hfound : ∀ cache : ConstraintCache, cache.All P → ∀ c,
        cache.find? ⟨name, attributes⟩ = some c →
        Interned P ⟨name, order, message, specs, factories, parts⟩ declared c := by
      intro cache hcache c hc
      obtain ⟨hPc, hkey⟩ := hcache.find? hc
      exact ⟨hPc, attributes, hresolve, hkey⟩
    refine keeps_bind (keeps_get fun _ hs => hs) fun cache hcache => ?_
    split
    case h_1 interned hfind => exact keeps_pure (hfound cache hcache interned hfind)
    case h_2 =>
      refine keeps_bind (keeps_internParts hP parts _ _ _ hparts) fun cs hcs => ?_
      have hnew := hP ⟨name, order, message, specs, factories, parts⟩ attributes cs hS hcs
      refine keeps_bind (keeps_modify fun s hs => hs.insert hnew rfl) fun _ _ => ?_
      refine keeps_bind (keeps_get fun _ hs => hs) fun cache hcache => ?_
      refine keeps_pure ?_
      -- parts may have been interned under the key meanwhile, and then the first one stays
      cases hfind : cache.find? ⟨name, attributes⟩ with
      | none => exact ⟨hnew, attributes, hresolve, rfl⟩
      | some interned => exact hfound cache hcache interned hfind

theorem keeps_internParts (hP : Assembles P S) :
    ∀ (parts : List (Part Kind)) (depth : Nat) (outerKind : String) (outer : Attributes),
      Kind.EveryPart S parts →
      Keeps (ConstraintCache.All P) (Kind.internParts depth outerKind outer parts)
        (List.Forall₂ (InternedPart P outerKind outer) parts)
  | [], depth, outerKind, outer, _ => by
    rw [Kind.internParts]
    exact keeps_pure .nil
  | ⟨target, sources⟩ :: rest, depth, outerKind, outer, hparts => by
    rw [Kind.internParts]
    refine keeps_bind keeps_liftM fun declared hdeclared => ?_
    refine keeps_bind (keeps_internAt hP target depth declared hparts.1) fun c hc => ?_
    refine keeps_bind (keeps_internParts hP rest depth _ _ hparts.2) fun cs hcs => ?_
    exact keeps_pure (.cons ⟨declared, hdeclared, hc⟩ hcs)

end

end Validation
