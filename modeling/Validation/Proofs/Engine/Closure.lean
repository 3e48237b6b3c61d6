import Mathlib.Data.List.Perm.Subperm
import Validation.Proofs.Engine.Orderly

/-!
# Closed engines

A request that succeeds leaves an engine that is closed: what is public cascades into public
classes only. While the request runs, that holds up to the classes that are visited, some of which
are still in progress; in the end none is. A request that fails may leave a class public that
cascades into one that was in progress.

* `Engine.Closed`: what is public cascades into public classes only.
* `Engine.Clear`: a root with all classes that it reaches is public, which it stays.
* `Later.closed_of_acyclic`: only a failed search through a cycle leaves a closed engine open.
* `Engine.Swept`: how far a search through the classes has come.
* `Engine.Led`: where it has come from.
-/

namespace Validation.Engine

variable {P : Constraint → Prop} {S : Kind → Prop} {e e' : Engine} {root : Root} {t : Node}
  {visited visited' visited'' : List String}

/-- **What is public cascades into public classes only.** -/
def Closed (e : Engine) : Prop :=
  ∀ root, Public e root → ∀ t, e.trees.lookup root = some t →
    ∀ name ∈ t.cascades, Public e (.ofClass name)

/-- **The root and every class that it reaches** have been found to be free of errors. -/
def Clear (e : Engine) (root : Root) : Prop :=
  Public e root ∧ ∀ name, Reaches e root name → Public e (.ofClass name)

theorem Reaches.cons {name name' : String} (h : Reaches e (.ofClass name) name')
    (ht : e.trees.lookup root = some t) (hname : name ∈ t.cascades) : Reaches e root name' := by
  induction h with
  | one ht' hname' => exact (Reaches.one ht hname).next ht' hname'
  | next _ ht' hname' ih => exact ih.next ht' hname'

theorem Clear.step (h : Clear e root) (ht : e.trees.lookup root = some t) {name : String}
    (hname : name ∈ t.cascades) : Clear e (.ofClass name) :=
  ⟨h.2 name (.one ht hname), fun name' hname' => h.2 name' (hname'.cons ht hname)⟩

/-- **What is clear stays clear**, whatever is asked for later. -/
theorem Clear.grows (h : Clear e root) (he : Orderly P S e) (hgrows : Grows e e') :
    Clear e' root := by
  have hreaches : ∀ name, Reaches e' root name → Reaches e root name := by
    intro name hname
    induction hname with
    | one ht hname => exact .one (he.tree_eq hgrows h.1 ht) hname
    | next _ ht hname ih => exact ih.next (he.tree_eq hgrows (h.2 _ ih) ht) hname
  exact ⟨h.1.grows hgrows, fun name hname => (h.2 name (hreaches name hname)).grows hgrows⟩

/-- In a closed engine, and only there, all that is public is clear. -/
theorem closed_iff : Closed e ↔ ∀ root, Public e root → Clear e root := by
  constructor
  · intro hclosed root hroot
    refine ⟨hroot, fun name hname => ?_⟩
    induction hname with
    | one ht hname => exact hclosed root hroot _ ht _ hname
    | next _ ht hname ih => exact hclosed _ ih _ ht _ hname
  · intro hclear root hroot t ht name hname
    exact (hclear root hroot).2 name (.one ht hname)

/-- **A closed engine stays closed** if no class that becomes public leads back to itself, even when
requests fail. -/
theorem Later.closed_of_acyclic (he : Orderly P S e) (h : Later P S e e') (hclosed : Closed e)
    (hacyclic : ∀ name, Public e' (.ofClass name) → ¬ Public e (.ofClass name) →
      ¬ Reaches e' (.ofClass name) name) : Closed e' := by
  intro root hroot t ht name hname
  by_cases hold : Public e root
  · exact (hclosed root hold t (he.tree_eq h.grows hold ht) name hname).grows h.grows
  · rcases h.closed root hroot hold t ht name hname with hpublic | ⟨own, rfl, hreaches⟩
    · exact hpublic
    · exact absurd (hreaches.cons ht hname) (hacyclic own hroot hold)

/-- How far a search has come that started in the engine `e₀`, or a part of it that started with the
classes of `visited` and has now visited those of `visited'`. -/
structure Swept (e₀ e : Engine) (visited visited' : List String) : Prop where
  /-- What has become public cascades into public classes and those of `visited` only. -/
  closed : ∀ root, Public e root → ¬ Public e₀ root → ∀ t, e.trees.lookup root = some t →
    ∀ name ∈ t.cascades, name ∈ visited ∨ Public e (.ofClass name)
  kept : ∀ name ∈ visited, name ∈ visited'
  added : ∀ name ∈ visited', name ∈ visited ∨ Public e (.ofClass name)
  nodup : visited'.Nodup
  registered : ∀ name ∈ visited', name ∈ e.classNames

theorem Swept.start (e : Engine) : Swept e e [] [] :=
  ⟨fun _ h hnot => absurd h hnot, by simp, by simp, List.nodup_nil, by simp⟩

/-- **In the end a closed engine is closed again.** -/
theorem Swept.finish {e₀ : Engine} (h : Swept e₀ e [] visited) (he₀ : Orderly P S e₀)
    (hgrows : Grows e₀ e) (hclosed : Closed e₀) : Closed e := by
  intro root hroot t ht name hname
  by_cases hold : Public e₀ root
  · exact (hclosed root hold t (he₀.tree_eq hgrows hold ht) name hname).grows hgrows
  · exact (h.closed root hroot hold t ht name hname).resolve_left List.not_mem_nil

namespace Swept

variable {e₀ : Engine}

/-- A search goes on from where it has come. -/
theorem trans (h : Swept e₀ e visited visited') (hgrows : Grows e e')
    (h' : Swept e₀ e' visited' visited'') : Swept e₀ e' visited visited'' := by
  have hadded : ∀ name, name ∈ visited' ∨ Public e' (.ofClass name) →
      name ∈ visited ∨ Public e' (.ofClass name) := by
    rintro name (hname | hpublic)
    · exact (h.added name hname).imp_right (·.grows hgrows)
    · exact .inr hpublic
  exact ⟨fun root hroot hnew t ht name hname =>
      hadded name (h'.closed root hroot hnew t ht name hname),
    fun name hname => h'.kept name (h.kept name hname),
    fun name hname => hadded name (h'.added name hname), h'.nodup, h'.registered⟩

/-- A new search starts with the classes visited by now. -/
theorem again (h : Swept e₀ e visited visited') : Swept e₀ e visited' visited' :=
  ⟨fun root hroot hnew t ht name hname =>
      (h.closed root hroot hnew t ht name hname).imp_left (h.kept name),
    fun _ hname => hname, fun _ hname => .inl hname, h.nodup, h.registered⟩

/-- A class that is registered and not visited comes next. -/
theorem enter (h : Swept e₀ e visited visited') (root : Root)
    (hnew : ∀ name, root = .ofClass name → name ∉ visited' ∧ name ∈ e.classNames) :
    Swept e₀ e (root.className?.toList ++ visited') (root.className?.toList ++ visited') := by
  refine ⟨fun root' hroot' hnew' t ht name hname =>
      (h.again.closed root' hroot' hnew' t ht name hname).imp_left (List.mem_append_right _),
    fun _ hname => hname, fun _ hname => .inl hname, ?_, fun name hname => ?_⟩
  · cases root with
    | ofClass name => exact List.nodup_cons.2 ⟨(hnew name rfl).1, h.nodup⟩
    | ofType type => exact h.nodup
  · rcases List.mem_append.1 hname with hname | hname
    · cases root with
      | ofClass className =>
        rw [List.mem_singleton.1 hname]
        exact (hnew className rfl).2
      | ofType type => cases hname
    · exact h.registered name hname

/-- A root whose search is over becomes public. -/
theorem publish (root : Root) (h : Swept e₀ e (root.className?.toList ++ visited) visited')
    (ht : e.trees.lookup root = some t)
    (hcascades : ∀ name ∈ t.cascades,
      name ∈ root.className?.toList ++ visited ∨ Public e (.ofClass name))
    (htrees : e'.trees = e.trees) (hclasses : e'.classes = e.classes)
    (hpublic : ∀ root', Public e' root' ↔ Public e root' ∨ root' = root) :
    Swept e₀ e' visited visited' := by
  -- the class of the root was in its search, and is public now
  have hown : ∀ name, name ∈ root.className?.toList ++ visited ∨ Public e (.ofClass name) →
      name ∈ visited ∨ Public e' (.ofClass name) := by
    rintro name (hname | hname)
    · rcases List.mem_append.1 hname with hname | hname
      · cases root with
        | ofClass className =>
          rw [List.mem_singleton.1 hname]
          exact .inr ((hpublic _).2 (.inr rfl))
        | ofType type => cases hname
      · exact .inl hname
    · exact .inr ((hpublic _).2 (.inl hname))
  refine ⟨fun root' hroot' hnew' t' ht' name hname => hown name ?_, fun name hname => ?_,
    fun name hname => hown name (h.added name hname), h.nodup, fun name hname => ?_⟩
  · rw [htrees] at ht'
    rcases (hpublic root').1 hroot' with hroot' | rfl
    · exact h.closed root' hroot' hnew' t' ht' name hname
    · rw [ht] at ht'
      cases ht'
      exact hcascades name hname
  · exact h.kept name (List.mem_append_right _ hname)
  · rw [classNames, hclasses]
    exact h.registered name hname

/-- A tree that is made does not change what is closed. -/
theorem tree (he : Orderly P S e) (h : Swept e₀ e visited visited')
    (hcompiled : e'.compiled = e.compiled) (hanalysed : e'.analysed = e.analysed)
    (hclasses : e'.classes = e.classes)
    (htrees : ∀ root' t', e'.trees.lookup root' = some t' →
      e.trees.lookup root' = some t' ∨ root' = root ∧ e.trees.lookup root = none) :
    Swept e₀ e' visited visited' := by
  have hpublic : ∀ root, Public e' root ↔ Public e root := by
    intro root
    rw [Public, Public, hcompiled, hanalysed]
  refine ⟨fun root' hroot' hnew' t' ht' name hname => ?_, h.kept, fun name hname => ?_, h.nodup,
    fun name hname => ?_⟩
  · rw [hpublic] at hroot' ⊢
    rcases htrees root' t' ht' with ht' | ⟨rfl, hnone⟩
    · exact h.closed root' hroot' hnew' t' ht' name hname
    · obtain ⟨t, -, ht, -⟩ := he.exists_tree hroot'
      rw [hnone] at ht
      cases ht
  · rw [hpublic]
    exact h.added name hname
  · rw [classNames, hclasses]
    exact h.registered name hname

end Swept

/-- What is visited is public, or in progress: the search has come from there to the root. -/
def Led (e : Engine) (visited : List String) (root : Root) : Prop :=
  ∀ name ∈ visited, Public e (.ofClass name) ∨ root = .ofClass name ∨ Returns e name root

namespace Led

variable {e₀ : Engine}

theorem enter (root : Root) (h : ∀ name ∈ visited, Public e (.ofClass name) ∨ Returns e name root) :
    Led e (root.className?.toList ++ visited) root := by
  intro name hname
  rcases List.mem_append.1 hname with hname | hname
  · cases root with
    | ofClass own => exact .inr (.inl (by rw [List.mem_singleton.1 hname]))
    | ofType type => cases hname
  · exact (h name hname).imp_right .inr

/-- From a class in progress the search goes on to what the root cascades into. -/
theorem step (h : Led e visited root) (ht : e.trees.lookup root = some t) {name : String}
    (hname : name ∈ t.cascades) (hgrows : Grows e e') (hswept : Swept e₀ e' visited visited') :
    ∀ name' ∈ visited', Public e' (.ofClass name') ∨ Returns e' name' (.ofClass name) := by
  intro name' hname'
  rcases hswept.added name' hname' with hname' | hpublic
  · rcases h name' hname' with hpublic | rfl | ⟨own, rfl, hreaches⟩
    · exact .inl (hpublic.grows hgrows)
    · exact .inr ⟨name, rfl, (Reaches.one ht hname).grows hgrows⟩
    · exact .inr ⟨name, rfl, (hreaches.next ht hname).grows hgrows⟩
  · exact .inl hpublic

/-- What the root cascades into is public in the end, or leads back to the root. -/
theorem finish (h : Led e visited root) (ht : e.trees.lookup root = some t) (hgrows : Grows e e')
    (hcascades : ∀ name ∈ t.cascades, name ∈ visited ∨ Public e' (.ofClass name)) :
    ∀ name ∈ t.cascades, Public e' (.ofClass name) ∨ Returns e' name root := by
  intro name hname
  rcases hcascades name hname with hvisited | hpublic
  · rcases h name hvisited with hpublic | rfl | hreturns
    · exact .inl (hpublic.grows hgrows)
    · exact .inr ⟨name, rfl, (Reaches.one ht hname).grows hgrows⟩
    · exact .inr (hreturns.grows hgrows)
  · exact .inl hpublic

end Led

/-- A root becomes public. -/
theorem Ran.publish (he : Orderly P S e') (hgrows : Grows e e') (hclasses : e'.classes = e.classes)
    (hpublic : ∀ root', Public e' root' ↔ Public e root' ∨ root' = root)
    (ht : e.trees.lookup root = some t)
    (hcascades : ∀ name ∈ t.cascades, Public e (.ofClass name) ∨ Returns e name root) :
    Ran P S e e' := by
  refine ⟨⟨he, hgrows, fun root' hroot' hnew t' ht' name hname => ?_⟩, hclasses⟩
  obtain rfl := ((hpublic root').1 hroot').resolve_left hnew
  have htt : t' = t := Option.some.inj (ht'.symm.trans (hgrows.trees _ _ ht))
  exact (hcascades name (htt ▸ hname)).imp (·.grows hgrows) (·.grows hgrows)

end Validation.Engine
