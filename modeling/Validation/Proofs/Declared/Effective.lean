import Mathlib.Data.List.Forall2
import Mathlib.Data.List.Induction
import Validation.Node.Schema
import Validation.Proofs.Except
import Validation.Proofs.Lookup

/-!
# The declarations of a class that count

A class may declare a name any number of times, as a field or as a getter. One pass over the
declarations keeps a list with one declaration of each name, in which a later one may take the place
of an earlier one. Which one is left is told without the pass: the first declaration of the name
that is from the preferred source, or else the first one.

* `ClassSchema.pick?`: the declaration of a name that counts.
* `forall₂_consider`: one more declaration considered.
* `forall₂_foldl_consider`: what is chosen in one pass.
* `nodup_effectiveProperties`: an effective property is told by its name.
-/

namespace Validation

namespace ClassSchema

variable {preferred : PropertySource} {ps chosen : List Property} {p q : Property} {name : String}
  {names : List String}

/-- **The declaration of a name that counts**: the first one from the preferred source, or the first
one if none is. -/
def pick? (preferred : PropertySource) (ps : List Property) (name : String) : Option Property :=
  (ps.find? fun p => p.name = name ∧ p.source = preferred).or (ps.find? (·.name = name))

theorem name_of_pick? (h : pick? preferred ps name = some p) : p.name = name := by
  rcases Option.or_eq_some_iff.1 h with h | ⟨-, h⟩
  · have hp := List.find?_some h
    simp only [decide_eq_true_eq] at hp
    exact hp.1
  · simpa using List.find?_some h

theorem mem_of_pick? (h : pick? preferred ps name = some p) : p ∈ ps := by
  rcases Option.or_eq_some_iff.1 h with h | ⟨-, h⟩
  · exact List.mem_of_find?_eq_some h
  · exact List.mem_of_find?_eq_some h

/-- A declaration of another name does not count. -/
theorem pick?_concat_of_ne (h : p.name ≠ name) :
    pick? preferred (ps ++ [p]) name = pick? preferred ps name := by
  simp [pick?, List.find?_append, h]

/-- The first declaration of a name counts as long as it is the only one. -/
theorem pick?_concat_of_new (h : p.name ∉ ps.map (·.name)) :
    pick? preferred (ps ++ [p]) p.name = some p := by
  have hnone : ps.find? (·.name = p.name) = none := by
    rw [List.find?_eq_none]
    intro q hq heq
    exact h (List.mem_map.2 ⟨q, hq, by simpa using heq⟩)
  have hnone' : (ps.find? fun q => q.name = p.name ∧ q.source = preferred) = none := by
    rw [List.find?_eq_none] at hnone ⊢
    intro q hq heq
    exact hnone q hq (by simp only [decide_eq_true_eq] at heq ⊢; exact heq.1)
  rw [pick?, List.find?_append, List.find?_append, hnone, hnone']
  by_cases hp : p.source = preferred <;> simp [hp]

/-- A later declaration counts in place of an earlier one if it is the first from the preferred
source. -/
theorem pick?_concat_of_old (h : pick? preferred ps p.name = some q) :
    pick? preferred (ps ++ [p]) p.name =
      some (if q.source ≠ preferred ∧ p.source = preferred then p else q) := by
  rw [pick?, List.find?_append, List.find?_append]
  rcases Option.or_eq_some_iff.1 h with h | ⟨hnone, h⟩
  · have hq := List.find?_some h
    simp only [decide_eq_true_eq] at hq
    rw [h, Option.some_or, Option.some_or, if_neg fun hp => hp.1 hq.2]
  · have hq : q.source ≠ preferred := by
      intro hsource
      have hname : q.name = p.name := by simpa using List.find?_some h
      have := List.find?_eq_none.1 hnone q (List.mem_of_find?_eq_some h)
      simp [hname, hsource] at this
    rw [hnone, h, Option.none_or, Option.some_or]
    by_cases hp : p.source = preferred <;> simp [hq, hp]

/-- **One more declaration considered**, when those chosen so far are the ones that count. -/
theorem forall₂_consider
    (h : List.Forall₂ (fun name q => pick? preferred ps name = some q) names chosen)
    (hnames : names.Nodup) (hnew : p.name ∉ names → p.name ∉ ps.map (·.name)) :
    List.Forall₂ (fun name q => pick? preferred (ps ++ [p]) name = some q)
      (if p.name ∈ names then names else names ++ [p.name]) (consider preferred chosen p) := by
  induction h with
  | nil =>
    rw [if_neg List.not_mem_nil, List.nil_append, consider]
    exact .cons (pick?_concat_of_new (hnew List.not_mem_nil)) .nil
  | @cons name q names chosen hq hrest ih =>
    obtain ⟨hname, hnames⟩ := List.nodup_cons.1 hnames
    rw [consider, name_of_pick? hq]
    by_cases heq : name = p.name
    · -- the place of the name; what counts of the other names is as before
      subst heq
      rw [if_pos rfl, if_pos List.mem_cons_self]
      refine .cons (pick?_concat_of_old hq) ?_
      have hne : ∀ name' ∈ names, p.name ≠ name' := fun name' hmem heq => hname (heq ▸ hmem)
      refine ((List.forall₂_and_left _ _).2 ⟨hne, hrest⟩).imp ?_
      rintro name' q' ⟨hne, hq'⟩
      rw [pick?_concat_of_ne hne, hq']
    · have hmem : p.name ∈ name :: names ↔ p.name ∈ names := by simp [Ne.symm heq]
      have hhead : pick? preferred (ps ++ [p]) name = some q := by
        rw [pick?_concat_of_ne (Ne.symm heq), hq]
      have htail := ih hnames fun hnot => hnew (mt hmem.1 hnot)
      rw [if_neg heq]
      simp only [hmem]
      split_ifs at htail ⊢
      · exact .cons hhead htail
      · exact .cons hhead htail

/-- **What is chosen in one pass** is for each name, in the order of first declarations, the
declaration that counts. -/
theorem forall₂_foldl_consider (preferred : PropertySource) (ps : List Property) :
    List.Forall₂ (fun name q => pick? preferred ps name = some q) (ps.map (·.name)).eraseDups
      (ps.foldl (consider preferred) []) := by
  induction ps using List.reverseRecOn with
  | nil => exact .nil
  | append_singleton ps p ih =>
    rw [List.map_append, List.map_singleton, eraseDups_concat, List.foldl_append, List.foldl_cons,
      List.foldl_nil]
    exact forall₂_consider ih (nodup_eraseDups _) (mt List.mem_eraseDups.2)

/-- The effective properties are declared ones. -/
theorem mem_of_mem_effectiveProperties {c : ClassSchema} (h : p ∈ c.effectiveProperties preferred) :
    p ∈ c.properties := by
  obtain ⟨name, -, hp⟩ :=
    exists_mem_of_forall₂ (forall₂_foldl_consider preferred c.properties) p h
  exact mem_of_pick? hp

/-- **An effective property is told by its name.** -/
theorem nodup_effectiveProperties (c : ClassSchema) (preferred : PropertySource) :
    ((c.effectiveProperties preferred).map (·.name)).Nodup := by
  have hnames : ∀ {names : List String} {chosen : List Property},
      List.Forall₂ (fun name q => pick? preferred c.properties name = some q) names chosen →
      chosen.map (·.name) = names := by
    intro names chosen h
    induction h with
    | nil => rfl
    | cons hq _ ih => rw [List.map_cons, name_of_pick? hq, ih]
  rw [effectiveProperties, hnames (forall₂_foldl_consider preferred c.properties)]
  exact nodup_eraseDups _

theorem consider_of_new (h : p.name ∉ chosen.map (·.name)) :
    consider preferred chosen p = chosen ++ [p] := by
  induction chosen with
  | nil => rfl
  | cons q rest ih =>
    rw [List.map_cons, List.mem_cons, not_or] at h
    rw [consider, if_neg (Ne.symm h.1), ih h.2, List.cons_append]

/-- Of declarations of different names all count. -/
theorem foldl_consider_of_nodup (h : ((chosen ++ ps).map (·.name)).Nodup) :
    ps.foldl (consider preferred) chosen = chosen ++ ps := by
  induction ps generalizing chosen with
  | nil => rw [List.foldl_nil, List.append_nil]
  | cons p ps ih =>
    have hnew : p.name ∉ chosen.map (·.name) := by
      rw [List.map_append, List.map_cons] at h
      intro hmem
      exact (List.nodup_append.1 h).2.2 _ hmem _ List.mem_cons_self rfl
    rw [List.append_cons] at h
    rw [List.foldl_cons, consider_of_new hnew, ih h, ← List.append_cons]

/-- The declarations of a class that count, and no others. -/
def effective (schema : ClassSchema) (preferred : PropertySource) : ClassSchema :=
  { schema with properties := schema.effectiveProperties preferred }

theorem effectiveProperties_effective (schema : ClassSchema) (preferred : PropertySource) :
    (schema.effective preferred).effectiveProperties preferred =
      schema.effectiveProperties preferred :=
  foldl_consider_of_nodup (schema.nodup_effectiveProperties preferred)

end ClassSchema

end Validation
