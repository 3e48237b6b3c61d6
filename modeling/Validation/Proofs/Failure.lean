import Validation.Failure
import Validation.Proofs.Lookup

/-!
# Parameters of failures

A parameter that is set again keeps its place, so names that stand once in a failure still do, and
setting parameters changes nothing else of the failure.

* `Failure.setParams_eq`: what setting parameters changes.
* `Failure.param?_setParams`: which values the parameters have then.
-/

namespace Validation

theorem mem_setField {β : Type} {name : String} {value : β} {fields : List (String × β)}
    {f : String × β} (h : f ∈ setField name value fields) : f ∈ fields ∨ f = (name, value) := by
  induction fields with
  | nil => exact .inr (List.mem_singleton.1 h)
  | cons g fields ih =>
    obtain ⟨n, x⟩ := g
    unfold setField at h
    split at h
    · rcases List.mem_cons.1 h with rfl | h
      · exact .inr rfl
      · exact .inl (List.mem_cons_of_mem _ h)
    · rcases List.mem_cons.1 h with rfl | h
      · exact .inl List.mem_cons_self
      · exact (ih h).imp_left (List.mem_cons_of_mem _)

theorem keys_setField {β : Type} (name : String) (value : β) (fields : List (String × β)) :
    (setField name value fields).map (·.1) =
      if name ∈ fields.map (·.1) then fields.map (·.1) else fields.map (·.1) ++ [name] := by
  induction fields with
  | nil => simp [setField]
  | cons head rest ih =>
    obtain ⟨n, v⟩ := head
    unfold setField
    split
    case isTrue heq => simp [heq]
    case isFalse hne =>
      have hname : name ≠ n := fun heq => hne heq.symm
      rw [List.map_cons, ih]
      split_ifs with hrest <;> simp_all

namespace Failure

/-- Setting parameters changes the parameters only. -/
theorem setParams_eq (f : Failure) (params : List (String × String)) :
    f.setParams params = { f with
      params := params.foldl (fun fields (name, value) => setField name value fields) f.params } := by
  induction params generalizing f with
  | nil => rfl
  | cons p rest ih => exact ih (f.setParam p.1 p.2)

@[simp]
theorem code_setParam (f : Failure) (name value : String) :
    (f.setParam name value).code = f.code := rfl

@[simp]
theorem code_setParams (f : Failure) (params : List (String × String)) :
    (f.setParams params).code = f.code := by
  rw [setParams_eq]

/-- A parameter has the value that is set, where each name is set once, and else the one before. -/
theorem param?_setParams {params : List (String × String)} (hparams : (params.map (·.1)).Nodup)
    (f : Failure) (name : String) :
    (f.setParams params).param? name = (params.lookup name).or (f.param? name) := by
  induction params generalizing f with
  | nil => rfl
  | cons p rest ih =>
    obtain ⟨n, value⟩ := p
    obtain ⟨hnot, hrest⟩ := List.nodup_cons.1 hparams
    have hset : (f.setParams ((n, value) :: rest)).param? name =
        (rest.lookup name).or ((f.setParam n value).param? name) := ih hrest (f.setParam n value)
    rw [hset, List.lookup_cons]
    by_cases heq : name = n
    · -- the name is not set again behind its first setting
      subst heq
      have hnone : rest.lookup name = none := by
        cases hlookup : rest.lookup name with
        | none => rfl
        | some value' => exact absurd (List.mem_map_of_mem (mem_of_lookup hlookup)) hnot
      have hself : (f.setParam name value).param? name = some value :=
        lookup_setField_self name value f.params
      rw [hnone, hself, beq_self_eq_true]
      rfl
    · have hother : (f.setParam n value).param? name = f.param? name :=
        lookup_setField_of_ne heq value f.params
      rw [hother, beq_eq_false_iff_ne.2 heq]

/-- Names that stand once still do after a parameter is set. -/
theorem nodup_setParam {f : Failure} (h : (f.params.map (·.1)).Nodup) (name value : String) :
    ((f.setParam name value).params.map (·.1)).Nodup := by
  have hkeys := keys_setField name value f.params
  rw [setParam]
  simp only [hkeys]
  split_ifs with hmem
  · exact h
  · exact h.append (List.nodup_singleton name) (by simpa using hmem)

theorem nodup_setParams {f : Failure} (h : (f.params.map (·.1)).Nodup)
    (params : List (String × String)) : ((f.setParams params).params.map (·.1)).Nodup := by
  induction params generalizing f with
  | nil => exact h
  | cons p rest ih => exact ih (nodup_setParam h p.1 p.2)

end Failure

end Validation
