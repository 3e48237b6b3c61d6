import Mathlib.Data.List.Infix
import Mathlib.Data.List.Nodup

/-!
# Lists of entries

What is found under a key in a list of entries, where each key stands once, which entry is at a
place of a list that is only added to or has one entry replaced, what is found first, what is left of
a list without repetitions, and how a list is put together again from its parts.
-/

namespace Validation

variable {α β : Type}

/-- An entry keeps its place in a list that is added to at its end. -/
theorem getElem?_of_prefix {l l' : List α} (h : l <+: l') {n : Nat} {a : α} (ha : l[n]? = some a) :
    l'[n]? = some a := by
  obtain ⟨hn, rfl⟩ := List.getElem?_eq_some_iff.1 ha
  exact List.prefix_iff_getElem?.1 h n hn

/-- What is found first is a given member that is looked for or stands before it. -/
theorem find?_of_pairwise {R : α → α → Prop} {l : List α} {p : α → Bool} (h : l.Pairwise R) {a : α}
    (ha : a ∈ l) (hp : p a = true) : ∃ b, l.find? p = some b ∧ p b = true ∧ (b = a ∨ R b a) := by
  induction h with
  | nil => cases ha
  | @cons b l hb _ ih =>
    rw [List.find?_cons]
    cases hpb : p b with
    | true => exact ⟨b, rfl, hpb, (List.mem_cons.1 ha).imp Eq.symm (hb a)⟩
    | false =>
      refine ih ((List.mem_cons.1 ha).resolve_left ?_)
      rintro rfl
      rw [hp] at hpb
      cases hpb

/-- After one member is replaced, a member is the new one or was there before. -/
theorem getElem?_set_cases {l : List α} {i j : Nat} {a b : α}
    (h : (l.set i a)[j]? = some b) : j = i ∧ b = a ∨ j ≠ i ∧ l[j]? = some b := by
  rw [List.getElem?_set] at h
  split_ifs at h with hij hlt
  · exact .inl ⟨hij.symm, (Option.some.inj h).symm⟩
  · exact .inr ⟨fun hji => hij hji.symm, h⟩

/-- Of a list made of all members, the part of the member at one place. -/
theorem flatMap_zipIdx_at (f : α → List β) (l : List α) (start j : Nat) :
    ((l.zipIdx start).flatMap fun e => if e.2 = start + j then f e.1 else []) =
      (l[j]?.map f).getD [] := by
  induction l generalizing start j with
  | nil => rfl
  | cons a l ih =>
    rw [List.zipIdx_cons, List.flatMap_cons]
    cases j with
    | zero =>
      have hrest : ((l.zipIdx (start + 1)).flatMap fun e => if e.2 = start + 0 then f e.1 else []) =
          [] := by
        rw [List.flatMap_eq_nil_iff]
        intro e he
        have hle := List.le_snd_of_mem_zipIdx he
        exact if_neg (by omega)
      rw [hrest, if_pos (Nat.add_zero start).symm, List.append_nil]
      rfl
    | succ j =>
      rw [show start + (j + 1) = start + 1 + j by omega, ih, if_neg (by omega), List.nil_append,
        List.getElem?_cons_succ]

variable [BEq α] [LawfulBEq α]

theorem nodup_eraseDups (l : List α) : l.eraseDups.Nodup := by
  induction hn : l.length using Nat.strongRecOn generalizing l with
  | _ n ih =>
    cases l with
    | nil => simp
    | cons a l =>
      have hlen : (l.filter fun b => !b == a).length < n := by
        have := List.length_filter_le (fun b => !b == a) l
        rw [← hn, List.length_cons]
        omega
      rw [List.eraseDups_cons, List.nodup_cons, List.mem_eraseDups]
      exact ⟨by simp, ih _ hlen _ rfl⟩

/-- One more member is left of a list exactly if it is new. -/
theorem eraseDups_concat (l : List α) (a : α) [Decidable (a ∈ l.eraseDups)] :
    (l ++ [a]).eraseDups = if a ∈ l.eraseDups then l.eraseDups else l.eraseDups ++ [a] := by
  rw [List.eraseDups_append]
  by_cases ha : a ∈ l
  · rw [if_pos (List.mem_eraseDups.2 ha)]
    simp [List.removeAll, ha]
  · rw [if_neg (mt List.mem_eraseDups.1 ha)]
    simp [List.removeAll, ha, List.eraseDups_cons]

/-- The members of a list, told apart by a key, are those of all its keys together. -/
theorem perm_flatMap_filter (key : β → α) {keys : List α}
    (hnodup : keys.Nodup) {l : List β} (hkeys : ∀ a ∈ l, key a ∈ keys) :
    (keys.flatMap fun k => l.filter (key · == k)).Perm l := by
  induction keys generalizing l with
  | nil =>
    obtain rfl : l = [] := List.eq_nil_iff_forall_not_mem.2 fun a ha => List.not_mem_nil (hkeys a ha)
    exact .nil
  | cons k keys ih =>
    obtain ⟨hnot, hnodup⟩ := List.nodup_cons.1 hnodup
    -- what has the first key is in no later part
    have hrest : (keys.flatMap fun k' => l.filter (key · == k')) =
        keys.flatMap fun k' => (l.filter (!key · == k)).filter (key · == k') := by
      refine List.flatMap_congr fun k' hk' => ?_
      rw [List.filter_filter]
      refine List.filter_congr fun a _ => ?_
      by_cases ha : key a = k'
      · have hne : key a ≠ k := fun heq => hnot (heq ▸ ha ▸ hk')
        simp [ha, ha ▸ hne]
      · simp [ha]
    have hall := ih hnodup (l := l.filter (!key · == k)) fun a ha => by
      obtain ⟨hmem, hne⟩ := List.mem_filter.1 ha
      refine (List.mem_cons.1 (hkeys a hmem)).resolve_left fun heq => ?_
      rw [heq, beq_self_eq_true] at hne
      cases hne
    rw [List.flatMap_cons, hrest]
    exact (hall.append_left _).trans (List.filter_append_perm _ l)

variable {l : List (α × β)} {key : α} {value : β}

theorem mem_of_lookup (h : l.lookup key = some value) : (key, value) ∈ l := by
  obtain ⟨l₁, l₂, rfl, -⟩ := List.lookup_eq_some_iff.1 h
  exact List.mem_append_right _ List.mem_cons_self

theorem not_mem_keys_of_lookup (h : l.lookup key = none) : key ∉ l.map (·.1) := by
  intro hmem
  obtain ⟨e, he, rfl⟩ := List.mem_map.1 hmem
  have hne := List.lookup_eq_none_iff.1 h e he
  simp at hne

theorem exists_lookup_of_mem_keys (h : key ∈ l.map (·.1)) : ∃ value, l.lookup key = some value := by
  cases hlookup : l.lookup key with
  | some value => exact ⟨value, rfl⟩
  | none => exact absurd h (not_mem_keys_of_lookup hlookup)

/-- Where each key stands once, an entry is what is found under its key. -/
theorem lookup_of_mem (hl : (l.map (·.1)).Nodup) (h : (key, value) ∈ l) :
    l.lookup key = some value := by
  obtain ⟨value', hlookup⟩ := exists_lookup_of_mem_keys (List.mem_map_of_mem (f := (·.1)) h)
  have heq := List.inj_on_of_nodup_map hl (mem_of_lookup hlookup) h rfl
  rw [hlookup, (Prod.mk.inj heq).2]

theorem nodup_keys_append (hl : (l.map (·.1)).Nodup) (h : l.lookup key = none) :
    ((l ++ [(key, value)]).map (·.1)).Nodup := by
  rw [List.map_append, List.map_singleton]
  exact hl.append (List.nodup_singleton _) (by simpa using not_mem_keys_of_lookup h)

end Validation
