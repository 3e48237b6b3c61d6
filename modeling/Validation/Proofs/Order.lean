import Validation.Compile.Slots
import Validation.Proofs.Lookup

/-!
# The order of places

Places in the order of checks are ordered linearly, with no place at all below every integer. The
places of a tree are worked off in strictly ascending order, so the state between two buckets is
told by one place: `before o` holds of the places done when the bucket of `o` starts, `upTo o` of
those done when it ends.

* `upTo_eq`: a bucket adds its own place and no other.
* `filter_upTo`: in a list in ascending order, what a bucket adds comes right after what was there.
* `filter_sort`: sorting keeps the order at each place.
* `ascending_bucketOrders`: the buckets of a tree, each once and ascending.
-/

namespace Validation.Order

@[simp]
theorem le_refl (a : Order) : a.le a = true := by cases a <;> simp [le]

@[simp]
theorem none_le (a : Order) : le none a = true := rfl

theorem le_trans {a b c : Order} (hab : a.le b = true) (hbc : b.le c = true) : a.le c = true := by
  cases a <;> cases b <;> cases c <;> simp_all [le]
  omega

theorem le_total (a b : Order) : a.le b = true ∨ b.le a = true := by
  cases a <;> cases b <;> simp [le]
  omega

theorem le_or_le (a b : Order) : (a.le b || b.le a) = true := Bool.or_eq_true_iff.2 (le_total a b)

theorem le_antisymm {a b : Order} (hab : a.le b = true) (hba : b.le a = true) : a = b := by
  cases a <;> cases b <;> simp_all [le]
  omega

/-- The later of two places. -/
def later (a b : Order) : Order := if a.le b then b else a

/-- The last of some places, or none at all. -/
def latest (places : List Order) : Order := places.foldr later none

/-- Whether a place comes before the place `o`. -/
def before (o x : Order) : Bool := !o.le x

/-- Whether a place is `o` or comes before it. -/
def upTo (o x : Order) : Bool := x.le o

/-- A property of places that holds of all places before one of which it holds. -/
def DownClosed (d : Order → Bool) : Prop := ∀ ⦃a b : Order⦄, a.le b = true → d b = true → d a = true

theorem before_downClosed (o : Order) : DownClosed (before o) := by
  intro a b hab hb
  simp only [before, Bool.not_eq_true', Bool.eq_false_iff] at hb ⊢
  exact fun hoa => hb (le_trans hoa hab)

theorem upTo_downClosed (o : Order) : DownClosed (upTo o) := fun _ _ hab hb => le_trans hab hb

/-- **A bucket adds its own place and no other.** -/
theorem upTo_eq (o x : Order) : upTo o x = (before o x || x == o) := by
  simp only [upTo, before]
  by_cases hxo : x = o
  · subst hxo; simp
  · have hne : ¬(x.le o = true ∧ o.le x = true) := fun h => hxo (le_antisymm h.1 h.2)
    have htot := le_total x o
    cases hle : x.le o <;> cases hge : o.le x <;> simp_all

theorem before_ne {o x : Order} (h : before o x = true) : (x == o) = false := by
  rw [beq_eq_false_iff_ne]
  rintro rfl
  simp [before] at h

@[simp]
theorem before_self (o : Order) : before o o = false := by simp [before]

@[simp]
theorem upTo_none (o : Order) : upTo o none = true := rfl

/-- The last place is done exactly when all are; no place at all counts as one more. -/
theorem DownClosed.latest {d : Order → Bool} (hd : DownClosed d) (places : List Order) :
    d (latest places) = (d none && places.all d) := by
  have key : ∀ a b : Order, d (later a b) = (d a && d b) := by
    intro a b
    unfold later
    split
    case isTrue hab =>
      have h := hd hab
      cases ha : d a <;> cases hb : d b <;> simp_all
    case isFalse hab =>
      have h := hd ((le_total a b).resolve_left hab)
      cases ha : d a <;> cases hb : d b <;> simp_all
  induction places with
  | nil => simp [Order.latest]
  | cons a places ih =>
    have hcons : Order.latest (a :: places) = later a (Order.latest places) := rfl
    rw [hcons, key, ih, List.all_cons, Bool.and_left_comm]

theorem latest_mem (places : List Order) : latest places = none ∨ latest places ∈ places := by
  induction places with
  | nil => exact .inl rfl
  | cons a places ih =>
    have hcons : latest (a :: places) = later a (latest places) := rfl
    rw [hcons]
    unfold later
    split
    · exact ih.imp_right (List.mem_cons_of_mem _)
    · exact .inr List.mem_cons_self

/-- Of what is not before a place, a bucket does the entries of the place itself. -/
theorem countP_not_before {α : Type} (o : Order) (place : α → Order) (members : List α) :
    members.countP (fun a => !before o (place a)) =
      members.countP (fun a => !upTo o (place a)) + members.countP (fun a => place a == o) := by
  induction members with
  | nil => rfl
  | cons a rest ih =>
    simp only [List.countP_cons, ih, upTo_eq]
    cases hb : before o (place a) with
    | true => simp [before_ne hb]
    | false => cases place a == o <;> simp only [Bool.or_false, Bool.or_true, Bool.not_false,
        Bool.not_true, if_true, Bool.false_eq_true, if_false] <;> omega

section Sorted

variable {α : Type}

/-- Entries in ascending order of their places. -/
def Sorted (entries : List (Order × α)) : Prop := entries.Pairwise fun a b => a.1.le b.1 = true

/-- **What a bucket adds comes last.** Of a list in ascending order, the part up to a place is the
part before it and then the entries of the place itself. -/
theorem filter_upTo {entries : List (Order × α)} (hs : Sorted entries) (o : Order) :
    entries.filter (upTo o ·.1) = entries.filter (before o ·.1) ++ entries.filter (·.1 == o) := by
  induction entries with
  | nil => rfl
  | cons e rest ih =>
    obtain ⟨hle, hrest⟩ := List.pairwise_cons.1 hs
    specialize ih hrest
    cases hb : before o e.1 with
    | true =>
      have hu : upTo o e.1 = true := by rw [upTo_eq, hb]; rfl
      simp only [List.filter_cons, hu, hb, before_ne hb, ih]
      rfl
    | false =>
      -- nothing behind an entry that is not before `o` is before `o`
      have hnone : rest.filter (before o ·.1) = [] := by
        rw [List.filter_eq_nil_iff]
        intro x hx hbx
        rw [before_downClosed o (hle x hx) hbx] at hb
        cases hb
      rw [hnone, List.nil_append] at ih
      have hu : upTo o e.1 = (e.1 == o) := by rw [upTo_eq, hb]; rfl
      simp only [List.filter_cons, hu, hb, hnone, ih]
      rfl

/-- Of a list in ascending order, what is done is a first part of it. -/
theorem takeWhile_eq_filter {entries : List (Order × α)} (hs : Sorted entries)
    {d : Order → Bool} (hd : DownClosed d) :
    entries.takeWhile (d ·.1) = entries.filter (d ·.1) ∧
      entries.dropWhile (d ·.1) = entries.filter (!d ·.1) := by
  induction entries with
  | nil => exact ⟨rfl, rfl⟩
  | cons e rest ih =>
    obtain ⟨hle, hrest⟩ := List.pairwise_cons.1 hs
    cases hde : d e.1 with
    | true =>
      obtain ⟨htake, hdrop⟩ := ih hrest
      simp only [List.takeWhile_cons, List.dropWhile_cons, List.filter_cons, hde, if_true,
        Bool.not_true, Bool.false_eq_true, if_false, htake, hdrop, and_self]
    | false =>
      -- nothing behind an entry that is not done is done
      have hnone : ∀ x ∈ e :: rest, d x.1 = false := by
        intro x hx
        rcases List.mem_cons.1 hx with rfl | hx
        · exact hde
        · exact Bool.eq_false_iff.2 fun hdx => Bool.eq_false_iff.1 hde (hd (hle x hx) hdx)
      rw [List.filter_eq_nil_iff.2 fun x hx => by simp [hnone x hx],
        List.filter_eq_self.2 fun x hx => by simp [hnone x hx]]
      exact ⟨List.takeWhile_cons_of_neg (by simp [hde]), List.dropWhile_cons_of_neg (by simp [hde])⟩

/-- What is done of a list in ascending order is done first. -/
theorem filter_append_filter {entries : List (Order × α)} (hs : Sorted entries)
    {d : Order → Bool} (hd : DownClosed d) :
    entries.filter (d ·.1) ++ entries.filter (!d ·.1) = entries := by
  obtain ⟨htake, hdrop⟩ := takeWhile_eq_filter hs hd
  rw [← htake, ← hdrop, List.takeWhile_append_dropWhile]

/-- In a list in ascending order whose entries of each place are in a given order, of two entries the
first has the earlier place, or the same place and comes first in that order. -/
theorem Sorted.pairwise {entries : List (Order × α)} (hs : Sorted entries) {r : α → α → Prop}
    (h : ∀ o, (entries.filter (·.1 == o)).Pairwise fun a b => r a.2 b.2) :
    entries.Pairwise fun a b => before b.1 a.1 = true ∨ a.1 = b.1 ∧ r a.2 b.2 := by
  induction entries with
  | nil => exact .nil
  | cons e rest ih =>
    obtain ⟨hle, hrest⟩ := List.pairwise_cons.1 hs
    refine List.pairwise_cons.2 ⟨fun b hb => ?_, ih hrest fun o => ?_⟩
    · by_cases heq : e.1 = b.1
      · have hat := h e.1
        rw [List.filter_cons_of_pos (by simp), List.pairwise_cons] at hat
        exact .inr ⟨heq, hat.1 b (List.mem_filter.2 ⟨hb, by simp [heq]⟩)⟩
      · refine .inl ?_
        simp only [before, Bool.not_eq_true', Bool.eq_false_iff]
        exact fun hbe => heq (le_antisymm (hle b hb) hbe)
    · exact (h o).sublist ((List.sublist_cons_self e rest).filter _)

/-- Places in strictly ascending order. -/
def Ascending (places : List Order) : Prop := places.Pairwise fun a b => before b a = true

theorem Ascending.nodup {places : List Order} (h : Ascending places) : places.Nodup := by
  refine h.imp fun {a b} hab => ?_
  rintro rfl
  rw [before_self] at hab
  cases hab

/-- Of places in ascending order, those ahead of a place are the ones before it. -/
theorem Ascending.contains_eq_before {done rest : List Order} {o : Order}
    (h : Ascending (done ++ o :: rest)) {x : Order} (hx : x ∈ done ++ o :: rest) :
    done.contains x = before o x := by
  obtain ⟨-, hrest, hcross⟩ := List.pairwise_append.1 h
  rcases List.mem_append.1 hx with hx | hx
  · rw [List.contains_iff_mem.2 hx, hcross x hx o List.mem_cons_self]
  · have hnot : done.contains x = false := by
      rw [List.contains_eq_mem, decide_eq_false_iff_not]
      intro hmem
      have hself := hcross x hmem x hx
      rw [before_self] at hself
      cases hself
    rw [hnot]
    rcases List.mem_cons.1 hx with rfl | hx
    · rw [before_self]
    · have hox := (List.pairwise_cons.1 hrest).1 x hx
      simp only [before, Bool.not_eq_true', Bool.eq_false_iff] at hox
      simp [before, (le_total o x).resolve_right hox]

theorem pairwise_sort (place : α → Order) (members : List α) :
    (sort place members).Pairwise fun a b => (place a).le (place b) = true := by
  have htrans : ∀ a b c : α, (place a).le (place b) = true → (place b).le (place c) = true →
      (place a).le (place c) = true := fun _ _ _ => le_trans
  exact List.pairwise_mergeSort htrans (fun a b => le_or_le (place a) (place b)) members

theorem sorted_sort (entries : List (Order × α)) : Sorted (sort (·.1) entries) :=
  pairwise_sort _ entries

theorem mem_sort {entries : List (Order × α)} {e : Order × α} :
    e ∈ sort (·.1) entries ↔ e ∈ entries :=
  List.mem_mergeSort

theorem sort_map {β : Type} (place : β → Order) (f : α → β) (members : List α) :
    sort place (members.map f) = (sort (fun a => place (f a)) members).map f := by
  unfold sort
  rw [List.map_mergeSort]
  exact fun _ _ _ _ => rfl

/-- **Sorting keeps the order at each place.** -/
theorem filter_sort (entries : List (Order × α)) (o : Order) :
    (sort (·.1) entries).filter (·.1 == o) = entries.filter (·.1 == o) := by
  have hplace : ∀ e ∈ entries.filter (·.1 == o), e.1 = o := fun e he =>
    beq_iff_eq.1 (List.mem_filter.1 he).2
  have hequal : (entries.filter (·.1 == o)).Pairwise fun a b => a.1.le b.1 = true := by
    refine List.pairwise_of_forall_mem_list fun a ha b hb => ?_
    rw [hplace a ha, hplace b hb, le_refl]
  have htrans : ∀ a b c : Order × α, a.1.le b.1 = true → b.1.le c.1 = true → a.1.le c.1 = true :=
    fun _ _ _ => le_trans
  have hsub : (entries.filter (·.1 == o)).Sublist (sort (·.1) entries) :=
    List.sublist_mergeSort htrans (fun a b => le_or_le a.1 b.1) hequal List.filter_sublist
  have hsub' := hsub.filter (·.1 == o)
  rw [List.filter_filter] at hsub'
  simp only [Bool.and_self] at hsub'
  have hlength : ((sort (·.1) entries).filter (·.1 == o)).length =
      (entries.filter (·.1 == o)).length :=
    ((List.mergeSort_perm entries _).filter _).length_eq
  exact (hsub'.eq_of_length hlength.symm).symm

end Sorted

section Buckets

theorem ascending_sort (places : List Order) (hnd : places.Nodup) :
    Ascending (sort id places) := by
  have hsorted : (sort id places).Pairwise fun a b => a.le b = true := pairwise_sort id places
  have hnd' : (sort id places).Nodup := (List.mergeSort_perm places _).nodup_iff.2 hnd
  refine (hsorted.and hnd').imp fun {a b} h => ?_
  simp only [before, Bool.not_eq_true', Bool.eq_false_iff]
  exact fun hba => h.2 (le_antisymm h.1 hba)

/-- **The buckets of a tree come in strictly ascending order.** -/
theorem ascending_bucketOrders (n : Node) : Ascending (bucketOrders n) := by
  unfold bucketOrders
  refine List.pairwise_cons.2 ⟨fun o ho => ?_, ascending_sort _ (nodup_eraseDups _)⟩
  rw [sort, List.mem_mergeSort, List.mem_eraseDups, List.mem_filter] at ho
  obtain ⟨k, rfl⟩ := Option.isSome_iff_exists.1 ho.2
  rfl

theorem mem_bucketOrders {n : Node} {o : Order} :
    o ∈ bucketOrders n ↔ o = none ∨ ∃ m ∈ n.nodes, ∃ c ∈ m.constraints, c.order = o := by
  simp only [bucketOrders, List.mem_cons, sort, List.mem_mergeSort, List.mem_eraseDups,
    List.mem_filter, List.mem_flatMap, List.mem_map]
  constructor
  · rintro (rfl | ⟨h, -⟩)
    · exact .inl rfl
    · exact .inr h
  · rintro (rfl | h)
    · exact .inl rfl
    · cases o with
      | none => exact .inl rfl
      | some k => exact .inr ⟨h, rfl⟩

end Buckets

end Validation.Order
