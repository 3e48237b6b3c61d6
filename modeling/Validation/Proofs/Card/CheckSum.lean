import Mathlib.Data.Nat.ModEq
import Mathlib.Tactic.Ring
import Validation.Catalog.IdCard

/-!
# Check sums

A check sum is the sum of values times weights, by its remainder. Whether it notices a slip depends on the
weights alone: one value changed is noticed if its weight has no factor in common with the modulus, and
neighbours swapped if one weight is twice the other. Both hold of the powers of two modulo 11.

* `dot`, `doublings`: the sum, and the powers of two as weights.
* `DiffersOnce`, `Swapped`: the two slips.
* `dot_of_differsOnce`, `dot_of_swapped`: **a slip changes the remainder**.
* `weighted_eq_dot`, `mainlandWeights_eq`: the sums that are taken from octets.
-/

namespace Validation

/-! ### The two slips -/

section Slips

variable {α β : Type} {xs ys : List α}

/-- Two lists that differ in exactly one place. -/
inductive DiffersOnce : List α → List α → Prop
  | here {x y : α} (hne : x ≠ y) (rest : List α) : DiffersOnce (x :: rest) (y :: rest)
  | there (x : α) {xs ys : List α} (h : DiffersOnce xs ys) : DiffersOnce (x :: xs) (x :: ys)

/-- The second list is the first with two different neighbours swapped. -/
inductive Swapped : List α → List α → Prop
  | here {x y : α} (hne : x ≠ y) (rest : List α) : Swapped (x :: y :: rest) (y :: x :: rest)
  | there (x : α) {xs ys : List α} (h : Swapped xs ys) : Swapped (x :: xs) (x :: ys)

/-- A slip is kept by a map that tells the members apart. -/
theorem DiffersOnce.map (h : DiffersOnce xs ys) {f : α → β}
    (hf : ∀ x ∈ xs, ∀ y ∈ ys, f x = f y → x = y) : DiffersOnce (xs.map f) (ys.map f) := by
  induction h with
  | here hne rest => exact .here (fun heq => hne (hf _ List.mem_cons_self _ List.mem_cons_self heq)) _
  | there x _ ih =>
    exact .there _ (ih fun y hy z hz => hf y (List.mem_cons_of_mem x hy) z (List.mem_cons_of_mem x hz))

theorem Swapped.map (h : Swapped xs ys) {f : α → β}
    (hf : ∀ x ∈ xs, ∀ y ∈ xs, f x = f y → x = y) : Swapped (xs.map f) (ys.map f) := by
  induction h with
  | here hne rest => exact .here (fun heq => hne (hf _ (by simp) _ (by simp) heq)) _
  | there x _ ih =>
    exact .there _ (ih fun y hy z hz => hf y (List.mem_cons_of_mem x hy) z (List.mem_cons_of_mem x hz))

theorem DiffersOnce.length_eq (h : DiffersOnce xs ys) : xs.length = ys.length := by
  induction h with
  | here => rfl
  | there x _ ih => rw [List.length_cons, List.length_cons, ih]

theorem DiffersOnce.ne (h : DiffersOnce xs ys) : xs ≠ ys := by
  induction h with
  | here hne => exact fun heq => hne (List.cons.inj heq).1
  | there x _ ih => exact fun heq => ih (List.cons.inj heq).2

/-- **Where the one difference lies** in lists that are made of two parts. -/
theorem DiffersOnce.split {us vs : List α} (hlen : us.length = vs.length)
    (h : DiffersOnce (us ++ xs) (vs ++ ys)) :
    (DiffersOnce us vs ∧ xs = ys) ∨ (us = vs ∧ DiffersOnce xs ys) := by
  induction us generalizing vs with
  | nil =>
    obtain rfl := List.length_eq_zero_iff.1 hlen.symm
    exact .inr ⟨rfl, h⟩
  | cons u us ih =>
    obtain ⟨v, vs, rfl⟩ := List.exists_cons_of_length_eq_add_one hlen.symm
    have hlen' : us.length = vs.length := by simpa using hlen
    -- the lists get names, since the relation tells them apart by their heads
    generalize hs : (u :: us) ++ xs = s, ht : (v :: vs) ++ ys = t at h
    cases h with
    | here hne rest =>
      obtain ⟨rfl, hrest⟩ := List.cons.inj hs
      obtain ⟨rfl, hrest'⟩ := List.cons.inj ht
      obtain ⟨rfl, rfl⟩ := List.append_inj (hrest.trans hrest'.symm) hlen'
      exact .inl ⟨.here hne _, rfl⟩
    | there x h =>
      obtain ⟨rfl, rfl⟩ := List.cons.inj hs
      obtain ⟨rfl, rfl⟩ := List.cons.inj ht
      rcases ih hlen' h with ⟨hdiffers, htail⟩ | ⟨rfl, hdiffers⟩
      · exact .inl ⟨.there _ hdiffers, htail⟩
      · exact .inr ⟨rfl, hdiffers⟩

end Slips

namespace IdCard

variable {p m x : Nat} {xs ys ws : List Nat}

/-! ### Sums of products -/

/-- The sum of the values times their weights, as far as both go. -/
def dot (values weights : List Nat) : Nat := (List.zipWith (· * ·) values weights).sum

/-- The powers of two below `2 ^ n`, the largest first. -/
def doublings : Nat → List Nat
  | 0 => []
  | n + 1 => 2 ^ n :: doublings n

@[simp] theorem dot_nil_left (ws : List Nat) : dot [] ws = 0 := by simp [dot]

@[simp] theorem dot_nil_right (xs : List Nat) : dot xs [] = 0 := by simp [dot]

@[simp] theorem dot_cons_cons (x w : Nat) (xs ws : List Nat) :
    dot (x :: xs) (w :: ws) = x * w + dot xs ws := by
  simp [dot]

theorem dot_append {us : List Nat} (hlen : us.length = ws.length) (vs : List Nat) (ws' : List Nat) :
    dot (us ++ vs) (ws ++ ws') = dot us ws + dot vs ws' := by
  rw [dot, List.zipWith_append hlen, List.sum_append]
  rfl

/-- Weights count by their remainders only. -/
theorem dot_mod (m : Nat) (xs ws : List Nat) : dot xs (ws.map (· % m)) ≡ dot xs ws [MOD m] := by
  induction xs generalizing ws with
  | nil => exact .refl 0
  | cons x xs ih =>
    cases ws with
    | nil => exact .refl 0
    | cons w ws =>
      rw [List.map_cons, dot_cons_cons, dot_cons_cons]
      exact ((Nat.mod_modEq w m).mul_left x).add (ih ws)

/-! ### What a check sum notices -/

/-- **One value changed** changes the remainder, if no weight has a factor in common with the modulus. -/
theorem dot_of_differsOnce (h : DiffersOnce xs ys) (hxs : ∀ x ∈ xs, x < p) (hys : ∀ y ∈ ys, y < p)
    (hws : ∀ w ∈ ws, p.Coprime w) (hlen : xs.length ≤ ws.length) :
    ¬ dot xs ws ≡ dot ys ws [MOD p] := by
  induction h generalizing ws with
  | @here x y hne rest =>
    obtain ⟨w, ws, rfl⟩ := List.exists_cons_of_length_pos (Nat.lt_of_lt_of_le (Nat.succ_pos _) hlen)
    rw [dot_cons_cons, dot_cons_cons]
    intro hsum
    have hproduct : x * w ≡ y * w [MOD p] := hsum.add_right_cancel' _
    have hvalue : x ≡ y [MOD p] :=
      hproduct.cancel_right_of_coprime (hws w List.mem_cons_self)
    exact hne (hvalue.eq_of_lt_of_lt (hxs x List.mem_cons_self) (hys y List.mem_cons_self))
  | there x _ ih =>
    obtain ⟨w, ws, rfl⟩ := List.exists_cons_of_length_pos (Nat.lt_of_lt_of_le (Nat.succ_pos _) hlen)
    rw [dot_cons_cons, dot_cons_cons]
    intro hsum
    refine ih (fun y hy => hxs y (List.mem_cons_of_mem x hy)) (fun y hy => hys y (List.mem_cons_of_mem x hy))
      (fun w' hw' => hws w' (List.mem_cons_of_mem w hw')) (Nat.le_of_succ_le_succ hlen) ?_
    exact hsum.add_left_cancel' _

/-- **Neighbours swapped** change the remainder, if each weight is twice the next. -/
theorem dot_of_swapped (h : Swapped xs ys) (hxs : ∀ x ∈ xs, x < p)
    (hp : p.Coprime 2) {n : Nat} (hlen : xs.length = n) :
    ¬ dot xs (doublings n) ≡ dot ys (doublings n) [MOD p] := by
  induction h generalizing n with
  | @here x y hne rest =>
    subst hlen
    intro hsum
    simp only [List.length_cons, doublings, dot_cons_cons, ← Nat.add_assoc] at hsum
    -- the two sums differ by the lower of the two weights times the difference of the values
    have hsplit : ∀ a b, a * 2 ^ (rest.length + 1) + b * 2 ^ rest.length =
        a * 2 ^ rest.length + (a + b) * 2 ^ rest.length := by
      intro a b
      ring
    rw [hsplit, hsplit, Nat.add_comm y x] at hsum
    have hproduct : x * 2 ^ rest.length ≡ y * 2 ^ rest.length [MOD p] :=
      (hsum.add_right_cancel' _).add_right_cancel' _
    have hvalue : x ≡ y [MOD p] :=
      hproduct.cancel_right_of_coprime (Nat.Coprime.pow_right _ hp)
    have hy : y < p := hxs y (by simp)
    exact hne (hvalue.eq_of_lt_of_lt (hxs x List.mem_cons_self) hy)
  | there x _ ih =>
    subst hlen
    intro hsum
    simp only [List.length_cons, doublings, dot_cons_cons] at hsum
    exact ih (fun y hy => hxs y (List.mem_cons_of_mem x hy)) rfl (hsum.add_left_cancel' _)

/-! ### The sums of the card numbers -/

theorem weighted_eq_dot (os ws : List Nat) : weighted os ws = dot (os.map digit) ws := by
  induction os generalizing ws with
  | nil => cases ws <;> rfl
  | cons o os ih =>
    cases ws with
    | nil => rfl
    | cons w ws => rw [weighted, List.map_cons, dot_cons_cons, ih]

theorem coprime_doublings (n : Nat) : ∀ w ∈ doublings n, Nat.Coprime 11 w := by
  induction n with
  | zero => simp [doublings]
  | succ n ih => exact List.forall_mem_cons.2 ⟨Nat.Coprime.pow_right n (by decide), ih⟩

@[simp] theorem length_doublings (n : Nat) : (doublings n).length = n := by
  induction n with
  | zero => rfl
  | succ n ih => rw [doublings, List.length_cons, ih]

/-- **The weights of a mainland number** are the powers of two, modulo 11. -/
theorem mainlandWeights_eq : mainlandWeights ++ [1] = (doublings 18).map (· % 11) := by decide

end IdCard

end Validation
