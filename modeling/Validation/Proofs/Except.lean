import Mathlib.Data.List.Forall2

/-!
# Computations that may fail

When a computation with errors succeeds, and with what result. Which error is the first is left
out here: two computations that do the same work in different orders succeed together.

* `bind_eq_ok`: a sequence succeeds when each of its steps does.
* `exists_mem_of_forall₂`: what related lists have in common.
* `Ends`: of which kind the errors of a computation are, and what its result is like.
* `Agree`: two computations that fail with one error or come to related results.
-/

namespace Validation

variable {α β ε : Type}

theorem bind_eq_ok {x : Except ε α} {f : α → Except ε β} {b : β} :
    (x >>= f) = .ok b ↔ ∃ a, x = .ok a ∧ f a = .ok b := by
  cases x <;> simp [bind, Except.bind]

@[simp]
theorem ok_bind {a : α} {f : α → Except ε β} : (Except.ok a >>= f) = f a := rfl

theorem map_eq_ok {x : Except ε α} {f : α → β} {b : β} :
    (f <$> x) = .ok b ↔ ∃ a, x = .ok a ∧ f a = b := by
  cases x <;> simp [Functor.map, Except.map]

@[simp]
theorem pure_eq_ok {a b : α} : (pure a : Except ε α) = .ok b ↔ a = b := by
  simp [pure, Except.pure]

theorem exists_of_isOk {x : Except ε α} (h : x.isOk = true) : ∃ a, x = .ok a := by
  cases x with
  | ok a => exact ⟨a, rfl⟩
  | error e => cases h

theorem foldlM_cons_eq_ok {f : β → α → Except ε β} {a : α} {l : List α} {b c : β} :
    (a :: l).foldlM f b = .ok c ↔ ∃ b', f b a = .ok b' ∧ l.foldlM f b' = .ok c := by
  rw [List.foldlM_cons, bind_eq_ok]

theorem foldlM_append_eq_ok {f : β → α → Except ε β} {l l' : List α} {b c : β} :
    (l ++ l').foldlM f b = .ok c ↔ ∃ b', l.foldlM f b = .ok b' ∧ l'.foldlM f b' = .ok c := by
  rw [List.foldlM_append, bind_eq_ok]

theorem forM_eq_ok {l : List α} {f : α → Except ε Unit} :
    l.forM f = .ok () ↔ ∀ a ∈ l, f a = .ok () := by
  induction l with
  | nil => exact iff_of_true rfl nofun
  | cons a l ih =>
    have hcons : (a :: l).forM f = .ok () ↔ f a = .ok () ∧ l.forM f = .ok () := by
      rw [List.forM, bind_eq_ok]
      exact ⟨fun ⟨_, ha, hl⟩ => ⟨ha, hl⟩, fun ⟨ha, hl⟩ => ⟨(), ha, hl⟩⟩
    rw [hcons, ih, List.forall_mem_cons]

theorem mapM_eq_ok {l : List α} {f : α → Except ε β} {bs : List β} :
    l.mapM f = .ok bs ↔ List.Forall₂ (fun a b => f a = .ok b) l bs := by
  induction l generalizing bs with
  | nil => rw [List.mapM_nil, pure_eq_ok, List.forall₂_nil_left_iff, eq_comm]
  | cons a l ih =>
    rw [List.mapM_cons, bind_eq_ok, List.forall₂_cons_left_iff]
    simp only [bind_eq_ok, pure_eq_ok, ih]
    constructor
    · rintro ⟨b, hb, bs, hbs, rfl⟩
      exact ⟨b, bs, hb, hbs, rfl⟩
    · rintro ⟨b, bs, hb, hbs, rfl⟩
      exact ⟨b, hb, bs, hbs, rfl⟩

theorem isOk_eq_false_iff {x : Except ε Unit} : x.isOk = false ↔ x ≠ .ok () := by
  cases x <;> simp [Except.isOk, Except.toBool]

/-- Only the members for which a step fails matter for all steps together. -/
theorem forM_filter {l : List α} {f : α → Except ε Unit} :
    (l.filter fun a => !(f a).isOk).forM f = l.forM f := by
  have hcons : ∀ (a : α) (l : List α), (a :: l).forM f = (f a >>= fun _ => l.forM f) := by
    intro a l
    rw [List.forM]
  induction l with
  | nil => rfl
  | cons a l ih =>
    rw [List.filter_cons, hcons]
    cases ha : f a with
    | ok => exact ih
    | error e =>
      change (a :: l.filter _).forM f = _
      rw [hcons, ha]
      rfl

/-- In related lists, what is on the right is related to something on the left. -/
theorem exists_mem_of_forall₂ {R : α → β → Prop} {l : List α} {l' : List β}
    (h : List.Forall₂ R l l') : ∀ b ∈ l', ∃ a ∈ l, R a b := by
  induction h with
  | nil => simp
  | cons hab _ ih =>
    intro b hb
    rcases List.mem_cons.1 hb with rfl | hb
    · exact ⟨_, List.mem_cons_self, hab⟩
    · obtain ⟨a, ha, hab⟩ := ih b hb
      exact ⟨a, List.mem_cons_of_mem _ ha, hab⟩

/-- In related lists, what is on the left is related to something on the right. -/
theorem exists_mem_right_of_forall₂ {R : α → β → Prop} {l : List α} {l' : List β}
    (h : List.Forall₂ R l l') : ∀ a ∈ l, ∃ b ∈ l', R a b :=
  exists_mem_of_forall₂ h.flip

/-- Two lists are related along a first part and a rest. -/
theorem forall₂_append_iff {R : α → β → Prop} {l₁ l₂ : List α} {l : List β} :
    List.Forall₂ R (l₁ ++ l₂) l ↔
      ∃ m₁ m₂, List.Forall₂ R l₁ m₁ ∧ List.Forall₂ R l₂ m₂ ∧ m₁ ++ m₂ = l := by
  constructor
  · intro h
    have htake := List.forall₂_take l₁.length h
    have hdrop := List.forall₂_drop l₁.length h
    rw [List.take_left] at htake
    rw [List.drop_left] at hdrop
    exact ⟨_, _, htake, hdrop, List.take_append_drop _ _⟩
  · rintro ⟨m₁, m₂, h₁, h₂, rfl⟩
    exact List.rel_append h₁ h₂

/-- Of lists that come from the members of a list, all are joined in one that comes from the only
member of which there is something. -/
theorem flatten_of_forall₂ {R : α → List β → Prop} {l : List α} {ls : List (List β)}
    (h : List.Forall₂ R l ls) (hl : l.Nodup) {a : α} (ha : a ∈ l) {bs : List β}
    (hself : ∀ cs, R a cs → cs = bs) (hother : ∀ b ∈ l, b ≠ a → ∀ cs, R b cs → cs = []) :
    ls.flatten = bs := by
  induction h with
  | nil => cases ha
  | @cons b cs l ls hb hrest ih =>
    obtain ⟨hnot, hl⟩ := List.nodup_cons.1 hl
    rw [List.flatten_cons]
    rcases List.mem_cons.1 ha with rfl | ha
    · have hnil : ls.flatten = [] := by
        rw [List.flatten_eq_nil_iff]
        intro ds hds
        obtain ⟨d, hd, hR⟩ := exists_mem_of_forall₂ hrest ds hds
        exact hother d (List.mem_cons_of_mem _ hd) (fun heq => hnot (heq ▸ hd)) ds hR
      rw [hself cs hb, hnil, List.append_nil]
    · have hne : b ≠ a := fun heq => hnot (heq ▸ ha)
      rw [hother b List.mem_cons_self hne cs hb, List.nil_append]
      exact ih hl ha fun d hd => hother d (List.mem_cons_of_mem _ hd)

/-- How a computation ends: an error satisfies one condition, and a result another. -/
def Ends (bad : ε → Prop) (good : α → Prop) : Except ε α → Prop
  | .error e => bad e
  | .ok a => good a

section Ends

variable {bad : ε → Prop} {good : α → Prop} {good' : β → Prop} {x : Except ε α}

theorem ends_iff : Ends bad good x ↔ (∀ e, x = .error e → bad e) ∧ ∀ a, x = .ok a → good a := by
  cases x <;> simp [Ends]

theorem Ends.of_error (h : Ends bad good x) {e : ε} (he : x = .error e) : bad e :=
  (ends_iff.1 h).1 e he

theorem Ends.imp {good'' : α → Prop} (h : Ends bad good x) (himp : ∀ a, good a → good'' a) :
    Ends bad good'' x := by
  cases x with
  | error e => exact h
  | ok a => exact himp a h

theorem ends_pure {a : α} (ha : good a) : Ends bad good (pure a : Except ε α) := ha

theorem ends_bind {f : α → Except ε β} (hx : Ends bad good x)
    (hf : ∀ a, good a → Ends bad good' (f a)) : Ends bad good' (x >>= f) := by
  cases x with
  | error e => exact hx
  | ok a => exact hf a hx

theorem ends_forM {f : α → Except ε Unit} {l : List α}
    (h : ∀ a ∈ l, Ends bad (fun _ => True) (f a)) : Ends bad (fun _ => True) (l.forM f) := by
  induction l with
  | nil => exact trivial
  | cons a l ih =>
    rw [List.forM]
    exact ends_bind (h a List.mem_cons_self) fun _ _ =>
      ih fun a' ha' => h a' (List.mem_cons_of_mem _ ha')

/-- A step for one member of a list after another, under an invariant. -/
theorem ends_foldlM {f : β → α → Except ε β} {l : List α} {b : β}
    (h : ∀ a ∈ l, ∀ b, good' b → Ends bad good' (f b a)) (hb : good' b) :
    Ends bad good' (l.foldlM f b) := by
  induction l generalizing b with
  | nil => exact hb
  | cons a l ih =>
    rw [List.foldlM_cons]
    refine ends_bind (h a List.mem_cons_self b hb) fun b' hb' => ?_
    exact ih (fun a' ha' => h a' (List.mem_cons_of_mem _ ha')) hb'

end Ends

/-- Two computations end alike: with the same error, or with related results. -/
def Agree (R : α → β → Prop) : Except ε α → Except ε β → Prop
  | .error e, .error e' => e = e'
  | .ok a, .ok b => R a b
  | _, _ => False

section Agree

variable {α' β' : Type} {R : α → α' → Prop} {R' : β → β' → Prop}

theorem agree_refl {R : α → α → Prop} {x : Except ε α} (h : ∀ a, R a a) : Agree R x x := by
  cases x with
  | error e => exact rfl
  | ok a => exact h a

theorem Agree.eq {x y : Except ε α} (h : Agree Eq x y) : x = y := by
  cases x <;> cases y <;> first | exact congrArg _ h | exact absurd h id

theorem agree_bind {x : Except ε α} {x' : Except ε α'} {f : α → Except ε β} {f' : α' → Except ε β'}
    (hx : Agree R x x') (hf : ∀ a a', R a a' → Agree R' (f a) (f' a')) :
    Agree R' (x >>= f) (x' >>= f') := by
  cases x <;> cases x'
  case error.error => exact hx
  case ok.ok a a' => exact hf a a' hx
  case error.ok => exact absurd hx id
  case ok.error => exact absurd hx id

/-- A last step on one side that cannot fail. -/
theorem agree_bind_left {x : Except ε α} {x' : Except ε α'} {f : α → β} {R' : β → α' → Prop}
    (hx : Agree R x x') (hf : ∀ a a', R a a' → R' (f a) a') :
    Agree R' (do return f (← x)) x' := by
  cases x <;> cases x'
  case error.error => exact hx
  case ok.ok a a' => exact hf a a' hx
  case error.ok => exact absurd hx id
  case ok.error => exact absurd hx id

/-- A step for one member of a list after another, on both sides, where the members are related. -/
theorem agree_foldlM_of_forall₂ {γ γ' : Type} {S : γ → γ' → Prop} {g : β → γ → Except ε β}
    {g' : β' → γ' → Except ε β'} {l : List γ} {l' : List γ'} (hl : List.Forall₂ S l l')
    (h : ∀ c c', S c c' → ∀ b b', R' b b' → Agree R' (g b c) (g' b' c')) {b : β} {b' : β'}
    (hb : R' b b') : Agree R' (l.foldlM g b) (l'.foldlM g' b') := by
  induction hl generalizing b b' with
  | nil => exact hb
  | cons hc _ ih =>
    rw [List.foldlM_cons, List.foldlM_cons]
    exact agree_bind (h _ _ hc b b' hb) fun b₁ b₁' hb₁ => ih hb₁

/-- A step for one member of a list after another, on both sides. -/
theorem agree_foldlM {γ : Type} {g : β → γ → Except ε β} {g' : β' → γ → Except ε β'} {l : List γ}
    (h : ∀ c, ∀ b b', R' b b' → Agree R' (g b c) (g' b' c)) {b : β} {b' : β'} (hb : R' b b') :
    Agree R' (l.foldlM g b) (l.foldlM g' b') := by
  have hl : List.Forall₂ Eq l l := List.forall₂_eq_eq_eq.symm ▸ rfl
  refine agree_foldlM_of_forall₂ hl ?_ hb
  rintro c _ rfl
  exact h c

end Agree

end Validation
