import Mathlib.Data.List.Forall2
import Validation.Proofs.Except

/-!
# Operations on a state that may fail

An operation on the interned constraints or on an engine keeps what it has done to the state when
it fails. When it succeeds it `Gives` a result and a new state.

* `gives_bind`: one operation after another.
* `gives_mapM`: an operation for every member of a list.
* `Keeps`: an invariant of the state, whether the operation succeeds or fails.
* `Raises`: of which kind the errors of an operation are.
* `Matches`: two operations side by side, of which both or none succeed.
* `Alike`: two operations that come to the same.
-/

namespace Validation

variable {ε σ α β : Type}

/-- What an operation comes to in a state: its result or error, and the state after it. -/
def outcome (op : ExceptT ε (StateM σ) α) (s : σ) : Except ε α × σ := op.run s

/-- The operation succeeds in a state, with a result and the state after it. -/
def Gives (op : ExceptT ε (StateM σ) α) (s : σ) (a : α) (s' : σ) : Prop :=
  outcome op s = (.ok a, s')

theorem gives_unique {op : ExceptT ε (StateM σ) α} {s s₁ s₂ : σ} {a b : α} (h : Gives op s a s₁)
    (h' : Gives op s b s₂) : a = b ∧ s₁ = s₂ := by
  have heq : ((Except.ok a : Except ε α), s₁) = (.ok b, s₂) := h.symm.trans h'
  exact ⟨Except.ok.inj (Prod.ext_iff.1 heq).1, (Prod.ext_iff.1 heq).2⟩

theorem outcome_bind (op : ExceptT ε (StateM σ) α) (f : α → ExceptT ε (StateM σ) β) (s : σ) :
    outcome (op >>= f) s =
      match outcome op s with
      | (.ok a, s') => outcome (f a) s'
      | (.error e, s') => (.error e, s') := by
  simp only [outcome, ExceptT.run, bind, ExceptT.bind, ExceptT.mk, StateT.bind, ExceptT.bindCont]
  rcases op s with ⟨_ | _, _⟩ <;> rfl

@[simp]
theorem outcome_pure (a : α) (s : σ) :
    outcome (pure a : ExceptT ε (StateM σ) α) s = (.ok a, s) := rfl

theorem lift_ok (a : α) : (liftM (.ok a : Except ε α) : ExceptT ε (StateM σ) α) = pure a := rfl

@[simp]
theorem outcome_throw (e : ε) (s : σ) :
    outcome (throw e : ExceptT ε (StateM σ) α) s = (.error e, s) := rfl

/-- A computation without a state leaves the state alone. -/
@[simp]
theorem outcome_lift (x : Except ε α) (s : σ) :
    outcome (liftM x : ExceptT ε (StateM σ) α) s = (x, s) := by
  cases x <;> rfl

theorem gives_bind {op : ExceptT ε (StateM σ) α} {f : α → ExceptT ε (StateM σ) β} {s s' : σ}
    {b : β} : Gives (op >>= f) s b s' ↔ ∃ a s₁, Gives op s a s₁ ∧ Gives (f a) s₁ b s' := by
  simp only [Gives, outcome_bind]
  rcases outcome op s with ⟨_ | _, _⟩ <;> simp

@[simp]
theorem gives_pure {a b : α} {s s' : σ} :
    Gives (pure a : ExceptT ε (StateM σ) α) s b s' ↔ b = a ∧ s' = s := by
  simp [Gives, eq_comm]

@[simp]
theorem gives_throw {e : ε} {b : α} {s s' : σ} :
    Gives (throw e : ExceptT ε (StateM σ) α) s b s' ↔ False := by
  simp [Gives]

theorem gives_map {op : ExceptT ε (StateM σ) α} {f : α → β} {s s' : σ} {b : β} :
    Gives (f <$> op) s b s' ↔ ∃ a, Gives op s a s' ∧ f a = b := by
  rw [map_eq_pure_bind, gives_bind]
  simp only [gives_pure]
  constructor
  · rintro ⟨a, s₁, ha, rfl, rfl⟩
    exact ⟨a, ha, rfl⟩
  · rintro ⟨a, ha, rfl⟩
    exact ⟨a, s', ha, rfl, rfl⟩

@[simp]
theorem gives_lift {x : Except ε α} {a : α} {s s' : σ} :
    Gives (liftM x : ExceptT ε (StateM σ) α) s a s' ↔ x = .ok a ∧ s' = s := by
  simp [Gives, eq_comm]

theorem outcome_get (g : σ → ExceptT ε (StateM σ) β) (s : σ) :
    outcome (do g (← get)) s = outcome (g s) s := rfl

theorem gives_get {g : σ → ExceptT ε (StateM σ) β} {s s' : σ} {b : β} :
    Gives (do g (← get)) s b s' ↔ Gives (g s) s b s' := Iff.rfl

theorem gives_modify {g : σ → σ} {s : σ} :
    Gives (modify g : ExceptT ε (StateM σ) PUnit) s () (g s) := rfl

/-- An operation for every member of a list gives a list of results. -/
theorem gives_mapM {f : α → ExceptT ε (StateM σ) β} {l : List α} {bs : List β} {s s' : σ}
    (h : Gives (l.mapM f) s bs s') :
    List.Forall₂ (fun a b => ∃ s₁ s₂, Gives (f a) s₁ b s₂) l bs := by
  induction l generalizing s s' bs with
  | nil =>
    rw [List.mapM_nil, gives_pure] at h
    rw [h.1]
    exact .nil
  | cons a l ih =>
    rw [List.mapM_cons, gives_bind] at h
    obtain ⟨b, s₁, hb, h⟩ := h
    obtain ⟨bs, s₂, hbs, h⟩ := gives_bind.1 h
    obtain ⟨rfl, -⟩ := gives_pure.1 h
    exact .cons ⟨s, s₁, hb⟩ (ih hbs)

/-- What is made of the result for each member of a list is made of the list of results. -/
theorem gives_mapM_map {γ : Type} {f : α → ExceptT ε (StateM σ) β} {g : α → β → γ} {l : List α}
    {cs : List γ} {s s' : σ} : Gives (l.mapM fun a => g a <$> f a) s cs s' ↔
      ∃ bs, Gives (l.mapM f) s bs s' ∧ (l.zip bs).map (fun p => g p.1 p.2) = cs := by
  induction l generalizing s s' cs with
  | nil =>
    simp only [List.mapM_nil, gives_pure, List.zip_nil_left, List.map_nil]
    constructor
    · rintro ⟨rfl, rfl⟩
      exact ⟨[], ⟨rfl, rfl⟩, rfl⟩
    · rintro ⟨_, ⟨-, rfl⟩, rfl⟩
      exact ⟨rfl, rfl⟩
  | cons a l ih =>
    simp only [List.mapM_cons, gives_bind, gives_map, gives_pure, ih]
    constructor
    · rintro ⟨_, s₁, ⟨b, hb, rfl⟩, _, _, ⟨bs, hbs, rfl⟩, rfl, rfl⟩
      exact ⟨b :: bs, ⟨b, s₁, hb, bs, s', hbs, rfl, rfl⟩, rfl⟩
    · rintro ⟨_, ⟨b, s₁, hb, bs, s₂, hbs, rfl, rfl⟩, rfl⟩
      exact ⟨_, s₁, ⟨b, hb, rfl⟩, _, s', ⟨bs, hbs, rfl⟩, rfl, rfl⟩

/-- An operation for one member of a list after another succeeds, as long as each succeeds under an
invariant of the state. -/
theorem exists_gives_foldlM (inv : σ → Prop) {g : β → α → ExceptT ε (StateM σ) β} {l : List α}
    (h : ∀ a ∈ l, ∀ b s, inv s → ∃ b' s', Gives (g b a) s b' s' ∧ inv s') {b : β} {s : σ}
    (hs : inv s) : ∃ b' s', Gives (l.foldlM g b) s b' s' ∧ inv s' := by
  induction l generalizing b s with
  | nil => exact ⟨b, s, gives_pure.2 ⟨rfl, rfl⟩, hs⟩
  | cons a l ih =>
    obtain ⟨b₁, s₁, hone, hs₁⟩ := h a List.mem_cons_self b s hs
    obtain ⟨b₂, s₂, hrest, hs₂⟩ := ih (fun a' ha' => h a' (List.mem_cons_of_mem _ ha')) hs₁
    rw [List.foldlM_cons]
    exact ⟨b₂, s₂, gives_bind.2 ⟨b₁, s₁, hone, hrest⟩, hs₂⟩

/-- Whatever the operation comes to, the state keeps an invariant; if there is a result, it satisfies
a condition. -/
def Keeps (inv : σ → Prop) (op : ExceptT ε (StateM σ) α) (post : α → Prop) : Prop :=
  ∀ s, inv s → inv (outcome op s).2 ∧ ∀ a, (outcome op s).1 = .ok a → post a

section Keeps

variable {inv : σ → Prop} {op : ExceptT ε (StateM σ) α} {f : α → ExceptT ε (StateM σ) β}
  {post : α → Prop} {post' : β → Prop}

theorem Keeps.of_gives (h : Keeps inv op post) {s s' : σ} {a : α} (hs : inv s)
    (hop : Gives op s a s') : inv s' ∧ post a := by
  obtain ⟨hinv, hpost⟩ := h s hs
  rw [Gives] at hop
  rw [hop] at hinv hpost
  exact ⟨hinv, hpost a rfl⟩

theorem keeps_bind (hop : Keeps inv op post) (hf : ∀ a, post a → Keeps inv (f a) post') :
    Keeps inv (op >>= f) post' := by
  intro s hs
  obtain ⟨hinv, hpost⟩ := hop s hs
  rw [outcome_bind]
  rcases houtcome : outcome op s with ⟨e | a, s'⟩
  · rw [houtcome] at hinv
    exact ⟨hinv, nofun⟩
  · rw [houtcome] at hinv hpost
    exact hf a (hpost a rfl) s' hinv

theorem keeps_pure {a : α} (ha : post a) : Keeps inv (pure a : ExceptT ε (StateM σ) α) post := by
  intro s hs
  exact ⟨hs, fun b hb => Except.ok.inj hb ▸ ha⟩

theorem keeps_throw {e : ε} : Keeps inv (throw e : ExceptT ε (StateM σ) α) post :=
  fun _ hs => ⟨hs, nofun⟩

theorem keeps_lift {x : Except ε α} (h : ∀ a, x = .ok a → post a) :
    Keeps inv (liftM x : ExceptT ε (StateM σ) α) post := by
  intro s hs
  rw [outcome_lift]
  exact ⟨hs, h⟩

theorem keeps_map {g : α → β} (hop : Keeps inv op post) (hg : ∀ a, post a → post' (g a)) :
    Keeps inv (g <$> op) post' := by
  rw [map_eq_pure_bind]
  exact keeps_bind hop fun a ha => keeps_pure (hg a ha)

theorem keeps_mapM {R : α → β → Prop} {g : α → ExceptT ε (StateM σ) β} {l : List α}
    (h : ∀ a ∈ l, Keeps inv (g a) (R a)) : Keeps inv (l.mapM g) (List.Forall₂ R l) := by
  induction l with
  | nil =>
    rw [List.mapM_nil]
    exact keeps_pure .nil
  | cons a l ih =>
    rw [List.mapM_cons]
    refine keeps_bind (h a List.mem_cons_self) fun b hb => ?_
    refine keeps_bind (ih fun a' ha' => h a' (List.mem_cons_of_mem _ ha')) fun bs hbs => ?_
    exact keeps_pure (.cons hb hbs)

/-- What holds after each part of a list holds after all of it. -/
theorem keeps_foldlM (post : List α → β → Prop) {g : β → α → ExceptT ε (StateM σ) β} {l : List α}
    (h : ∀ pre a b, post pre b → Keeps inv (g b a) (post (pre ++ [a]))) {b : β} (hb : post [] b) :
    Keeps inv (l.foldlM g b) (post l) := by
  suffices key : ∀ pre b, post pre b → Keeps inv (l.foldlM g b) (post (pre ++ l)) from key [] b hb
  clear hb
  induction l with
  | nil =>
    intro pre b hb
    rw [List.foldlM_nil, List.append_nil]
    exact keeps_pure hb
  | cons a l ih =>
    intro pre b hb
    rw [List.foldlM_cons, List.append_cons]
    exact keeps_bind (h pre a b hb) fun b' hb' => ih _ b' hb'

theorem keeps_get {post : σ → Prop} (h : ∀ s, inv s → post s) :
    Keeps inv (get : ExceptT ε (StateM σ) σ) post := by
  intro s hs
  refine ⟨hs, fun a ha => ?_⟩
  cases ha
  exact h s hs

theorem keeps_modify {g : σ → σ} (h : ∀ s, inv s → inv (g s)) :
    Keeps inv (modify g : ExceptT ε (StateM σ) PUnit) fun _ => True := by
  intro s hs
  exact ⟨h s hs, fun _ _ => trivial⟩

theorem keeps_liftM {x : Except ε α} :
    Keeps inv (liftM x : ExceptT ε (StateM σ) α) fun a => x = .ok a := keeps_lift fun _ h => h

theorem Keeps.imp {post'' : α → Prop} (h : Keeps inv op post) (himp : ∀ a, post a → post'' a) :
    Keeps inv op post'' := fun s hs => ⟨(h s hs).1, fun a ha => himp a ((h s hs).2 a ha)⟩

theorem Keeps.and {post'' : α → Prop} (h : Keeps inv op post) (h' : Keeps inv op post'') :
    Keeps inv op fun a => post a ∧ post'' a :=
  fun s hs => ⟨(h s hs).1, fun a ha => ⟨(h s hs).2 a ha, (h' s hs).2 a ha⟩⟩

end Keeps

/-- The operation fails in a state. -/
def Fails (op : ExceptT ε (StateM σ) α) (s : σ) : Prop := ∀ a s', ¬ Gives op s a s'

theorem fails_bind {op : ExceptT ε (StateM σ) α} {f : α → ExceptT ε (StateM σ) β} {s : σ} :
    Fails (op >>= f) s ↔ ∀ a s₁, Gives op s a s₁ → Fails (f a) s₁ := by
  constructor
  · intro h a s₁ hop b s' hf
    exact h b s' (gives_bind.2 ⟨a, s₁, hop, hf⟩)
  · intro h b s' hbind
    obtain ⟨a, s₁, hop, hf⟩ := gives_bind.1 hbind
    exact h a s₁ hop b s' hf

theorem Fails.bind {op : ExceptT ε (StateM σ) α} {f : α → ExceptT ε (StateM σ) β} {s : σ}
    (h : Fails op s) : Fails (op >>= f) s := fails_bind.2 fun a s₁ hop => absurd hop (h a s₁)

theorem fails_lift {e : ε} {s : σ} :
    Fails (liftM (.error e : Except ε α) : ExceptT ε (StateM σ) α) s := by
  intro a s' h
  cases (gives_lift.1 h).1

theorem fails_discard {x : Except ε α} {g : Unit → ExceptT ε (StateM σ) β} {s : σ}
    (h : ¬ ∃ a, x = .ok a) : Fails (discard (liftM x : ExceptT ε (StateM σ) α) >>= g) s := by
  rcases x with error | a
  · exact fun b s' hgives => nomatch congrArg Prod.fst hgives
  · exact absurd ⟨a, rfl⟩ h

/-- All errors that the operation comes to, in whatever state, are of a kind. -/
def Raises (bad : ε → Prop) (op : ExceptT ε (StateM σ) α) : Prop :=
  ∀ s e s', outcome op s = (.error e, s') → bad e

section Raises

variable {bad bad' : ε → Prop} {op : ExceptT ε (StateM σ) α}

theorem Raises.imp (h : Raises bad op) (himp : ∀ e, bad e → bad' e) : Raises bad' op :=
  fun s e s' he => himp e (h s e s' he)

theorem raises_bind {f : α → ExceptT ε (StateM σ) β} (hop : Raises bad op)
    (hf : ∀ a, Raises bad (f a)) : Raises bad (op >>= f) := by
  intro s e s' h
  rw [outcome_bind] at h
  rcases houtcome : outcome op s with ⟨e₁ | a, s₁⟩ <;> rw [houtcome] at h
  · cases h
    exact hop s e s' houtcome
  · exact hf a s₁ e s' h

theorem raises_pure (a : α) : Raises bad (pure a : ExceptT ε (StateM σ) α) :=
  fun s _ _ h => nomatch (outcome_pure a s).symm.trans h

theorem raises_throw {e : ε} (he : bad e) : Raises bad (throw e : ExceptT ε (StateM σ) α) := by
  intro s e' s' h
  cases (outcome_throw e s).symm.trans h
  exact he

theorem raises_lift {x : Except ε α} (h : Ends bad (fun _ => True) x) :
    Raises bad (liftM x : ExceptT ε (StateM σ) α) := by
  intro s e s' he
  rw [outcome_lift] at he
  exact h.of_error (Prod.ext_iff.1 he).1

theorem raises_get : Raises bad (get : ExceptT ε (StateM σ) σ) := fun _ _ _ h => nomatch h

theorem raises_modify (g : σ → σ) : Raises bad (modify g : ExceptT ε (StateM σ) PUnit) :=
  fun _ _ _ h => nomatch h

theorem raises_map (f : α → β) (hop : Raises bad op) : Raises bad (f <$> op) := by
  rw [map_eq_pure_bind]
  exact raises_bind hop fun a => raises_pure (f a)

theorem raises_mapM {f : α → ExceptT ε (StateM σ) β} {l : List α} (h : ∀ a ∈ l, Raises bad (f a)) :
    Raises bad (l.mapM f) := by
  induction l with
  | nil => exact raises_pure []
  | cons a l ih =>
    rw [List.mapM_cons]
    refine raises_bind (h a List.mem_cons_self) fun b => ?_
    refine raises_bind (ih fun a' ha' => h a' (List.mem_cons_of_mem _ ha')) fun bs => ?_
    exact raises_pure (b :: bs)

theorem raises_foldlM {f : β → α → ExceptT ε (StateM σ) β} {l : List α}
    (h : ∀ b, ∀ a ∈ l, Raises bad (f b a)) (b : β) : Raises bad (l.foldlM f b) := by
  induction l generalizing b with
  | nil => exact raises_pure b
  | cons a l ih =>
    rw [List.foldlM_cons]
    refine raises_bind (h b a List.mem_cons_self) fun b' => ?_
    exact ih (fun b a' ha' => h b a' (List.mem_cons_of_mem _ ha')) b'

end Raises

/-- **Two operations side by side**, each in a state of its own: both fail, or both succeed and their
results and the states after them are related. -/
def Matches {τ α' : Type} (op : ExceptT ε (StateM σ) α) (s : σ) (op' : ExceptT ε (StateM τ) α')
    (t : τ) (R : α → σ → α' → τ → Prop) : Prop :=
  (∃ a s' b t', Gives op s a s' ∧ Gives op' t b t' ∧ R a s' b t') ∨ Fails op s ∧ Fails op' t

section Matches

variable {τ α' β' : Type} {op : ExceptT ε (StateM σ) α} {op' : ExceptT ε (StateM τ) α'}
  {f : α → ExceptT ε (StateM σ) β} {f' : α' → ExceptT ε (StateM τ) β'} {s s' : σ} {t t' : τ}
  {R : α → σ → α' → τ → Prop} {R' : β → σ → β' → τ → Prop}

theorem Matches.iff (h : Matches op s op' t R) :
    (∃ a s', Gives op s a s') ↔ ∃ b t', Gives op' t b t' := by
  rcases h with ⟨a, s', b, t', hop, hop', -⟩ | ⟨hop, hop'⟩
  · exact iff_of_true ⟨a, s', hop⟩ ⟨b, t', hop'⟩
  · exact iff_of_false (fun ⟨a, s', h⟩ => hop a s' h) fun ⟨b, t', h⟩ => hop' b t' h

theorem Matches.of_gives (h : Matches op s op' t R) {a : α} {b : α'} (hop : Gives op s a s')
    (hop' : Gives op' t b t') : R a s' b t' := by
  rcases h with ⟨a₁, s₁, b₁, t₁, hgives, hgives', hR⟩ | ⟨hfails, -⟩
  · obtain ⟨rfl, rfl⟩ := gives_unique hop hgives
    obtain ⟨rfl, rfl⟩ := gives_unique hop' hgives'
    exact hR
  · exact absurd hop (hfails a s')

theorem matches_pure {a : α} {b : α'} (h : R a s b t) :
    Matches (pure a : ExceptT ε (StateM σ) α) s (pure b : ExceptT ε (StateM τ) α') t R :=
  .inl ⟨a, s, b, t, gives_pure.2 ⟨rfl, rfl⟩, gives_pure.2 ⟨rfl, rfl⟩, h⟩

theorem matches_bind (hop : Matches op s op' t R)
    (hf : ∀ a s' b t', R a s' b t' → Matches (f a) s' (f' b) t' R') :
    Matches (op >>= f) s (op' >>= f') t R' := by
  rcases hop with ⟨a, s', b, t', hgives, hgives', hR⟩ | ⟨hfails, hfails'⟩
  · rcases hf a s' b t' hR with ⟨a₁, s₁, b₁, t₁, hfirst, hsecond, hR'⟩ | ⟨hfirst, hsecond⟩
    · exact .inl ⟨a₁, s₁, b₁, t₁, gives_bind.2 ⟨a, s', hgives, hfirst⟩,
        gives_bind.2 ⟨b, t', hgives', hsecond⟩, hR'⟩
    · refine .inr ⟨fails_bind.2 fun a₁ s₁ h => ?_, fails_bind.2 fun b₁ t₁ h => ?_⟩
      · obtain ⟨rfl, rfl⟩ := gives_unique hgives h
        exact hfirst
      · obtain ⟨rfl, rfl⟩ := gives_unique hgives' h
        exact hsecond
  · exact .inr ⟨hfails.bind, hfails'.bind⟩

theorem Matches.and_gives (h : Matches op s op' t R) :
    Matches op s op' t fun a s' b t' => R a s' b t' ∧ Gives op' t b t' := by
  rcases h with ⟨a, s', b, t', hop, hop', hR⟩ | hfails
  · exact .inl ⟨a, s', b, t', hop, hop', hR, hop'⟩
  · exact .inr hfails

theorem Matches.imp {R' : α → σ → α' → τ → Prop} (h : Matches op s op' t R)
    (himp : ∀ a s' b t', R a s' b t' → R' a s' b t') : Matches op s op' t R' := by
  rcases h with ⟨a, s', b, t', hop, hop', hR⟩ | hfails
  · exact .inl ⟨a, s', b, t', hop, hop', himp a s' b t' hR⟩
  · exact .inr hfails

theorem matches_of_outcome {op : ExceptT ε (StateM σ) α} {op' : ExceptT ε (StateM τ) α} {g : τ → σ}
    (h : outcome op s = ((outcome op' t).1, g (outcome op' t).2)) :
    Matches op s op' t fun a s' b t' => a = b ∧ s' = g t' := by
  rcases houtcome : outcome op' t with ⟨error | a, t'⟩ <;> rw [houtcome] at h
  · refine .inr ⟨fun a s' hgives => ?_, fun b t'' hgives => ?_⟩
    · exact nomatch congrArg Prod.fst (h.symm.trans hgives)
    · exact nomatch congrArg Prod.fst (houtcome.symm.trans hgives)
  · exact .inl ⟨a, g t', a, t', h, houtcome, rfl, rfl⟩

theorem matches_get_left {g : σ → ExceptT ε (StateM σ) α} (h : Matches (g s) s op' t R) :
    Matches (do g (← get)) s op' t R := h

theorem matches_get_right {g' : τ → ExceptT ε (StateM τ) α'} (h : Matches op s (g' t) t R) :
    Matches op s (do g' (← get)) t R := h

theorem matches_modify {g : σ → σ} {g' : τ → τ} :
    Matches (modify g : ExceptT ε (StateM σ) PUnit) s (modify g' : ExceptT ε (StateM τ) PUnit) t
      fun _ s' _ t' => s' = g s ∧ t' = g' t :=
  .inl ⟨(), g s, (), g' t, gives_modify, gives_modify, rfl, rfl⟩

/-- A step for one member of a list after another, on both sides. -/
theorem matches_foldlM {γ : Type} {g : β → γ → ExceptT ε (StateM σ) β}
    {g' : β' → γ → ExceptT ε (StateM τ) β'} {l : List γ} {b : β} {b' : β'}
    (h : ∀ c ∈ l, ∀ b s b' t, R' b s b' t → Matches (g b c) s (g' b' c) t R') (hb : R' b s b' t) :
    Matches (l.foldlM g b) s (l.foldlM g' b') t R' := by
  induction l generalizing b b' s t with
  | nil => exact matches_pure hb
  | cons c l ih =>
    rw [List.foldlM_cons, List.foldlM_cons]
    refine matches_bind (h c List.mem_cons_self b s b' t hb) fun b₁ s₁ b₁' t₁ hb₁ => ?_
    exact ih (fun c hc => h c (List.mem_cons_of_mem _ hc)) hb₁

end Matches

/-- **Two operations that come to the same** in every state with an invariant: to one error or to
related results, and to one state, which has the invariant too if there are results. -/
def Alike {α' : Type} (inv : σ → Prop) (R : α → α' → Prop) (op : ExceptT ε (StateM σ) α)
    (op' : ExceptT ε (StateM σ) α') : Prop :=
  ∀ s, inv s → (∃ a b s', inv s' ∧ Gives op s a s' ∧ Gives op' s b s' ∧ R a b) ∨
    ∃ e s', outcome op s = (.error e, s') ∧ outcome op' s = (.error e, s')

section Alike

variable {α' β' γ : Type} {inv : σ → Prop} {R : α → α' → Prop} {R' : β → β' → Prop}
  {op : ExceptT ε (StateM σ) α} {op' : ExceptT ε (StateM σ) α'}

theorem alike_pure {a : α} {b : α'} (h : R a b) :
    Alike inv R (pure a : ExceptT ε (StateM σ) α) (pure b) :=
  fun s hs => .inl ⟨a, b, s, hs, gives_pure.2 ⟨rfl, rfl⟩, gives_pure.2 ⟨rfl, rfl⟩, h⟩

theorem alike_throw (e : ε) :
    Alike inv R (throw e : ExceptT ε (StateM σ) α) (throw e : ExceptT ε (StateM σ) α') :=
  fun s _ => .inr ⟨e, s, outcome_throw e s, outcome_throw e s⟩

/-- An operation is like itself. -/
theorem Keeps.alike {post : α → Prop} (h : Keeps inv op post) :
    Alike inv (fun a b => b = a ∧ post a) op op := by
  intro s hs
  obtain ⟨hinv, hpost⟩ := h s hs
  rcases houtcome : outcome op s with ⟨e | a, s'⟩
  · exact .inr ⟨e, s', rfl, rfl⟩
  · rw [houtcome] at hinv hpost
    exact .inl ⟨a, a, s', hinv, houtcome, houtcome, rfl, hpost a rfl⟩

theorem alike_bind {f : α → ExceptT ε (StateM σ) β} {f' : α' → ExceptT ε (StateM σ) β'}
    (hop : Alike inv R op op') (hf : ∀ a b, R a b → Alike inv R' (f a) (f' b)) :
    Alike inv R' (op >>= f) (op' >>= f') := by
  intro s hs
  rcases hop s hs with ⟨a, b, s', hs', hgives, hgives', hR⟩ | ⟨e, s', herror, herror'⟩
  · have hbind : outcome (op >>= f) s = outcome (f a) s' := by
      rw [outcome_bind, show outcome op s = _ from hgives]
    have hbind' : outcome (op' >>= f') s = outcome (f' b) s' := by
      rw [outcome_bind, show outcome op' s = _ from hgives']
    rw [hbind, hbind']
    rcases hf a b hR s' hs' with ⟨a₁, b₁, s₁, hs₁, hfirst, hsecond, hR'⟩ | herror
    · exact .inl ⟨a₁, b₁, s₁, hs₁, hbind.trans hfirst, hbind'.trans hsecond, hR'⟩
    · exact .inr herror
  · refine .inr ⟨e, s', ?_, ?_⟩
    · rw [outcome_bind, herror]
    · rw [outcome_bind, herror']

/-- A step for one member of a list after another. -/
theorem alike_foldlM {g : β → γ → ExceptT ε (StateM σ) β} {g' : β' → γ → ExceptT ε (StateM σ) β'}
    {l : List γ} (h : ∀ c ∈ l, ∀ b b', R' b b' → Alike inv R' (g b c) (g' b' c)) {b : β} {b' : β'}
    (hb : R' b b') : Alike inv R' (l.foldlM g b) (l.foldlM g' b') := by
  induction l generalizing b b' with
  | nil => exact alike_pure hb
  | cons c l ih =>
    rw [List.foldlM_cons, List.foldlM_cons]
    refine alike_bind (h c List.mem_cons_self b b' hb) fun b₁ b₁' hb₁ => ?_
    exact ih (fun c hc => h c (List.mem_cons_of_mem _ hc)) hb₁

/-- What operations come to that are alike is the same where related results are. -/
theorem Alike.outcome_map {f : α → β} {f' : α' → β} (h : Alike inv R op op')
    (hf : ∀ a b, R a b → f a = f' b) {s : σ} (hs : inv s) :
    outcome (f <$> op) s = outcome (f' <$> op') s := by
  rw [map_eq_pure_bind, map_eq_pure_bind, outcome_bind, outcome_bind]
  rcases h s hs with ⟨a, b, s', -, hgives, hgives', hR⟩ | ⟨e, s', herror, herror'⟩
  · rw [show outcome op s = _ from hgives, show outcome op' s = _ from hgives']
    simp only [outcome_pure, hf a b hR]
  · rw [herror, herror']

end Alike

end Validation
