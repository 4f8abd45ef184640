import Mathlib.Logic.Basic

/-!
# Computations that may throw

Inversion rules for `Except` and `EStateM`: a computation that returns did every one of its
steps without throwing. `EStateM` keeps the state that was reached when an exception is
thrown, as an object with mutable members does. `Attains` is the specification of a method that
changes the object last: it returns with a postcondition or throws with the old state.
-/

namespace Outcome

variable {ε σ α β : Type}

/-- A sequence returns exactly if both parts do. -/
theorem bind_eq_ok {x : Except ε α} {f : α → Except ε β} {b : β} :
    (x >>= f) = .ok b ↔ ∃ a, x = .ok a ∧ f a = .ok b := by
  cases x with
  | error e => simp [bind, Except.bind]
  | ok a => simp [bind, Except.bind]

theorem pure_eq_ok {a b : α} : (pure a : Except ε α) = .ok b ↔ a = b := by
  simp [pure, Except.pure]

theorem map_eq_ok {x : Except ε α} {f : α → β} {b : β} :
    f <$> x = .ok b ↔ ∃ a, x = .ok a ∧ f a = b := by
  cases x with
  | error e => simp [Functor.map, Except.map]
  | ok a => simp [Functor.map, Except.map]

@[simp] theorem ok_bind (a : α) (f : α → Except ε β) : ((Except.ok a : Except ε α) >>= f) = f a :=
  rfl

@[simp] theorem error_bind (e : ε) (f : α → Except ε β) :
    ((Except.error e : Except ε α) >>= f) = .error e :=
  rfl

/-- A loop returns exactly if every iteration does. -/
theorem forM_eq_ok {l : List α} {f : α → Except ε Unit} :
    l.forM f = .ok () ↔ ∀ a ∈ l, f a = .ok () := by
  induction l with
  | nil => simp [pure, Except.pure]
  | cons a l ih =>
    change (f a >>= fun _ => l.forM f) = .ok () ↔ _
    rw [bind_eq_ok]
    simp only [List.mem_cons, forall_eq_or_imp, ← ih]
    constructor
    · rintro ⟨⟨⟩, ha, hl⟩
      exact ⟨ha, hl⟩
    · rintro ⟨ha, hl⟩
      exact ⟨(), ha, hl⟩

/-- A loop whose iterations all return collects their values. -/
theorem mapM_map_of_ok {γ : Type} {l : List α} {h : α → β} {f : β → Except ε γ} {g : α → γ}
    (hl : ∀ a ∈ l, f (h a) = .ok (g a)) : (l.map h).mapM f = .ok (l.map g) := by
  induction l with
  | nil => rfl
  | cons a l ih =>
    rw [List.map_cons, List.mapM_cons, hl a List.mem_cons_self, ok_bind,
      ih fun b hb => hl b (List.mem_cons_of_mem a hb)]
    rfl

/-- Two loops, the second over what the first collects, are one loop. -/
theorem mapM_bind_of_ok {γ : Type} {l : List α} {r : List β} {f : α → Except ε β}
    {g : β → Except ε γ} (h : l.mapM f = .ok r) : l.mapM (fun a => f a >>= g) = r.mapM g := by
  induction l generalizing r with
  | nil =>
    rw [List.mapM_nil, pure_eq_ok] at h
    rw [← h]
    rfl
  | cons a l ih =>
    rw [List.mapM_cons] at h
    obtain ⟨b, hb, h⟩ := bind_eq_ok.mp h
    obtain ⟨rest, hrest, h⟩ := bind_eq_ok.mp h
    rw [← pure_eq_ok.mp h, List.mapM_cons, List.mapM_cons, hb, ok_bind, ih hrest]

theorem mem_of_mapM_eq_ok {l : List α} {r : List β} {f : α → Except ε β} {b : β}
    (h : l.mapM f = .ok r) (hb : b ∈ r) : ∃ a ∈ l, f a = .ok b := by
  induction l generalizing r with
  | nil =>
    rw [List.mapM_nil, pure_eq_ok] at h
    rw [← h] at hb
    cases hb
  | cons a l ih =>
    rw [List.mapM_cons] at h
    obtain ⟨first, hfirst, h⟩ := bind_eq_ok.mp h
    obtain ⟨rest, hrest, h⟩ := bind_eq_ok.mp h
    rw [← pure_eq_ok.mp h] at hb
    rcases List.mem_cons.mp hb with rfl | hb
    · exact ⟨a, List.mem_cons_self, hfirst⟩
    · obtain ⟨a', ha', hb⟩ := ih hrest hb
      exact ⟨a', List.mem_cons_of_mem a ha', hb⟩

section Ensures

/-- Whatever a computation returns has a property. -/
def Ensures (x : Except ε α) (P : α → Prop) : Prop := ∀ a, x = .ok a → P a

variable {P : α → Prop} {Q : β → Prop}

theorem ensures_pure {a : α} (h : P a) : Ensures (pure a : Except ε α) P := by
  intro b hb
  cases hb
  exact h

theorem Ensures.bind {x : Except ε α} {f : α → Except ε β}
    (hf : ∀ a, x = .ok a → Ensures (f a) Q) : Ensures (x >>= f) Q := by
  intro b hb
  obtain ⟨a, ha, hb⟩ := bind_eq_ok.mp hb
  exact hf a ha b hb

end Ensures

/-- A stateful sequence returns exactly if both parts do, the second from the state that the
first left. -/
theorem run_bind_eq_ok {x : EStateM ε σ α} {f : α → EStateM ε σ β} {s s' : σ} {b : β} :
    (x >>= f) s = .ok b s' ↔ ∃ a s₁, x s = .ok a s₁ ∧ f a s₁ = .ok b s' := by
  change EStateM.bind x f s = _ ↔ _
  unfold EStateM.bind
  cases x s with
  | ok a s₁ =>
    constructor
    · exact fun h => ⟨a, s₁, rfl, h⟩
    · rintro ⟨_, _, ⟨rfl, rfl⟩, h⟩
      exact h
  | error e s₁ => simp

theorem run_pure_eq_ok {a b : α} {s s' : σ} :
    (pure a : EStateM ε σ α) s = .ok b s' ↔ a = b ∧ s = s' := by
  change EStateM.Result.ok a s = _ ↔ _
  simp

theorem bind_of_ok {x : EStateM ε σ α} {f : α → EStateM ε σ β} {s s' : σ} {a : α}
    (hx : x s = .ok a s') : (x >>= f) s = f a s' := by
  change EStateM.bind x f s = _
  rw [EStateM.bind, hx]

/-- A handler continues from the state in which the exception was thrown. -/
theorem tryCatch_apply (x : EStateM ε σ α) (handle : ε → EStateM ε σ α) (s : σ) :
    (tryCatch x handle) s = match x s with
      | .ok a s' => .ok a s'
      | .error e s' => handle e s' := by
  change EStateM.tryCatch x handle s = _
  unfold EStateM.tryCatch
  cases x s <;> rfl

section Attains

/-- A computation, run from a state, returns with `Q` or throws with the state as before. -/
def Attains (x : EStateM ε σ α) (s : σ) (Q : α → σ → Prop) : Prop :=
  match x s with
  | .ok a s' => Q a s'
  | .error _ s' => s' = s

/-- A computation that never changes the state. -/
def ReadOnly (x : EStateM ε σ α) : Prop := ∀ s, Attains x s fun _ s' => s' = s

variable {x : EStateM ε σ α} {f : α → EStateM ε σ β} {s s' : σ} {P Q : α → σ → Prop}
  {R : β → σ → Prop}

theorem attains_of_ok {a : α} (hx : x s = .ok a s') (hQ : Q a s') : Attains x s Q := by
  unfold Attains
  rw [hx]
  exact hQ

theorem Attains.error_eq {e : ε} (h : Attains x s Q) (hx : x s = .error e s') : s' = s := by
  unfold Attains at h
  rw [hx] at h
  exact h

theorem Attains.of_ok {a : α} (h : Attains x s Q) (hx : x s = .ok a s') : Q a s' := by
  unfold Attains at h
  rw [hx] at h
  exact h

theorem Attains.imp (h : Attains x s P) (hPQ : ∀ a s', P a s' → Q a s') : Attains x s Q := by
  unfold Attains at h ⊢
  cases hx : x s with
  | ok a s' =>
    rw [hx] at h
    exact hPQ a s' h
  | error e s' =>
    rw [hx] at h
    exact h

/-- Only the results of a computation that returns matter. -/
theorem Attains.strengthen (h : Attains x s P) (hQ : ∀ a s', x s = .ok a s' → Q a s') :
    Attains x s Q := by
  unfold Attains at h ⊢
  split
  · exact hQ _ _ (by assumption)
  · rename_i e s' hx
    rw [hx] at h
    exact h

theorem ReadOnly.of_ok {a : α} (h : ReadOnly x) (hx : x s = .ok a s') : s' = s :=
  (h s).of_ok hx

/-- Reads come first: what follows runs from the same state. -/
theorem ReadOnly.bind (hx : ReadOnly x) (hf : ∀ a, x s = .ok a s → Attains (f a) s R) :
    Attains (x >>= f) s R := by
  have hs := hx s
  unfold Attains at hs ⊢
  change match EStateM.bind x f s with | .ok a s' => R a s' | .error _ s' => s' = s
  unfold EStateM.bind
  cases h : x s with
  | ok a s₁ =>
    rw [h] at hs
    obtain rfl : s₁ = s := hs
    exact hf a h
  | error e s₁ =>
    rw [h] at hs
    exact hs

/-- What cannot fail comes last. -/
theorem Attains.bind_returns (hx : Attains x s P)
    (hf : ∀ a s₁, P a s₁ → ∃ b s', f a s₁ = .ok b s' ∧ R b s') : Attains (x >>= f) s R := by
  unfold Attains at hx ⊢
  change match EStateM.bind x f s with | .ok a s' => R a s' | .error _ s' => s' = s
  unfold EStateM.bind
  cases h : x s with
  | ok a s₁ =>
    rw [h] at hx
    obtain ⟨b, s', hb, hR⟩ := hf a s₁ hx
    simp only [hb]
    exact hR
  | error e s₁ =>
    rw [h] at hx
    exact hx

theorem attains_pure {a : α} (hQ : Q a s) : Attains (pure a : EStateM ε σ α) s Q := hQ

theorem attains_throw {e : ε} : Attains (throw e : EStateM ε σ α) s Q := rfl

theorem attains_modify {g : σ → σ} {Q : PUnit → σ → Prop} (hQ : Q ⟨⟩ (g s)) :
    Attains (modify g : EStateM ε σ PUnit) s Q := hQ

theorem attains_discard {Q : Unit → σ → Prop} (hx : Attains x s fun _ s' => Q () s') :
    Attains (discard x) s Q := by
  have hmap : discard x s = EStateM.map (fun _ => ()) x s := rfl
  unfold Attains at hx ⊢
  rw [hmap]
  unfold EStateM.map
  cases h : x s with
  | ok a s' =>
    rw [h] at hx
    exact hx
  | error e s' =>
    rw [h] at hx
    exact hx

theorem readOnly_get : ReadOnly (get : EStateM ε σ σ) := fun _ => rfl

/-- Reading the state gives the state. -/
theorem get_bind (f : σ → EStateM ε σ β) (s : σ) : (get >>= f) s = f s s := rfl

theorem ReadOnly.bind_readOnly (hx : ReadOnly x) (hf : ∀ a, ReadOnly (f a)) : ReadOnly (x >>= f) :=
  fun s => hx.bind fun a _ => hf a s

end Attains

section After

/-- The state that a computation leaves, whether it returns or throws. -/
def after (x : EStateM ε σ α) (s : σ) : σ :=
  match x s with
  | .ok _ s' => s'
  | .error _ s' => s'

/-- A computation keeps a property of the state. -/
def Preserves (P : σ → Prop) (x : EStateM ε σ α) : Prop := ∀ s, P s → P (after x s)

variable {x : EStateM ε σ α} {f : α → EStateM ε σ β} {s s' : σ} {P : σ → Prop} {Q : α → σ → Prop}

theorem after_of_ok {a : α} (hx : x s = .ok a s') : after x s = s' := by rw [after, hx]

theorem after_of_error {e : ε} (hx : x s = .error e s') : after x s = s' := by rw [after, hx]

theorem after_bind_of_ok {a : α} (hx : x s = .ok a s') : after (x >>= f) s = after (f a) s' := by
  rw [after, bind_of_ok hx, after]

theorem after_bind_of_error {e : ε} (hx : x s = .error e s') : after (x >>= f) s = s' := by
  have hbind : (x >>= f) s = .error e s' := by
    change EStateM.bind x f s = _
    rw [EStateM.bind, hx]
  exact after_of_error hbind

theorem after_discard (x : EStateM ε σ α) (s : σ) : after (discard x) s = after x s := by
  have hmap : discard x s = EStateM.map (fun _ => ()) x s := rfl
  rw [after, after, hmap, EStateM.map]
  cases x s <;> rfl

/-- A computation with a postcondition has it afterwards, or has changed nothing. -/
theorem Attains.after (h : Attains x s Q) : (∃ a, Q a (Outcome.after x s)) ∨ Outcome.after x s = s := by
  unfold Attains at h
  unfold Outcome.after
  cases hx : x s with
  | ok a s' =>
    rw [hx] at h
    exact Or.inl ⟨a, h⟩
  | error e s' =>
    rw [hx] at h
    exact Or.inr h

theorem ReadOnly.after_eq (h : ReadOnly x) (s : σ) : Outcome.after x s = s :=
  (h s).after.elim (fun ⟨_, heq⟩ => heq) id

/-- Reads come first: what follows runs from the same state, or does not run. -/
theorem ReadOnly.after_bind (h : ReadOnly x) (s : σ) :
    (∃ a, x s = .ok a s ∧ Outcome.after (x >>= f) s = Outcome.after (f a) s) ∨
      Outcome.after (x >>= f) s = s := by
  cases hx : x s with
  | ok a s' =>
    obtain rfl := h.of_ok hx
    exact Or.inl ⟨a, rfl, after_bind_of_ok hx⟩
  | error e s' =>
    rw [after_bind_of_error hx]
    exact Or.inr ((h s).error_eq hx)

theorem ReadOnly.preserves (h : ReadOnly x) : Preserves P x := by
  intro s hs
  rwa [h.after_eq]

theorem Preserves.bind (hx : Preserves P x) (hf : ∀ a, Preserves P (f a)) :
    Preserves P (x >>= f) := by
  intro s hs
  have hs₁ := hx s hs
  cases h : x s with
  | ok a s' =>
    rw [after_of_ok h] at hs₁
    rw [after_bind_of_ok h]
    exact hf a s' hs₁
  | error e s' =>
    rw [after_of_error h] at hs₁
    rwa [after_bind_of_error h]

theorem preserves_pure (a : α) : Preserves P (pure a : EStateM ε σ α) := fun _ hs => hs

theorem preserves_modify {g : σ → σ} (h : ∀ s, P s → P (g s)) :
    Preserves P (modify g : EStateM ε σ PUnit) := h

theorem Preserves.discard (hx : Preserves P x) : Preserves P (discard x) := by
  intro s hs
  rw [after_discard]
  exact hx s hs

end After

end Outcome
