import ForkFs.Lib.Bytes

/-!
# Readers of a growing log

A reader consumes a log from a position, one step at a time, until the log ends, the reader
stops or it fails. A step may look at everything that follows its position, so the lemmas are
about pieces of a log in any context: `Feeds` says what a complete piece does whatever
follows it, and `Cuts` what is left when the log ends inside the piece.
-/

/-- A reader with states `σ` and errors `ε`. -/
structure LogReader (σ ε : Type*) where
  /-- One step; `none` stops the reader. -/
  step : Bytes → σ → Except ε (Option σ)
  /-- The position of the next byte. -/
  pos : σ → ℕ
  /-- Every step consumes something. -/
  advances : ∀ log s s', pos s < log.length → step log s = .ok (some s') → pos s < pos s'

namespace LogReader

variable {σ ε : Type*} (r : LogReader σ ε)

/-- Read a log to its end. -/
def run (log : Bytes) (s : σ) : Except ε σ :=
  if _h : r.pos s < log.length then
    match _hstep : r.step log s with
    | .error e => .error e
    | .ok none => .ok s
    | .ok (some s') => run log s'
  else .ok s
termination_by log.length - r.pos s
decreasing_by
  have := r.advances log s s' _h _hstep
  omega

/-- Steps on a fixed log. -/
inductive Steps (log : Bytes) : σ → σ → Prop
  | refl (s : σ) : Steps log s s
  | head {s s' s'' : σ} : r.pos s < log.length → r.step log s = .ok (some s') →
      Steps log s' s'' → Steps log s s''

/-- The reader is done with a log. -/
def Halts (log : Bytes) (s : σ) : Prop :=
  r.pos s < log.length → r.step log s = .ok none

/-- A piece of a log takes the reader from one state to another, whatever follows the piece. -/
structure Feeds (s : σ) (bytes : Bytes) (s' : σ) : Prop where
  /-- The piece is consumed. -/
  pos_eq : r.pos s' = r.pos s + bytes.length
  /-- The steps it takes. -/
  steps : ∀ pre rest : Bytes, pre.length = r.pos s → r.Steps (pre ++ bytes ++ rest) s s'

/-- A log that ends inside a piece leaves the reader in a state with a property. -/
def Cuts (s : σ) (bytes : Bytes) (p : σ → Prop) : Prop :=
  ∀ (pre : Bytes) (n : ℕ), pre.length = r.pos s → n < bytes.length →
    ∃ s', r.Steps (pre ++ bytes.take n) s s' ∧ r.Halts (pre ++ bytes.take n) s' ∧ p s'

variable {r} {log : Bytes} {s s' s'' : σ} {bytes bytes' : Bytes} {p q : σ → Prop}

theorem Steps.trans (h : r.Steps log s s') (h' : r.Steps log s' s'') : r.Steps log s s'' := by
  induction h with
  | refl => exact h'
  | head hpos hstep _ ih => exact .head hpos hstep (ih h')

theorem run_of_steps (h : r.Steps log s s') : r.run log s = r.run log s' := by
  induction h with
  | refl => rfl
  | head hpos hstep _ ih =>
    rw [run.eq_def, dif_pos hpos]
    split
    · rename_i heq
      simp [hstep] at heq
    · rename_i heq
      simp [hstep] at heq
    · rename_i heq
      rw [hstep] at heq
      cases heq
      exact ih

/-- A reader that halts returns the state it halted in. -/
theorem run_of_halts (h : r.Steps log s s') (hhalts : r.Halts log s') : r.run log s = .ok s' := by
  rw [run_of_steps h, run.eq_def]
  by_cases hpos : r.pos s' < log.length
  · have hnone := hhalts hpos
    rw [dif_pos hpos]
    split
    · rename_i heq
      simp [hnone] at heq
    · rfl
    · rename_i heq
      simp [hnone] at heq
  · rw [dif_neg hpos]

theorem halts_of_pos (h : r.pos s = log.length) : r.Halts log s := fun hlt => by omega

/-- A piece that one step consumes. -/
theorem feeds_of_step (hne : bytes ≠ []) (hpos : r.pos s' = r.pos s + bytes.length)
    (hstep : ∀ pre rest : Bytes, pre.length = r.pos s →
      r.step (pre ++ bytes ++ rest) s = .ok (some s')) : r.Feeds s bytes s' := by
  refine ⟨hpos, fun pre rest hpre => .head ?_ (hstep pre rest hpre) (.refl s')⟩
  have := List.length_pos_of_ne_nil hne
  simp only [List.length_append]
  omega

/-- A piece that stops the reader unless it is complete. -/
theorem cuts_of_stop (hp : p s)
    (hstep : ∀ (pre : Bytes) (n : ℕ), pre.length = r.pos s → 0 < n → n < bytes.length →
      r.step (pre ++ bytes.take n) s = .ok none) : r.Cuts s bytes p := by
  intro pre n hpre hn
  refine ⟨s, .refl s, fun hlt => hstep pre n hpre ?_ hn, hp⟩
  simp only [List.length_append, List.length_take] at hlt
  omega

theorem Feeds.refl (s : σ) : r.Feeds s [] s := ⟨by simp, fun _ _ _ => .refl s⟩

theorem Feeds.append (h : r.Feeds s bytes s') (h' : r.Feeds s' bytes' s'') :
    r.Feeds s (bytes ++ bytes') s'' := by
  constructor
  · rw [h'.pos_eq, h.pos_eq, List.length_append]
    omega
  · intro pre rest hpre
    have hsteps := h.steps pre (bytes' ++ rest) hpre
    have hsteps' := h'.steps (pre ++ bytes) rest (by rw [List.length_append, hpre, h.pos_eq])
    simp only [List.append_assoc] at hsteps hsteps' ⊢
    exact hsteps.trans hsteps'

theorem cuts_nil (s : σ) (p : σ → Prop) : r.Cuts s [] p := fun _ _ _ hn => by simp at hn

/-- A log that ends inside two pieces ends inside the first or, after it, inside the second. -/
theorem Cuts.append (h : r.Cuts s bytes p) (hfeeds : r.Feeds s bytes s')
    (h' : r.Cuts s' bytes' p) : r.Cuts s (bytes ++ bytes') p := by
  intro pre n hpre hn
  by_cases hlt : n < bytes.length
  · rw [List.take_append_of_le_length hlt.le]
    exact h pre n hpre hlt
  · have hn' : n - bytes.length < bytes'.length := by
      rw [List.length_append] at hn
      omega
    obtain ⟨s₂, hsteps, hhalts, hp⟩ := h' (pre ++ bytes) (n - bytes.length)
      (by rw [List.length_append, hpre, hfeeds.pos_eq]) hn'
    have htake : pre ++ (bytes ++ bytes').take n = pre ++ bytes ++ bytes'.take (n - bytes.length) := by
      rw [List.take_append, List.take_of_length_le (by omega), List.append_assoc]
    rw [htake]
    exact ⟨s₂, (hfeeds.steps pre _ hpre).trans hsteps, hhalts, hp⟩

theorem Cuts.imp (h : r.Cuts s bytes p) (hpq : ∀ s, p s → q s) : r.Cuts s bytes q := by
  intro pre n hpre hn
  obtain ⟨s', hsteps, hhalts, hp⟩ := h pre n hpre hn
  exact ⟨s', hsteps, hhalts, hpq s' hp⟩

end LogReader
