import ForkFs.Lib.Bytes
import ForkFs.Lib.Outcome
import Mathlib.Data.List.Infix

/-!
# Decoders with checked accesses

A decoder reads a buffer at a moving offset. Accesses outside the buffer, and differences of sizes
that would wrap, are faults of their own, apart from the messages that a decoder throws. A step of
a decoder reads exactly the encodings of the valid values if it has no such faults and returns a
value precisely when its encoding stands at the offset. This carries over to repeated steps.
-/

namespace Scan

open Bytes Outcome

/-- Why a decoder stopped. -/
inductive Fault where
  /-- It rejected its input. -/
  | thrown (message : String)
  /-- It read outside the buffer. -/
  | outOfBounds
  /-- A difference of sizes was negative. -/
  | wrapped
  deriving DecidableEq, Repr

/-- A result or a fault. -/
abbrev Scanned (α : Type) := Except Fault α

section Accesses

variable {α β : Type}

/-- The bytes at an offset. -/
def peek (b : Bytes) (pos n : ℕ) : Scanned Bytes :=
  if pos + n ≤ b.length then .ok (slice b pos n) else .error .outOfBounds

/-- The number of bytes after an offset. -/
def left (b : Bytes) (pos : ℕ) : Scanned ℕ :=
  if pos ≤ b.length then .ok (b.length - pos) else .error .wrapped

/-- Throw unless a condition holds. -/
def demand (ok : Prop) [Decidable ok] (message : String) : Scanned Unit :=
  if ok then .ok () else .error (.thrown message)

/-- A computation without accesses. -/
def lift (x : Except String α) : Scanned α :=
  match x with
  | .ok a => .ok a
  | .error message => .error (.thrown message)

/-- No access of a computation is at fault. -/
def Safe (x : Scanned α) : Prop := ∀ fault, x = .error fault → ∃ message, fault = .thrown message

theorem safe_lift (x : Except String α) : Safe (lift x) := by
  intro fault h
  cases x with
  | ok a => cases h
  | error message =>
    cases h
    exact ⟨message, rfl⟩

theorem safe_pure (a : α) : Safe (pure a : Scanned α) := by
  intro fault h
  cases h

/-- A sequence is safe if what follows is safe after every result. -/
theorem Safe.bind {x : Scanned α} {f : α → Scanned β} (hx : Safe x)
    (hf : ∀ a, x = .ok a → Safe (f a)) : Safe (x >>= f) := by
  intro fault h
  cases x with
  | ok a => exact hf a rfl fault h
  | error e =>
    cases h
    exact hx _ rfl

variable {b x : Bytes} {pos n v w : ℕ} {message : String}

/-- After a check its condition holds. -/
theorem safe_demand {ok : Prop} [Decidable ok] {f : Unit → Scanned α} (hf : ok → Safe (f ())) :
    Safe (demand ok message >>= f) := by
  unfold demand
  split
  · exact hf ‹_›
  · exact safe_lift (.error message)

theorem peek_of_le (h : pos + n ≤ b.length) : peek b pos n = .ok (slice b pos n) := if_pos h

theorem left_of_le (h : pos ≤ b.length) : left b pos = .ok (b.length - pos) := if_pos h

theorem safe_peek (h : pos + n ≤ b.length) : Safe (peek b pos n) := by
  rw [peek_of_le h]
  exact safe_pure _

theorem safe_left (h : pos ≤ b.length) : Safe (left b pos) := by
  rw [left_of_le h]
  exact safe_pure _

theorem demand_bind_eq_ok {ok : Prop} [Decidable ok] {f : Unit → Scanned α} {a : α} :
    (demand ok message >>= f) = .ok a ↔ ok ∧ f () = .ok a := by
  unfold demand
  split
  · simp [*]
  · simp [*]

/-- The computations that follow a check agree if they do so when it passes. -/
theorem demand_bind_congr {ok : Prop} [Decidable ok] {f g : Unit → Scanned α}
    (h : ok → f () = g ()) : (demand ok message >>= f) = (demand ok message >>= g) := by
  unfold demand
  split
  · exact h ‹_›
  · rfl

@[simp] theorem lift_ok (a : α) : lift (.ok a : Except String α) = .ok a := rfl

@[simp] theorem lift_pure (a : α) : lift (pure a : Except String α) = pure a := rfl

theorem lift_bind (x : Except String α) (f : α → Except String β) :
    lift (x >>= f) = lift x >>= fun a => lift (f a) := by
  cases x <;> rfl

theorem lift_eq_ok {x : Except String α} {a : α} : lift x = .ok a ↔ x = .ok a := by
  cases x <;> simp [lift]

/-- What stands at an offset. -/
theorem peek_eq_ok (hpos : pos ≤ b.length) :
    peek b pos n = .ok x ↔ x.length = n ∧ x <+: b.drop pos := by
  unfold peek
  constructor
  · intro h
    split at h
    · rename_i hin
      cases h
      exact ⟨length_slice_of_le hin, List.take_prefix _ _⟩
    · cases h
  · rintro ⟨rfl, hx⟩
    have hle := hx.length_le
    rw [List.length_drop] at hle
    rw [if_pos (by omega), slice, ← List.prefix_iff_eq_take.mp hx]

/-- A number at an offset. -/
theorem load_slice_eq (hpos : pos ≤ b.length) :
    pos + w ≤ b.length ∧ load (slice b pos w) = v ↔ v < 256 ^ w ∧ store v w <+: b.drop pos := by
  constructor
  · rintro ⟨hin, rfl⟩
    have hlt := load_lt (slice b pos w)
    rw [length_slice_of_le hin] at hlt
    rw [← slice_eq_store hin rfl]
    exact ⟨hlt, List.take_prefix _ _⟩
  · rintro ⟨hv, hstore⟩
    have hle := hstore.length_le
    rw [length_store, List.length_drop] at hle
    have hslice : slice b pos w = store v w := by
      have htake := List.prefix_iff_eq_take.mp hstore
      rw [length_store] at htake
      exact htake.symm
    rw [hslice, load_store_of_lt hv]
    exact ⟨by omega, rfl⟩

/-- Two parts that follow each other. -/
theorem append_at_iff {y : Bytes} :
    x ++ y <+: b.drop pos ↔ x <+: b.drop pos ∧ y <+: b.drop (pos + x.length) := by
  rw [← List.drop_drop]
  constructor
  · rintro ⟨rest, hrest⟩
    rw [List.append_assoc] at hrest
    refine ⟨⟨_, hrest⟩, ⟨rest, ?_⟩⟩
    rw [← hrest, List.drop_left]
  · rintro ⟨⟨rest, hrest⟩, hy⟩
    rw [← hrest] at hy ⊢
    rw [List.drop_left] at hy
    exact (List.prefix_append_right_inj x).mpr hy

/-- A number of four bytes, whose presence is checked. -/
def u32 (message : String) (b : Bytes) (pos : ℕ) : Scanned ℕ := do
  demand (pos ≤ b.length ∧ 4 ≤ b.length - pos) message
  let field ← peek b pos 4
  pure (load field)

theorem u32_eq_ok (hpos : pos ≤ b.length) :
    u32 message b pos = .ok v ↔ v < 256 ^ 4 ∧ store v 4 <+: b.drop pos := by
  rw [u32, demand_bind_eq_ok, ← load_slice_eq hpos]
  constructor
  · rintro ⟨hin, h⟩
    rw [peek_of_le (by omega), ok_bind] at h
    exact ⟨by omega, pure_eq_ok.mp h⟩
  · rintro ⟨hin, rfl⟩
    rw [peek_of_le hin]
    exact ⟨by omega, rfl⟩

theorem safe_u32 : Safe (u32 message b pos) := by
  exact safe_demand fun hin => (safe_peek (by omega)).bind fun _ _ => safe_pure _

end Accesses

section Reads

variable {α σ : Type} {encode : α → Bytes}

/-- A step that reads exactly the encodings of valid values. -/
structure Reads (step : Bytes → ℕ → Scanned (α × ℕ)) (encode : α → Bytes) (Valid : α → Prop) :
    Prop where
  exact : ∀ b pos a stop, pos ≤ b.length → (step b pos = .ok (a, stop) ↔
    Valid a ∧ stop = pos + (encode a).length ∧ encode a <+: b.drop pos)
  safe : ∀ b pos, pos ≤ b.length → Safe (step b pos)

/-- A step ends inside the buffer. -/
theorem Reads.stop_le {step : Bytes → ℕ → Scanned (α × ℕ)} {Valid : α → Prop} {b : Bytes}
    {pos stop : ℕ} {a : α} (h : Reads step encode Valid) (hpos : pos ≤ b.length)
    (hstep : step b pos = .ok (a, stop)) : stop ≤ b.length := by
  obtain ⟨-, rfl, hin⟩ := (h.exact b pos a stop hpos).mp hstep
  have hle := hin.length_le
  rw [List.length_drop] at hle
  omega

/-- The same values, described in another way. -/
theorem Reads.congr {step : Bytes → ℕ → Scanned (α × ℕ)} {Valid Valid' : α → Prop}
    (h : Reads step encode Valid) (hvalid : ∀ a, Valid a ↔ Valid' a) : Reads step encode Valid' where
  exact := by
    intro b pos a stop hpos
    rw [← hvalid a]
    exact h.exact b pos a stop hpos
  safe := h.safe

/-- A step and one that depends on it. What is read first can be told from the result. -/
theorem Reads.seq {β : Type} {first : Bytes → ℕ → Scanned (α × ℕ)}
    {second : α → Bytes → ℕ → Scanned (β × ℕ)} {encode' : β → Bytes} {Valid : α → Prop}
    {Valid' : α → β → Prop} {fst : β → α} (h : Reads first encode Valid)
    (h' : ∀ a, Reads (second a) encode' (Valid' a)) (hfst : ∀ a c, Valid' a c → a = fst c) :
    Reads (fun b pos => first b pos >>= fun p => second p.1 b p.2)
      (fun c => encode (fst c) ++ encode' c) fun c => Valid (fst c) ∧ Valid' (fst c) c where
  exact := by
    intro b pos c stop hpos
    rw [bind_eq_ok]
    constructor
    · rintro ⟨⟨a, pos'⟩, hfirst, hsecond⟩
      obtain ⟨hvalid', rfl, hin'⟩ :=
        ((h' a).exact b pos' c stop (h.stop_le hpos hfirst)).mp hsecond
      obtain ⟨hvalid, rfl, hin⟩ := (h.exact b pos a pos' hpos).mp hfirst
      obtain rfl := hfst a c hvalid'
      refine ⟨⟨hvalid, hvalid'⟩, ?_, append_at_iff.mpr ⟨hin, hin'⟩⟩
      rw [List.length_append, Nat.add_assoc]
    · rintro ⟨⟨hvalid, hvalid'⟩, rfl, hin⟩
      obtain ⟨hin, hin'⟩ := append_at_iff.mp hin
      have hfirst := (h.exact b pos (fst c) _ hpos).mpr ⟨hvalid, rfl, hin⟩
      refine ⟨_, hfirst, ((h' _).exact b _ c _ (h.stop_le hpos hfirst)).mpr ⟨hvalid', ?_, hin'⟩⟩
      rw [List.length_append, Nat.add_assoc]
  safe := by
    intro b pos hpos
    refine (h.safe b pos hpos).bind fun ⟨a, pos'⟩ hfirst => ?_
    exact (h' a).safe b pos' (h.stop_le hpos hfirst)

/-- A check before a step. -/
theorem Reads.guard {step : Bytes → ℕ → Scanned (α × ℕ)} {Valid : α → Prop}
    (h : Reads step encode Valid) (ok : Prop) [Decidable ok] (message : String) :
    Reads (fun b pos => demand ok message >>= fun _ => step b pos) encode fun a => ok ∧ Valid a where
  exact := by
    intro b pos a stop hpos
    rw [demand_bind_eq_ok, h.exact b pos a stop hpos, and_assoc]
  safe := fun b pos hpos => safe_demand fun _ => h.safe b pos hpos

/-- A step that has to end with the buffer. -/
def finish (message : String) (step : Bytes → ℕ → Scanned (α × ℕ)) (b : Bytes) (pos : ℕ) :
    Scanned α := do
  let (a, stop) ← step b pos
  demand (stop = b.length) message
  pure a

section Finish

variable {step : Bytes → ℕ → Scanned (α × ℕ)} {Valid : α → Prop} {b : Bytes} {pos : ℕ} {a : α}
  {message : String}

/-- It reads what is left. -/
theorem Reads.finish_eq_ok (h : Reads step encode Valid) (hpos : pos ≤ b.length) :
    finish message step b pos = .ok a ↔ Valid a ∧ b.drop pos = encode a := by
  rw [finish, bind_eq_ok]
  constructor
  · rintro ⟨⟨a', stop⟩, hstep, hend⟩
    obtain ⟨hstop, hdone⟩ := demand_bind_eq_ok.mp hend
    obtain rfl : a' = a := pure_eq_ok.mp hdone
    obtain ⟨hvalid, hlength, hin⟩ := (h.exact b pos a' stop hpos).mp hstep
    refine ⟨hvalid, (hin.eq_of_length ?_).symm⟩
    rw [List.length_drop]
    omega
  · rintro ⟨hvalid, hdrop⟩
    have hlength := congrArg List.length hdrop
    rw [List.length_drop] at hlength
    have hin : encode a <+: b.drop pos := by rw [hdrop]
    refine ⟨_, (h.exact b pos a _ hpos).mpr ⟨hvalid, rfl, hin⟩, ?_⟩
    exact demand_bind_eq_ok.mpr ⟨by omega, rfl⟩

theorem Reads.safe_finish (h : Reads step encode Valid) (hpos : pos ≤ b.length) :
    Safe (finish message step b pos) :=
  (h.safe b pos hpos).bind fun _ _ => safe_demand fun _ => safe_pure _

end Finish

/-- A number of steps. Each depends on what was read before. -/
def many (step : σ → Bytes → ℕ → Scanned (α × ℕ)) (next : σ → α → σ) :
    ℕ → σ → Bytes → ℕ → Scanned (List α × ℕ)
  | 0, _, _, pos => pure ([], pos)
  | n + 1, s, b, pos => do
    let (a, pos) ← step s b pos
    let (more, pos) ← many step next n (next s a) b pos
    pure (a :: more, pos)

/-- Values that are valid one after the other. -/
def ValidAll (Valid : σ → α → Prop) (next : σ → α → σ) : σ → List α → Prop
  | _, [] => True
  | s, a :: more => Valid s a ∧ ValidAll Valid next (next s a) more

/-- If validity does not depend on what was read, it is that of every value. -/
theorem validAll_iff {Valid : α → Prop} {next : σ → α → σ} {s : σ} {l : List α} :
    ValidAll (fun _ => Valid) next s l ↔ ∀ a ∈ l, Valid a := by
  induction l generalizing s with
  | nil => simp [ValidAll]
  | cons a more ih => simp [ValidAll, ih]

/-- Repeated steps read exactly the lists of valid values. -/
theorem Reads.many {step : σ → Bytes → ℕ → Scanned (α × ℕ)} {next : σ → α → σ}
    {Valid : σ → α → Prop} (h : ∀ s, Reads (step s) encode (Valid s)) (n : ℕ) (s : σ) :
    Reads (many step next n s) (fun l => l.flatMap encode)
      fun l => l.length = n ∧ ValidAll Valid next s l := by
  induction n generalizing s with
  | zero =>
    refine ⟨fun b pos l stop hpos => ?_, fun b pos hpos => safe_pure _⟩
    rw [Scan.many, pure_eq_ok, Prod.mk.injEq]
    constructor
    · rintro ⟨rfl, rfl⟩
      exact ⟨⟨rfl, trivial⟩, rfl, List.nil_prefix⟩
    · rintro ⟨⟨hlength, -⟩, rfl, -⟩
      obtain rfl := List.length_eq_zero_iff.mp hlength
      exact ⟨rfl, rfl⟩
  | succ n ih =>
    refine ⟨fun b pos l stop hpos => ?_, fun b pos hpos => ?_⟩
    · rw [Scan.many, bind_eq_ok]
      constructor
      · rintro ⟨⟨a, pos'⟩, hstep, hmore⟩
        obtain ⟨hvalid, rfl, hin⟩ := ((h s).exact b pos a pos' hpos).mp hstep
        obtain ⟨⟨more, stop'⟩, hmany, hdone⟩ := bind_eq_ok.mp hmore
        obtain ⟨rfl, rfl⟩ := Prod.mk.inj (pure_eq_ok.mp hdone)
        obtain ⟨⟨rfl, hall⟩, rfl, hrest⟩ :=
          ((ih (next s a)).exact b _ more stop' ((h s).stop_le hpos hstep)).mp hmany
        refine ⟨⟨rfl, hvalid, hall⟩, ?_, append_at_iff.mpr ⟨hin, hrest⟩⟩
        rw [List.flatMap_cons, List.length_append, Nat.add_assoc]
      · rintro ⟨⟨hlength, hall⟩, rfl, hin⟩
        cases l with
        | nil => cases hlength
        | cons a more =>
          obtain ⟨hfirst, hrest⟩ := append_at_iff.mp hin
          have hstep := ((h s).exact b pos a _ hpos).mpr ⟨hall.1, rfl, hfirst⟩
          have hmany := ((ih (next s a)).exact b _ more _ ((h s).stop_le hpos hstep)).mpr
            ⟨⟨Nat.succ.inj hlength, hall.2⟩, rfl, hrest⟩
          refine ⟨_, hstep, bind_eq_ok.mpr ⟨_, hmany, ?_⟩⟩
          rw [List.flatMap_cons, List.length_append, Nat.add_assoc]
          rfl
    · refine ((h s).safe b pos hpos).bind fun ⟨a, pos'⟩ hstep => ?_
      refine ((ih (next s a)).safe b pos' ((h s).stop_le hpos hstep)).bind fun _ _ => safe_pure _

end Reads

end Scan
