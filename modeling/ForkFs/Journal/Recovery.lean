import ForkFs.Journal.Calls
import ForkFs.Journal.Open

/-!
# Crash recovery of the single-file journal

A run of the journal is a sequence of calls, reopenings and calls that were interrupted after any
number of bytes. Every journal that a run reaches reopens to itself: the part of the log that it
keeps replays to its index, and what follows is left behind.
-/

namespace ForkFs.Journal

open Bytes Replay

variable [Digest]

/-- What can happen to a journal. -/
inductive Event
  /-- A call that is carried out or rejected. -/
  | call (c : Call)
  /-- The journal is closed and opened again. -/
  | reopen
  /-- A call is interrupted after the given number of bytes, and the journal is opened again. -/
  | crash (c : Call) (n : ℕ)

/-- The file after an interrupted call. -/
def interrupted (repository : Repository) (j : Journal) (c : Call) (n : ℕ) : Bytes :=
  match plan repository j c with
  | .error _ => j.log
  | .ok a => j.kept ++ a.bytes.take n

/-- One event, with full replay at every opening. -/
def step (repository : Repository) (j : Journal) : Event → Except String Journal
  | .call c => .ok (call repository j c)
  | .reopen => open_ repository j.log .none
  | .crash c n => open_ repository (interrupted repository j c n) .none

/-- The journal of a new container. -/
def new : Journal := ⟨[], Index.empty, base, false⟩

/-- A sequence of events on a new container. -/
def run (repository : Repository) (events : List Event) : Except String Journal :=
  events.foldlM (step repository) new

/-- The log of a journal replays to it from an index that is complete up to `end₀`. -/
structure Resumes (repository : Repository) (index₀ : Index) (end₀ : ℕ) (j : Journal) : Prop where
  /-- Replay may begin there. -/
  start : Rests (Replay.from_ index₀ end₀) index₀ end₀
  /-- The rest of the kept part replays to the index. -/
  replays : ∃ front back r, j.kept = front ++ back ∧ base + front.length = end₀ ∧
    (reader repository).Feeds (Replay.from_ index₀ end₀) back r ∧ Rests r j.index j.end_
  /-- The segment is identified, whatever follows. -/
  segment : ∀ rest, checkSegment repository (j.kept ++ rest) end₀ = .ok ()
  /-- The whole log opens to the journal. -/
  opens : openFrom repository j.log index₀ end₀ = .ok j

variable {repository : Repository} {j : Journal} {index₀ : Index} {end₀ : ℕ}

/-- An open journal is where the replay of its log halts. -/
theorem openFrom_eq_ok {log : Bytes} {r : Replay} (hsegment : checkSegment repository log end₀ = .ok ())
    (hsteps : (reader repository).Steps log (Replay.from_ index₀ end₀) r)
    (hhalts : (reader repository).Halts log r) :
    openFrom repository log index₀ end₀ =
      .ok ⟨log, r.index, r.end_, base + log.length ≠ r.end_⟩ := by
  rw [openFrom, hsegment, Outcome.ok_bind, LogReader.run_of_halts hsteps hhalts]
  rfl

theorem Resumes.length_kept (h : Resumes repository index₀ end₀ j) :
    base + j.kept.length = j.end_ := by
  obtain ⟨front, back, r, hkept, hfront, hfeeds, hrests⟩ := h.replays
  have hpos := hfeeds.pos_eq
  change r.pos = end₀ - base + _ at hpos
  rw [← hrests.at_eq, Replay.at_, hkept, List.length_append]
  omega

/-- A complete append opens to its own result. -/
theorem Resumes.append (h : Resumes repository index₀ end₀ j) {a : Append}
    (ha : Replays repository j.index j.end_ a) : Resumes repository index₀ end₀ (j.append a) := by
  obtain ⟨front, back, r, hkept, hfront, hfeeds, hrests⟩ := h.replays
  obtain ⟨r', hfeeds', hrests', -⟩ := ha r hrests
  have hall := hfeeds.append hfeeds'
  have hlog : front ++ (back ++ a.bytes) = j.kept ++ a.bytes := by
    rw [hkept, List.append_assoc]
  have hsteps := hall.steps front [] (by change _ = end₀ - base; omega)
  rw [List.append_nil, hlog] at hsteps
  have hpos : (reader repository).pos r' = (j.kept ++ a.bytes).length := by
    have hstart : (reader repository).pos (Replay.from_ index₀ end₀) = front.length := by
      change end₀ - base = _
      omega
    rw [hall.pos_eq, hstart, ← hlog, ← List.length_append]
  have hend : base + (j.kept ++ a.bytes).length = a.end_ := by
    rw [← hpos, ← hrests'.at_eq]
    rfl
  refine ⟨h.start, ⟨front, back ++ a.bytes, r', hlog.symm, hfront, hall, hrests'⟩, fun rest => ?_, ?_⟩
  · change checkSegment repository (j.kept ++ a.bytes ++ rest) end₀ = _
    rw [List.append_assoc]
    exact h.segment _
  · change openFrom repository (j.kept ++ a.bytes) _ _ = _
    rw [openFrom_eq_ok (h.segment _) hsteps (LogReader.halts_of_pos hpos), hrests'.index_eq,
      hrests'.end_eq]
    simp only [Journal.append, hend, ne_eq, not_true_eq_false, decide_false]

/-- The journal after an interrupted append. -/
def cutOff (j : Journal) (bytes : Bytes) : Journal :=
  ⟨j.kept ++ bytes, j.index, j.end_, base + (j.kept ++ bytes).length ≠ j.end_⟩

omit [Digest] in
theorem kept_cutOff (h : base + j.kept.length = j.end_) (bytes : Bytes) :
    (j.cutOff bytes).kept = j.kept := by
  have htake : (j.kept ++ bytes).take (j.end_ - base) = j.kept := List.take_left' (by omega)
  change (if decide _ = true then (j.kept ++ bytes).take (j.end_ - base) else _) = _
  split
  · exact htake
  · rename_i hnot
    rw [decide_eq_true_eq, not_not, List.length_append] at hnot
    rw [List.eq_nil_of_length_eq_zero (by omega : bytes.length = 0)]
    exact List.append_nil _

/-- An interrupted append opens to the journal before it. -/
theorem Resumes.cutOff (h : Resumes repository index₀ end₀ j) {a : Append} {n : ℕ}
    (hn : n < a.bytes.length) (ha : Replays repository j.index j.end_ a) :
    Resumes repository index₀ end₀ (j.cutOff (a.bytes.take n)) := by
  obtain ⟨front, back, r, hkept, hfront, hfeeds, hrests⟩ := h.replays
  obtain ⟨-, -, -, hcuts⟩ := ha r hrests
  have hpos : j.kept.length = (reader repository).pos r := by
    rw [hfeeds.pos_eq, hkept, List.length_append]
    change _ = end₀ - base + _
    omega
  obtain ⟨s, hsteps, hhalts, hindex, hend⟩ := hcuts j.kept n hpos hn
  have hfirst := hfeeds.steps front (a.bytes.take n) (by change _ = end₀ - base; omega)
  rw [← hkept] at hfirst
  have hopen := openFrom_eq_ok (h.segment _) (hfirst.trans hsteps) hhalts
  rw [hindex, hend] at hopen
  have heq := kept_cutOff h.length_kept (a.bytes.take n)
  exact ⟨h.start, ⟨front, back, r, heq.trans hkept, hfront, hfeeds, hrests⟩,
    fun rest => heq.symm ▸ h.segment rest, hopen⟩

/-- The log of a journal replays to it from the beginning. -/
structure Sound (repository : Repository) (j : Journal) : Prop where
  /-- Sequence numbers fit their field. -/
  seq_lt : j.index.seq < 2 ^ 64
  /-- Nothing is needed but the log. -/
  resumes : Resumes repository Index.empty base j

theorem Sound.opens (h : Sound repository j) : open_ repository j.log .none = .ok j :=
  h.resumes.opens

theorem sound_new (repository : Repository) : Sound repository new := by
  have hstart : Rests (Replay.from_ Index.empty base) Index.empty base :=
    ⟨rfl, rfl, rfl, rfl, Nat.dvd_zero 8, Or.inl rfl⟩
  have hsegment : ∀ log, checkSegment repository log base = .ok () := fun log =>
    if_neg fun h => absurd h.1 (lt_irrefl base)
  refine ⟨by decide, hstart, ⟨[], [], _, rfl, rfl, .refl _, hstart⟩, fun _ => hsegment _, ?_⟩
  exact openFrom_eq_ok (hsegment _) (.refl _) (LogReader.halts_of_pos rfl)

theorem interrupted_of_plan {c : Call} {a : Append} (hplan : plan repository j c = .ok a) (n : ℕ) :
    interrupted repository j c n = j.kept ++ a.bytes.take n := by
  rw [interrupted, hplan]

/-- A call that is interrupted leaves the journal before it or after it. -/
theorem Sound.interrupted (h : Sound repository j) {c : Call} {a : Append}
    (hplan : plan repository j c = .ok a) (n : ℕ) :
    ∃ j', Journal.interrupted repository j c n = j'.log ∧ Sound repository j' ∧
      j'.index = (if a.bytes.length ≤ n then a.index else j.index) ∧
      j'.end_ = if a.bytes.length ≤ n then a.end_ else j.end_ := by
  obtain ⟨ha, hseq⟩ := replays_plan hplan h.seq_lt
  rw [interrupted_of_plan hplan]
  by_cases hn : a.bytes.length ≤ n
  · rw [if_pos hn, if_pos hn, List.take_of_length_le hn]
    exact ⟨j.append a, rfl, ⟨hseq, h.resumes.append ha⟩, rfl, rfl⟩
  · rw [if_neg hn, if_neg hn]
    exact ⟨j.cutOff (a.bytes.take n), rfl, ⟨h.seq_lt, h.resumes.cutOff (not_le.mp hn) ha⟩, rfl, rfl⟩

/-- Every event succeeds and leaves a sound journal. -/
theorem sound_step (h : Sound repository j) (e : Event) :
    ∃ j', step repository j e = .ok j' ∧ Sound repository j' := by
  cases e with
  | call c =>
    refine ⟨_, rfl, ?_⟩
    unfold call
    split
    · exact h
    · rename_i a hplan
      obtain ⟨ha, hseq⟩ := replays_plan hplan h.seq_lt
      exact ⟨hseq, h.resumes.append ha⟩
  | reopen => exact ⟨j, h.opens, h⟩
  | crash c n =>
    change ∃ j', open_ repository (Journal.interrupted repository j c n) .none = .ok j' ∧ _
    cases hplan : plan repository j c with
    | error e =>
      rw [Journal.interrupted, hplan]
      exact ⟨j, h.opens, h⟩
    | ok a =>
      obtain ⟨j', hlog, hsound, -⟩ := h.interrupted hplan n
      rw [hlog]
      exact ⟨j', hsound.opens, hsound⟩

theorem sound_foldlM (h : Sound repository j) (events : List Event) :
    ∃ j', events.foldlM (step repository) j = .ok j' ∧ Sound repository j' := by
  induction events generalizing j with
  | nil => exact ⟨j, rfl, h⟩
  | cons e events ih =>
    obtain ⟨j₁, hstep, hsound⟩ := sound_step h e
    rw [List.foldlM_cons, hstep, Outcome.ok_bind]
    exact ih hsound

/-- A transaction ends with its COMMIT record, and a checkpoint keeps the index. -/
theorem plan_ends {c : Call} {a : Append} (h : plan repository j c = .ok a)
    (hseq : j.index.seq < 2 ^ 64) :
    (∃ front commit, a.bytes = front ++ record 3 (j.index.seq + 1) commit Hash.zero) ∨
      c = .checkpoint ∧ a.index = j.index := by
  rcases plan_cases h hseq with ⟨values, type, prepare, changes, -, h⟩ | ⟨hc, d, h⟩
  · obtain ⟨lead, start, commit, -, rfl⟩ := commitBatch_eq_ok h
    exact Or.inl ⟨_, commit, (List.append_assoc ..).symm⟩
  · obtain ⟨-, lead, start, -, rfl, -⟩ := planCheckpoint_eq_ok h
    exact Or.inr ⟨hc, rfl⟩

/-- After any history of calls, reopenings and interrupted calls the journal reopens to itself.
A call that is interrupted after any number of bytes reopens to the index after the call if its
COMMIT record, which comes last, is complete, and to the index before the call otherwise. A
checkpoint keeps the index. -/
theorem recovers_from_any_prefix (repository : Repository) (events : List Event) :
    ∃ j, run repository events = .ok j ∧ open_ repository j.log .none = .ok j ∧
      ∀ c a, plan repository j c = .ok a →
        open_ repository (j.append a).log .none = .ok (j.append a) ∧
        ((∃ front commit, a.bytes = front ++ record 3 (j.index.seq + 1) commit Hash.zero) ∨
          c = .checkpoint ∧ a.index = j.index) ∧
        ∀ n, ∃ j', open_ repository (j.kept ++ a.bytes.take n) .none = .ok j' ∧
          j'.index = (if a.bytes.length ≤ n then a.index else j.index) ∧
          j'.end_ = if a.bytes.length ≤ n then a.end_ else j.end_ := by
  obtain ⟨j, hrun, hsound⟩ := sound_foldlM (sound_new repository) events
  refine ⟨j, hrun, hsound.opens, fun c a hplan => ?_⟩
  obtain ⟨ha, -⟩ := replays_plan hplan hsound.seq_lt
  refine ⟨(hsound.resumes.append ha).opens, plan_ends hplan hsound.seq_lt, fun n => ?_⟩
  obtain ⟨j', hlog, hopen, hindex, hend⟩ := hsound.interrupted hplan n
  rw [interrupted_of_plan hplan] at hlog
  exact ⟨j', hlog ▸ hopen.opens, hindex, hend⟩

end ForkFs.Journal
