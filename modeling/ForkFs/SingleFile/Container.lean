import ForkFs.Journal.Restore
import ForkFs.SingleFile.Anchor

/-!
# Checkpointed recovery of the single-file container

A checkpoint appends a record and then overwrites the anchor that was not chosen. Whatever part
of this a crash leaves behind, opening chooses an anchor from which the journal recovers to the
same state as from a replay of the whole log.
-/

namespace ForkFs

open Bytes Journal SingleFile

namespace SingleFile

/-- The two places of anchors. -/
inductive Slot
  /-- At offset 0. -/
  | first
  /-- At offset 4096. -/
  | second
deriving DecidableEq

/-- The place of the other anchor. -/
def Slot.other : Slot → Slot
  | .first => .second
  | .second => .first

/-- The file up to offset 65536. -/
structure Header where
  /-- The anchor at offset 0. -/
  first : Anchor
  /-- The anchor at offset 4096. -/
  second : Anchor
  /-- The bytes from offset 8192 on. -/
  reserved : Bytes

namespace Header

/-- The anchor at a place. -/
def anchor (h : Header) : Slot → Anchor
  | .first => h.first
  | .second => h.second

/-- Overwrite an anchor. -/
def write (h : Header) : Slot → Anchor → Header
  | .first, a => { h with first := a }
  | .second, a => { h with second := a }

/-- The header of a new container. -/
def create (repository : Repository) (now : ℕ) : Header :=
  ⟨.initial repository now, .initial repository now, List.replicate 57344 0⟩

/-- A checksum-valid unsupported header is never silently downgraded. -/
def checkAnchor (a : Anchor) : Except String Unit := if a.Valid then a.supported else .ok ()

/-- Two valid anchors belong to the same container and do not conflict. -/
def checkAnchors (a b : Anchor) : Except String Unit :=
  if a.Valid ∧ b.Valid then do
    need (slice a.val 16 16 = slice b.val 16 16) "anchor identity mismatch"
    need (a.generation = b.generation → a = b) "conflicting anchors at the same generation"
  else .ok ()

/-- Choose the valid anchor with the larger generation. -/
def choose (h : Header) : Except String Slot := do
  need (h.first.Valid ∨ h.second.Valid) "no valid container anchor"
  checkAnchor h.first
  checkAnchor h.second
  checkAnchors h.first h.second
  return if ¬ h.second.Valid ∨ h.first.Valid ∧ h.second.generation ≤ h.first.generation then .first
    else .second

end Header

end SingleFile

/-- An open single-file container. -/
structure SingleFile where
  /-- The anchors in the file. -/
  header : Header
  /-- The log in the file and its index. -/
  journal : Journal
  /-- The anchor that was chosen or written last. -/
  anchor : Anchor
  /-- Where it stands. -/
  slot : Slot
  /-- Whether the other anchor is invalid. -/
  degraded : Bool

namespace SingleFile

variable [Digest]

/-- Open a container. -/
def open_ (h : Header) (log : Bytes) : Except String SingleFile := do
  let slot ← h.choose
  need (h.reserved.all (· = 0)) "nonzero reserved container region"
  let j ← Journal.open_ (h.anchor slot).repository log (h.anchor slot).checkpoint
  return ⟨h, j, h.anchor slot, slot, ¬ h.first.Valid ∨ ¬ h.second.Valid⟩

/-- Append a checkpoint and publish it in the other anchor. -/
def checkpoint (c : SingleFile) : Except String SingleFile := do
  need (c.anchor.generation ≠ 2 ^ 64 - 1) "anchor generation exhausted"
  let (a, d) ← planCheckpoint c.anchor.repository c.journal
  return {
    header := c.header.write c.slot.other (c.anchor.next d)
    journal := c.journal.append a
    anchor := c.anchor.next d
    slot := c.slot.other
    degraded := false }

/-- What can happen to a container. -/
inductive Event
  /-- A transaction that is carried out or rejected. -/
  | call (c : Call)
  /-- A checkpoint that is carried out or rejected. -/
  | checkpoint
  /-- The container is closed and opened again. -/
  | reopen
  /-- A transaction, or a checkpoint before it writes its anchor, is interrupted after the given
  number of bytes. -/
  | crash (c : Call) (n : ℕ)
  /-- A checkpoint is interrupted while it writes its anchor, so that the checksum fails. -/
  | tear (torn : { a : Anchor // ¬ a.Valid })
  /-- The container fails right after a checkpoint. -/
  | publish

/-- One event. -/
def step (c : SingleFile) : Event → Except String SingleFile
  | .call call => .ok { c with journal := c.journal.call c.anchor.repository call }
  | .checkpoint => .ok (c.checkpoint.toOption.getD c)
  | .reopen => open_ c.header c.journal.log
  | .crash call n => open_ c.header (interrupted c.anchor.repository c.journal call n)
  | .tear torn =>
    match c.checkpoint with
    | .error _ => open_ c.header c.journal.log
    | .ok c' => open_ (c.header.write c.slot.other torn.val) c'.journal.log
  | .publish =>
    match c.checkpoint with
    | .error _ => open_ c.header c.journal.log
    | .ok c' => open_ c'.header c'.journal.log

/-- A sequence of events on a new container. -/
def run (repository : Repository) (now : ℕ) (events : List Event) : Except String SingleFile := do
  let c ← open_ (.create repository now) []
  events.foldlM step c

section Choice

variable {repository : Repository} {h : Header} {a b : Anchor} {s : Slot}

/-- An anchor that opening prefers over another one. -/
structure Preferred (repository : Repository) (a b : Anchor) : Prop where
  /-- It may be opened. -/
  genuine : a.Genuine repository
  /-- A valid other anchor belongs to the container too. -/
  other : b.Valid → b.Genuine repository
  /-- A valid other anchor is older, or the same. -/
  older : b.Valid → b.generation < a.generation ∨ b = a

omit [Digest] in
theorem checkAnchor_eq_ok (h : a.Valid → a.Genuine repository) : Header.checkAnchor a = .ok () := by
  unfold Header.checkAnchor
  split
  · rename_i hvalid
    exact (h hvalid).supported
  · rfl

omit [Digest] in
theorem checkAnchors_eq_ok (ha : a.Valid → a.Genuine repository) (hb : b.Valid → b.Genuine repository)
    (hsame : a.Valid → b.Valid → a.generation = b.generation → a = b) :
    Header.checkAnchors a b = .ok () := by
  unfold Header.checkAnchors
  split
  · rename_i hvalid
    have hrepository : slice a.val 16 16 = slice b.val 16 16 := by
      rw [← Anchor.val_repository, ← Anchor.val_repository, (ha hvalid.1).repository_eq,
        (hb hvalid.2).repository_eq]
    rw [need_of hrepository, Outcome.ok_bind, need_of (hsame hvalid.1 hvalid.2)]
  · rfl

omit [Digest] in
/-- The preferred anchor is chosen, or the other one if both are the same. -/
theorem choose_eq_ok (h : Header) (s : Slot)
    (hpreferred : Preferred repository (h.anchor s) (h.anchor s.other)) :
    ∃ s', h.choose = .ok s' ∧ h.anchor s' = h.anchor s ∧
      Preferred repository (h.anchor s') (h.anchor s'.other) := by
  obtain ⟨first, second, reserved⟩ := h
  obtain ⟨hgenuine, hother, holder⟩ := hpreferred
  cases s with
  | first =>
    change first.Genuine repository at hgenuine
    change second.Valid → _ at hother holder
    have hsame : first.Valid → second.Valid → first.generation = second.generation →
        first = second := by
      intro _ hvalid heq
      rcases holder hvalid with hlt | hsame
      · exact absurd heq hlt.ne'
      · exact hsame.symm
    have hchosen : ¬ second.Valid ∨ first.Valid ∧ second.generation ≤ first.generation := by
      by_cases hvalid : second.Valid
      · refine Or.inr ⟨hgenuine.valid, ?_⟩
        rcases holder hvalid with hlt | hsame
        · exact hlt.le
        · rw [show second = first from hsame]
      · exact Or.inl hvalid
    refine ⟨.first, ?_, rfl, hgenuine, hother, holder⟩
    rw [Header.choose, need_of (Or.inl hgenuine.valid), Outcome.ok_bind,
      checkAnchor_eq_ok fun _ => hgenuine, Outcome.ok_bind, checkAnchor_eq_ok hother,
      Outcome.ok_bind, checkAnchors_eq_ok (fun _ => hgenuine) hother hsame, Outcome.ok_bind]
    exact congrArg Except.ok (if_pos hchosen)
  | second =>
    change second.Genuine repository at hgenuine
    change first.Valid → _ at hother holder
    have hsame : first.Valid → second.Valid → first.generation = second.generation →
        first = second := by
      intro hvalid _ heq
      rcases holder hvalid with hlt | hsame
      · exact absurd heq hlt.ne
      · exact hsame
    have hchoose : Header.choose ⟨first, second, reserved⟩ = .ok (if ¬ second.Valid ∨
        first.Valid ∧ second.generation ≤ first.generation then .first else .second) := by
      rw [Header.choose, need_of (Or.inr hgenuine.valid), Outcome.ok_bind,
        checkAnchor_eq_ok hother, Outcome.ok_bind, checkAnchor_eq_ok fun _ => hgenuine,
        Outcome.ok_bind, checkAnchors_eq_ok hother (fun _ => hgenuine) hsame, Outcome.ok_bind]
      rfl
    by_cases hequal : first = second
    · subst hequal
      rw [if_pos (Or.inr ⟨hgenuine.valid, le_rfl⟩)] at hchoose
      exact ⟨.first, hchoose, rfl, hgenuine, hother, fun _ => Or.inr rfl⟩
    · have hnot : ¬ (¬ second.Valid ∨ first.Valid ∧ second.generation ≤ first.generation) := by
        rintro (hinvalid | ⟨hvalid, hle⟩)
        · exact hinvalid hgenuine.valid
        · rcases holder hvalid with hlt | hsame
          · exact absurd hlt (not_lt.mpr hle)
          · exact hequal hsame
      rw [if_neg hnot] at hchoose
      exact ⟨.second, hchoose, rfl, hgenuine, hother, holder⟩

end Choice

/-- A journal that recovers the same way from a descriptor and from the whole log. -/
structure Recoverable (repository : Repository) (j : Journal) (d : Checkpoint) : Prop where
  /-- It recovers from the whole log. -/
  sound : Sound repository j
  /-- Its index may be checkpointed. -/
  laid : Laid repository j
  /-- It recovers from the descriptor. -/
  anchored : Anchored repository j d

/-- What is known of an open container. -/
structure Intact (repository : Repository) (c : SingleFile) : Prop where
  /-- The journal recovers from the anchor. -/
  recoverable : Recoverable repository c.journal c.anchor.checkpoint
  /-- The anchor is in the file. -/
  chosen : c.header.anchor c.slot = c.anchor
  /-- It is preferred over the other one. -/
  preferred : Preferred repository c.anchor (c.header.anchor c.slot.other)
  /-- The reserved region is blank. -/
  reserved : c.header.reserved.all (· = 0) = true

section Recovery

variable {repository : Repository} {j : Journal} {d : Checkpoint} {a : Append} {request : Call}

theorem Recoverable.append (h : Recoverable repository j d) (hplan : plan repository j request = .ok a) :
    Recoverable repository (j.append a) d := by
  obtain ⟨ha, hseq⟩ := replays_plan hplan h.sound.seq_lt
  exact ⟨⟨hseq, h.sound.resumes.append ha⟩, laid_append h.sound h.laid hplan, h.anchored.append ha⟩

theorem Recoverable.cutOff (h : Recoverable repository j d) (hplan : plan repository j request = .ok a)
    {n : ℕ} (hn : n < a.bytes.length) : Recoverable repository (j.cutOff (a.bytes.take n)) d := by
  obtain ⟨ha, -⟩ := replays_plan hplan h.sound.seq_lt
  have hkept := kept_cutOff h.sound.resumes.length_kept (a.bytes.take n)
  refine ⟨⟨h.sound.seq_lt, h.sound.resumes.cutOff hn ha⟩, ⟨h.laid.credible, ?_⟩,
    h.anchored.cutOff hn ha⟩
  rw [hkept]
  exact h.laid.headed

theorem Recoverable.call (h : Recoverable repository j d) (request : Call) :
    Recoverable repository (j.call repository request) d := by
  unfold Journal.call
  split
  · exact h
  · rename_i a hplan
    exact h.append hplan

/-- An interrupted call leaves a journal that recovers. -/
theorem Recoverable.interrupted (h : Recoverable repository j d) (request : Call) (n : ℕ) :
    ∃ j', interrupted repository j request n = j'.log ∧ Recoverable repository j' d := by
  cases hplan : plan repository j request with
  | error e =>
    rw [Journal.interrupted, hplan]
    exact ⟨j, rfl, h⟩
  | ok a =>
    rw [interrupted_of_plan hplan]
    by_cases hn : a.bytes.length ≤ n
    · rw [List.take_of_length_le hn]
      exact ⟨j.append a, rfl, h.append hplan⟩
    · exact ⟨j.cutOff (a.bytes.take n), rfl, h.cutOff hplan (not_le.mp hn)⟩

/-- Opening returns the journal that the preferred anchor recovers. -/
theorem intact_open {h : Header} (s : Slot)
    (hpreferred : Preferred repository (h.anchor s) (h.anchor s.other))
    (hreserved : h.reserved.all (· = 0) = true)
    (hrecoverable : Recoverable repository j (h.anchor s).checkpoint) :
    ∃ c, open_ h j.log = .ok c ∧ Intact repository c ∧ c.journal = j := by
  obtain ⟨s', hchoose, hanchor, hpreferred'⟩ := choose_eq_ok h s hpreferred
  rw [← hanchor] at hrecoverable
  have hopen : Journal.open_ (h.anchor s').repository j.log (h.anchor s').checkpoint = .ok j := by
    rw [hpreferred'.genuine.repository_eq]
    exact hrecoverable.anchored.opens hrecoverable.sound
  refine ⟨⟨h, j, h.anchor s', s', ¬ h.first.Valid ∨ ¬ h.second.Valid⟩, ?_, ⟨hrecoverable, rfl,
    hpreferred', hreserved⟩, rfl⟩
  rw [open_, hchoose, Outcome.ok_bind, need_of hreserved, Outcome.ok_bind, hopen]
  rfl

end Recovery

section Steps

variable {repository : Repository} {c c' : SingleFile}

omit [Digest] in
theorem anchor_write_self (h : Header) (s : Slot) (a : Anchor) : (h.write s a).anchor s = a := by
  cases s <;> rfl

omit [Digest] in
theorem anchor_write_other (h : Header) (s : Slot) (a : Anchor) :
    (h.write s.other a).anchor s = h.anchor s := by
  cases s <;> rfl

omit [Digest] in
theorem reserved_write (h : Header) (s : Slot) (a : Anchor) : (h.write s a).reserved = h.reserved := by
  cases s <;> rfl

omit [Digest] in
theorem other_other (s : Slot) : s.other.other = s := by
  cases s <;> rfl

/-- A new container is intact. -/
theorem intact_new (now : ℕ) (hrepository : ¬ repository.val.all (· = 0) = true) :
    ∃ c, open_ (.create repository now) [] = .ok c ∧ Intact repository c ∧
      c.journal = Journal.new := by
  have hgenuine := Anchor.genuine_initial now hrepository
  have hoffset : (Anchor.initial repository now).checkpoint.offset = 0 := by
    rw [Anchor.offset_checkpoint]
    exact Anchor.load_eq_zero (Anchor.slice_initial (by omega))
  exact intact_open (j := Journal.new) (h := .create repository now) .first
    ⟨hgenuine, fun _ => hgenuine, fun _ => Or.inr rfl⟩
    (List.all_eq_true.mpr fun x hx => decide_eq_true (List.eq_of_mem_replicate hx))
    ⟨sound_new repository, laid_new repository, Or.inl hoffset⟩

/-- What a checkpoint does. -/
theorem checkpoint_eq_ok (h : c.checkpoint = .ok c') :
    c.anchor.generation ≠ 2 ^ 64 - 1 ∧ ∃ a d, planCheckpoint c.anchor.repository c.journal = .ok (a, d) ∧
      c' = ⟨c.header.write c.slot.other (c.anchor.next d), c.journal.append a, c.anchor.next d,
        c.slot.other, false⟩ := by
  obtain ⟨hgeneration, h⟩ := need_bind_eq_ok.mp h
  obtain ⟨⟨a, d⟩, hplan, h⟩ := Outcome.bind_eq_ok.mp h
  cases h
  exact ⟨hgeneration, a, d, hplan, rfl⟩

/-- A checkpoint keeps the index. -/
theorem index_checkpoint (c : SingleFile) :
    (c.checkpoint.toOption.getD c).journal.index = c.journal.index := by
  cases h : c.checkpoint with
  | error e => rfl
  | ok c' =>
    obtain ⟨-, a, d, hplan, rfl⟩ := checkpoint_eq_ok h
    obtain ⟨-, lead, start, -, rfl, -⟩ := planCheckpoint_eq_ok hplan
    rfl

/-- The descriptor of a checkpoint fits the fields of an anchor. -/
theorem checkpoint_next_of_plan {j : Journal} {a : Append} {d : Checkpoint} (anchor : Anchor)
    (hsound : Sound repository j) (hplan : planCheckpoint repository j = .ok (a, d)) :
    (anchor.next d).checkpoint = d ∧ d.offset ≠ 0 := by
  have hseq := hsound.seq_lt
  obtain ⟨hlimit, lead, start, hplace, -, rfl⟩ := planCheckpoint_eq_ok hplan
  have hrecord := recordLength_eq (checkpointPayload j.index).length
  obtain ⟨hplaced, hbase⟩ := hsound.resumes.placed hplace (by unfold span Journal.header; omega)
  have hbounded := hplaced.bounded
  unfold base at hbase
  refine ⟨Anchor.checkpoint_next ?_ ?_ ?_ ?_, ?_⟩
  all_goals
    dsimp only
    omega

/-- A published checkpoint recovers the journal, with a larger generation. -/
theorem intact_checkpoint (hintact : Intact repository c) (hnamed : Named c.journal.index)
    (h : c.checkpoint = .ok c') :
    Intact repository c' ∧ c.anchor.generation < c'.anchor.generation := by
  obtain ⟨hgeneration, a, d, hplan, rfl⟩ := checkpoint_eq_ok h
  rw [hintact.preferred.genuine.repository_eq] at hplan
  have hrecoverable := hintact.recoverable
  have hplan' : plan repository c.journal .checkpoint = .ok a :=
    Outcome.map_eq_ok.mpr ⟨_, hplan, rfl⟩
  have hanchored := anchored_checkpoint hrecoverable.sound hrecoverable.laid hnamed hplan
  have happend := hrecoverable.append hplan'
  obtain ⟨hcheckpoint, hzero⟩ := checkpoint_next_of_plan c.anchor hrecoverable.sound hplan
  have hbound : c.anchor.generation < 256 ^ 8 := by
    have hlt := load_lt (slice c.anchor.val 32 8)
    rwa [length_slice_of_le (by rw [c.anchor.property]; decide)] at hlt
  have hnext : (c.anchor.next d).generation = c.anchor.generation + 1 :=
    Anchor.generation_next (by omega)
  have hlt : c.anchor.generation < (c.anchor.next d).generation := by
    rw [hnext]
    exact Nat.lt_succ_self _
  have hgenuine := hintact.preferred.genuine
  refine ⟨⟨⟨happend.sound, happend.laid, ?_⟩, anchor_write_self _ _ _, ?_, ?_⟩, hlt⟩
  · rw [hcheckpoint]
    exact hanchored
  · rw [other_other, anchor_write_other, hintact.chosen]
    exact ⟨Anchor.genuine_next hgenuine hzero hcheckpoint, fun _ => hgenuine, fun _ => Or.inl hlt⟩
  · rw [reserved_write]
    exact hintact.reserved

/-- Reopening an intact container gives the same journal. -/
theorem Intact.reopen (h : Intact repository c) :
    ∃ c', open_ c.header c.journal.log = .ok c' ∧ Intact repository c' ∧ c'.journal = c.journal :=
  intact_open c.slot (by rw [h.chosen]; exact h.preferred) h.reserved
    (by rw [h.chosen]; exact h.recoverable)

/-- Every event succeeds and leaves an intact container. -/
theorem intact_step (h : Intact repository c) (hnamed : Named c.journal.index) (e : Event) :
    ∃ c', step c e = .ok c' ∧ Intact repository c' := by
  have hrepository := h.preferred.genuine.repository_eq
  cases e with
  | call request =>
    refine ⟨_, rfl, ?_, h.chosen, h.preferred, h.reserved⟩
    rw [hrepository]
    exact h.recoverable.call request
  | checkpoint =>
    refine ⟨_, rfl, ?_⟩
    cases hcheckpoint : c.checkpoint with
    | error e => exact h
    | ok c' => exact (intact_checkpoint h hnamed hcheckpoint).1
  | reopen =>
    obtain ⟨c', hopen, hintact, -⟩ := h.reopen
    exact ⟨c', hopen, hintact⟩
  | crash request n =>
    obtain ⟨j', hlog, hrecoverable⟩ := h.recoverable.interrupted request n
    obtain ⟨c', hopen, hintact, -⟩ := intact_open (h := c.header) c.slot
      (by rw [h.chosen]; exact h.preferred) h.reserved (by rw [h.chosen]; exact hrecoverable)
    refine ⟨c', ?_, hintact⟩
    rw [step, hrepository, hlog]
    exact hopen
  | tear torn =>
    rw [step]
    cases hcheckpoint : c.checkpoint with
    | error e =>
      obtain ⟨c', hopen, hintact, -⟩ := h.reopen
      exact ⟨c', hopen, hintact⟩
    | ok c' =>
      -- The record is complete, and the anchor that was chosen is still in place.
      obtain ⟨-, a, d, hplan, rfl⟩ := checkpoint_eq_ok hcheckpoint
      rw [hrepository] at hplan
      have hrequest : plan repository c.journal .checkpoint = .ok a :=
        Outcome.map_eq_ok.mpr ⟨_, hplan, rfl⟩
      have happend := h.recoverable.append hrequest
      obtain ⟨c', hopen, hintact, -⟩ := intact_open (h := c.header.write c.slot.other torn.val) c.slot
        (by
          rw [anchor_write_other, anchor_write_self, h.chosen]
          exact ⟨h.preferred.genuine, fun hvalid => absurd hvalid torn.property,
            fun hvalid => absurd hvalid torn.property⟩)
        (by rw [reserved_write]; exact h.reserved)
        (by rw [anchor_write_other, h.chosen]; exact happend)
      exact ⟨c', hopen, hintact⟩
  | publish =>
    rw [step]
    cases hcheckpoint : c.checkpoint with
    | error e =>
      obtain ⟨c', hopen, hintact, -⟩ := h.reopen
      exact ⟨c', hopen, hintact⟩
    | ok c' =>
      obtain ⟨c'', hopen, hintact, -⟩ := (intact_checkpoint h hnamed hcheckpoint).1.reopen
      exact ⟨c'', hopen, hintact⟩

theorem intact_foldlM {events : List Event} (h : Intact repository c)
    (hnamed : ∀ prior c', prior <+: events → prior.foldlM step c = .ok c' → Named c'.journal.index) :
    ∃ c', events.foldlM step c = .ok c' ∧ Intact repository c' := by
  induction events generalizing c with
  | nil => exact ⟨c, rfl, h⟩
  | cons e events ih =>
    obtain ⟨c₁, hstep, hintact⟩ := intact_step h (hnamed [] c (List.nil_prefix) rfl) e
    obtain ⟨c', hrun, hintact'⟩ := ih hintact fun prior c' hprior hprefix => by
      refine hnamed (e :: prior) c' (List.cons_prefix_cons.mpr ⟨rfl, hprior⟩) ?_
      rw [List.foldlM_cons, hstep]
      exact hprefix
    refine ⟨c', ?_, hintact'⟩
    rw [List.foldlM_cons, hstep]
    exact hrun

end Steps

/-- After any history of transactions, checkpoints and crashes, the anchor that opening chooses
recovers the same journal as a replay of the whole log. The next checkpoint overwrites the other
anchor only, and its generation is larger than that of every valid anchor. -/
theorem recovers_like_full_replay (repository : Repository) (now : ℕ) (events : List Event)
    (hrepository : ¬ repository.val.all (· = 0) = true)
    (hnamed : ∀ prior c, prior <+: events → run repository now prior = .ok c →
      Named c.journal.index) :
    ∃ c, run repository now events = .ok c ∧
      Journal.open_ repository c.journal.log .none = .ok c.journal ∧
      (∃ c', open_ c.header c.journal.log = .ok c' ∧ c'.journal = c.journal) ∧
      ∀ c', c.checkpoint = .ok c' →
        c'.header.anchor c.slot = c.header.anchor c.slot ∧
        c'.header.anchor c.slot.other = c'.anchor ∧ c'.anchor.Valid ∧
        ∀ s, (c.header.anchor s).Valid → (c.header.anchor s).generation < c'.anchor.generation := by
  obtain ⟨c₀, hopen, hintact, -⟩ := intact_new now hrepository
  have hrun : ∀ prior, run repository now prior = prior.foldlM step c₀ := by
    intro prior
    rw [run, hopen, Outcome.ok_bind]
  obtain ⟨c, hfold, hintact⟩ := intact_foldlM hintact fun prior c' hprior hprefix =>
    hnamed prior c' hprior ((hrun prior).trans hprefix)
  have hnow := hnamed events c List.prefix_rfl ((hrun events).trans hfold)
  obtain ⟨c', hreopen, -, hjournal⟩ := hintact.reopen
  refine ⟨c, (hrun events).trans hfold, hintact.recoverable.sound.opens, ⟨c', hreopen, hjournal⟩,
    fun c' hcheckpoint => ?_⟩
  obtain ⟨hintact', hlt⟩ := intact_checkpoint hintact hnow hcheckpoint
  obtain ⟨-, a, d, -, rfl⟩ := checkpoint_eq_ok hcheckpoint
  refine ⟨anchor_write_other _ _ _, anchor_write_self _ _ _, hintact'.preferred.genuine.valid,
    fun s hvalid => ?_⟩
  by_cases hs : s = c.slot
  · rw [hs, hintact.chosen]
    exact hlt
  · have hother : s = c.slot.other := by
      cases s <;> cases hslot : c.slot <;> simp_all [Slot.other]
    rw [hother] at hvalid ⊢
    rcases hintact.preferred.older hvalid with hless | hsame
    · exact hless.trans hlt
    · rw [hsame]
      exact hlt

end SingleFile

section Sample

local instance : Digest := sha256

/-- The identity of a container. -/
def SingleFile.sampleRepository : Repository := ⟨List.replicate 16 1, rfl⟩

theorem SingleFile.named_sample :
    Named (Journal.new.call sampleRepository (.put [97] [1])).index := by
  decide +kernel

/-- A container with one object and a published checkpoint. -/
theorem SingleFile.recovers_like_full_replay_sample :
    ∃ c, SingleFile.run sampleRepository 0 [.call (.put [97] [1]), .checkpoint] = .ok c ∧
      Journal.open_ sampleRepository c.journal.log .none = .ok c.journal := by
  have hidentity : ¬ SingleFile.sampleRepository.val.all (· = 0) = true := by decide
  obtain ⟨c₀, hopen, hintact, hjournal⟩ := intact_new 0 hidentity
  have hrun : ∀ prior, SingleFile.run sampleRepository 0 prior = prior.foldlM step c₀ := by
    intro prior
    rw [SingleFile.run, hopen, Outcome.ok_bind]
  have hcall : step c₀ (.call (.put [97] [1])) =
      .ok { c₀ with journal := Journal.new.call sampleRepository (.put [97] [1]) } := by
    rw [step, hintact.preferred.genuine.repository_eq, hjournal]
  obtain ⟨c, hc, hreplay, -⟩ := recovers_like_full_replay sampleRepository 0
    [.call (.put [97] [1]), .checkpoint] hidentity (by
      intro prior c hprior hc
      rw [hrun] at hc
      rcases List.prefix_cons_iff.mp hprior with rfl | ⟨prior, rfl, hrest⟩
      · cases hc
        rw [hjournal]
        decide
      · rw [List.foldlM_cons, hcall, Outcome.ok_bind] at hc
        rcases List.prefix_cons_iff.mp hrest with rfl | ⟨last, rfl, hlast⟩
        · cases hc
          exact named_sample
        · rw [List.prefix_nil.mp hlast] at hc
          cases hc
          rw [index_checkpoint]
          exact named_sample)
  exact ⟨c, hc, hreplay⟩

end Sample

end ForkFs
