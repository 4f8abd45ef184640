import ForkFs.Journal.Feeds

/-!
# Opening the single-file journal

A journal is opened from a checkpoint descriptor. Without one the whole log is replayed. With one
the index is read from the checkpoint record and replay continues after it.
-/

namespace ForkFs.Journal

open Bytes

/-- The descriptor of a container without a checkpoint. -/
def Checkpoint.none : Checkpoint := ⟨0, 0, 0, base, Hash.zero⟩

/-- The objects of a checkpoint payload while they are read. -/
structure Objects where
  /-- The offset of the next entry. -/
  cursor : ℕ
  /-- The previous identity. -/
  previous : Option Hash
  /-- The objects read so far. -/
  objects : StdMap Hash Location

/-- Read one object of a checkpoint payload. -/
def parseObject (offset : ℕ) (p : Bytes) (s : Objects) : Except String Objects := do
  let id := Hash.ofBytes (slice p s.cursor 32)
  let off := load (slice p (s.cursor + 32) 8)
  let len := load (slice p (s.cursor + 40) 4)
  need (id ≠ Hash.zero ∧ ∀ previous ∈ s.previous, previous < id) "unordered checkpoint objects"
  need (base ≤ off ∧ off < offset ∧ len ≤ offset - off ∧ 88 ≤ len ∧ len ≤ maxPayload + 88 ∧
    off % 8 = 0 ∧ len % 8 = 0 ∧ header ≤ (off - base) % span ∧ len ≤ span - (off - base) % span)
    "invalid object location"
  return ⟨s.cursor + 44, some id, s.objects.insertIfNew id ⟨off, len⟩⟩

/-- Read the given number of objects. -/
def parseObjects (offset : ℕ) (p : Bytes) : ℕ → Objects → Except String Objects
  | 0, s => .ok s
  | n + 1, s => do
    let s ← parseObject offset p s
    parseObjects offset p n s

/-- The roots of a checkpoint payload while they are read. -/
structure Roots where
  /-- The offset of the next entry. -/
  cursor : ℕ
  /-- The previous name. -/
  previous : Option Bytes
  /-- The roots read so far. -/
  roots : StdMap Bytes Hash

/-- Read one root of a checkpoint payload. -/
def parseRoot (objects : StdMap Hash Location) (p : Bytes) (s : Roots) : Except String Roots := do
  need (s.cursor ≤ p.length ∧ 4 ≤ p.length - s.cursor) "truncated root index"
  let n := load (slice p s.cursor 4)
  let cursor := s.cursor + 4
  need (0 < n ∧ n ≤ 1024 ∧ n + 32 ≤ p.length - cursor) "invalid root index entry"
  let key := slice p cursor n
  let id := Hash.ofBytes (slice p (cursor + n) 32)
  need ((∀ previous ∈ s.previous, previous < key) ∧ id ∈ objects) "invalid root reference"
  return ⟨cursor + n + 32, some key, s.roots.insertIfNew key id⟩

/-- Read the given number of roots. -/
def parseRoots (objects : StdMap Hash Location) (p : Bytes) : ℕ → Roots → Except String Roots
  | 0, s => .ok s
  | n + 1, s => do
    let s ← parseRoot objects p s
    parseRoots objects p n s

/-- Read the index of a checkpoint payload. -/
def parseCheckpoint (c : Checkpoint) (p : Bytes) : Except String Index := do
  need (48 ≤ p.length ∧ load (slice p 0 8) = c.sequence) "invalid checkpoint sequence"
  let lastHash := Hash.ofBytes (slice p 8 32)
  need (c.sequence = 0 ↔ lastHash = Hash.zero) "invalid checkpoint commit identity"
  let no := load (slice p 40 4)
  let nr := load (slice p 44 4)
  need (no ≤ (p.length - 48) / 44 ∧ nr ≤ (p.length - 48 - no * 44) / 37) "invalid checkpoint counts"
  let o ← parseObjects c.offset p no ⟨48, none, ∅⟩
  let r ← parseRoots o.objects p nr ⟨o.cursor, none, ∅⟩
  need (r.cursor = p.length) "unexpected checkpoint suffix"
  return ⟨c.sequence, lastHash, r.roots, o.objects⟩

variable [Digest]

/-- Read the index of a published checkpoint and where replay continues. -/
def restoreCheckpoint (repository : Repository) (log : Bytes) (c : Checkpoint) :
    Except String (Index × ℕ) := do
  let size := base + log.length
  need (base ≤ c.offset ∧ c.offset ≤ size ∧ c.length ≤ size - c.offset ∧
    c.replayStart = c.offset + c.length) "invalid checkpoint range"
  need (header ≤ (c.offset - base) % span) "checkpoint overlaps segment header"
  let seg := (c.offset - base) / span
  let h ← readBytes log (base + seg * span) header
  need (h = segmentHeader repository.val seg) "invalid checkpoint segment"
  let found ← readRecord log c.offset size
  match found with
  | none => .error "invalid published checkpoint"
  | some r =>
    need (r.type = 5 ∧ r.oid = Hash.zero ∧ r.seq = c.sequence ∧ r.encoded.length = c.length ∧
      digest r.payload = c.hash) "invalid published checkpoint"
    let index ← parseCheckpoint c r.payload
    return (index, c.replayStart)

omit [Digest] in
/-- Starting inside a segment must still validate that segment's identity. -/
def checkSegment (repository : Repository) (log : Bytes) (at_ : ℕ) : Except String Unit :=
  if base < at_ ∧ (at_ - base) % span ≠ 0 then do
    let seg := (at_ - base) / span
    let h ← readBytes log (base + seg * span) header
    need (h = segmentHeader repository.val seg) "invalid replay segment"
  else .ok ()

/-- Replay the log after an index that is complete up to `end_`. -/
def openFrom (repository : Repository) (log : Bytes) (index : Index) (end_ : ℕ) :
    Except String Journal := do
  checkSegment repository log end_
  let r ← (reader repository).run log (Replay.from_ index end_)
  return ⟨log, r.index, r.end_, base + log.length ≠ r.end_⟩

/-- Open a journal. -/
def open_ (repository : Repository) (log : Bytes) (c : Checkpoint) : Except String Journal :=
  if c.offset = 0 then openFrom repository log Index.empty base
  else do
    let (index, end_) ← restoreCheckpoint repository log c
    openFrom repository log index end_

end ForkFs.Journal
