import ForkFs.Journal.Writer
import ForkFs.Lib.LogReader
import Mathlib.Data.Finset.Card

/-!
# Replaying the single-file journal

Opening a journal reads its log record by record. DATA and prepare records are held back until a
COMMIT record confirms them, so that an incomplete last transaction leaves the index alone. A
complete record that does not fit its place fails the whole replay.
-/

namespace ForkFs.Journal

open Bytes

variable [Digest]

/-- The progress of the current transaction. -/
inductive Phase
  /-- Between transactions. -/
  | idle
  /-- After a DATA record. -/
  | objects
  /-- After the prepare record. -/
  | prepared
deriving DecidableEq

/-- The state of a replay. -/
structure Replay where
  /-- The committed index. -/
  index : Index
  /-- The end of the last complete transaction or checkpoint. -/
  end_ : ℕ
  /-- The position in the log. -/
  pos : ℕ
  /-- The progress of the current transaction. -/
  phase : Phase
  /-- The offset of its first record. -/
  start : ℕ
  /-- The offset of its prepare record. -/
  prepareAt : ℕ
  /-- Its prepare record. -/
  prep : Rec
  /-- The objects of its DATA records. -/
  pendingObjects : StdMap Hash Location
  /-- The root changes of its prepare record. -/
  changes : StdMap Bytes (Option Hash)
  /-- Its records before the commit. -/
  batch : Bytes

namespace Replay

/-- The offset in the container. -/
def at_ (r : Replay) : ℕ := base + r.pos

/-- A replay from an index that is complete up to `end_`. -/
def from_ (index : Index) (end_ : ℕ) : Replay :=
  ⟨index, end_, end_ - base, .idle, 0, 0, ⟨0, 0, 0, Hash.zero, [], []⟩, ∅, ∅, []⟩

/-- Forget the previous transaction. -/
def begin_ (r : Replay) : Replay :=
  { r with start := r.at_, pendingObjects := ∅, changes := ∅, batch := [] }

/-- Accept a checkpoint record as a physical hint. -/
def replayCheckpoint (r : Replay) (c : Rec) : Except String Replay := do
  need (c.seq = r.index.seq ∧ c.oid = Hash.zero ∧ 48 ≤ c.payload.length ∧
    load (slice c.payload 0 8) = r.index.seq ∧ slice c.payload 8 32 = r.index.lastHash.val)
    "invalid checkpoint in replay"
  return { r with pos := r.pos + c.encoded.length, end_ := r.at_ + c.encoded.length }

/-- Hold back an object. -/
def replayData (r : Replay) (c : Rec) : Except String Replay := do
  need (4 ≤ c.payload.length ∧ c.payload.length ≤ maxPayload + 4) "invalid DATA size"
  need (load (slice c.payload 0 2) = 4 ∧ load (slice c.payload 2 2) = 0) "unsupported object type"
  need (objectHash (c.payload.drop 4) = c.oid) "object identity mismatch"
  need (r.pendingObjects.size < 64 ∧ c.oid ∉ r.pendingObjects) "duplicate or excess batch objects"
  return { r with
    pendingObjects := r.pendingObjects.insert c.oid ⟨r.at_, c.encoded.length⟩
    batch := r.batch ++ c.encoded
    phase := .objects }

/-- The state of the loop over the entries of a batch. -/
structure Parsed where
  /-- The offset of the next entry. -/
  cursor : ℕ
  /-- The key of the previous entry. -/
  previous : Option Bytes
  /-- The changes read so far. -/
  changes : StdMap Bytes (Option Hash)
  /-- The pending objects that were referenced. -/
  referenced : Finset Hash

/-- Read one entry of a batch. -/
def parseEntry (index : Index) (pending : StdMap Hash Location) (c : Rec) (p : Parsed) :
    Except String Parsed := do
  need (p.cursor ≤ c.payload.length ∧ 8 ≤ c.payload.length - p.cursor) "truncated batch entry"
  let op := load (slice c.payload p.cursor 4)
  let n := load (slice c.payload (p.cursor + 4) 4)
  let cursor := p.cursor + 8
  need ((op = 1 ∨ op = 2) ∧ 0 < n ∧ n ≤ 1024 ∧ n + 32 ≤ c.payload.length - cursor)
    "invalid batch entry"
  let key := slice c.payload cursor n
  let id := Hash.ofBytes (slice c.payload (cursor + n) 32)
  need (∀ previous ∈ p.previous, previous < key) "batch keys must be unique and sorted"
  if op = 1 then
    need (id ∈ pending ∨ (c.type = 8 ∧ id ∈ index.objects)) "batch references missing object"
    return ⟨cursor + n + 32, some key, p.changes.insertIfNew key (some id),
      if id ∈ pending then insert id p.referenced else p.referenced⟩
  else
    need (id = Hash.zero ∧ key ∈ index.roots) "invalid batch deletion"
    return ⟨cursor + n + 32, some key, p.changes.insertIfNew key none, p.referenced⟩

/-- Read the given number of entries. -/
def parseEntries (index : Index) (pending : StdMap Hash Location) (c : Rec) :
    ℕ → Parsed → Except String Parsed
  | 0, p => .ok p
  | n + 1, p => do
    let p ← parseEntry index pending c p
    parseEntries index pending c n p

/-- The change of a single-object prepare record. -/
def legacyChanges (r : Replay) (c : Rec) : Except String (StdMap Bytes (Option Hash)) := do
  let n := load (slice c.payload 32 4)
  need (0 < n ∧ n ≤ 1024 ∧ c.payload.length = 68 + n ∧ r.pendingObjects.size = 1)
    "invalid legacy prepare"
  let id := Hash.ofBytes (slice c.payload (36 + n) 32)
  need (id ∈ r.pendingObjects) "prepare object mismatch"
  return r.changes.insertIfNew (slice c.payload 36 n) (some id)

/-- The changes of a batch prepare record. -/
def batchChanges (r : Replay) (c : Rec) : Except String (StdMap Bytes (Option Hash)) := do
  need (44 ≤ c.payload.length ∧ load (slice c.payload 32 8) = r.index.seq)
    "batch sequence precondition mismatch"
  let count := load (slice c.payload 40 4)
  need (0 < count ∧ count ≤ 64) "invalid batch count"
  let p ← parseEntries r.index r.pendingObjects c count ⟨44, none, r.changes, ∅⟩
  need (p.cursor = c.payload.length ∧ p.referenced.card = r.pendingObjects.size) "extra batch data"
  return p.changes

/-- The changes of a prepare record. -/
def prepareChanges (r : Replay) (c : Rec) : Except String (StdMap Bytes (Option Hash)) :=
  if c.type = 2 then legacyChanges r c else batchChanges r c

/-- Hold back the changes of a prepare record. -/
def replayPrepare (r : Replay) (c : Rec) : Except String Replay := do
  need (c.oid = Hash.zero ∧ 36 ≤ c.payload.length) "invalid prepare record"
  need (slice c.payload 0 32 = r.index.lastHash.val) "prepare predecessor mismatch"
  let changes ← prepareChanges r c
  return { r with
    changes := changes
    prepareAt := r.at_
    batch := r.batch ++ c.encoded
    prep := c
    phase := .prepared }

/-- Publish a transaction. -/
def replayCommit (r : Replay) (c : Rec) : Except String Replay := do
  need (r.phase = .prepared ∧ c.type = 3 ∧ c.oid = Hash.zero ∧ c.payload.length = 136)
    "expected commit record"
  need (load (slice c.payload 0 8) = c.seq ∧ slice c.payload 8 32 = r.index.lastHash.val)
    "commit predecessor mismatch"
  need (load (slice c.payload 40 8) = r.prepareAt ∧
    load (slice c.payload 48 4) = r.prep.encoded.length ∧ load (slice c.payload 52 4) = 0)
    "commit prepare location mismatch"
  need (slice c.payload 56 32 = (digest r.prep.payload).val ∧ load (slice c.payload 88 8) = r.start ∧
    load (slice c.payload 96 8) = r.at_ ∧ slice c.payload 104 32 = (digest r.batch).val)
    "commit batch mismatch"
  return { r with
    index := {
      seq := c.seq
      lastHash := tagged "forkfs.commit.v0" c.payload
      roots := r.index.roots.override r.changes
      objects := r.index.objects.insertAll r.pendingObjects.toList }
    end_ := r.at_ + c.encoded.length
    phase := .idle }

/-- A record of a transaction, by its type and the phase. -/
def replayTransaction (r : Replay) (c : Rec) : Except String Replay :=
  if r.phase ≠ .prepared ∧ c.type = 1 then replayData r c
  else if r.phase ≠ .prepared ∧ (c.type = 2 ∨ c.type = 7 ∨ c.type = 8) then replayPrepare r c
  else replayCommit r c

/-- Process a complete record. -/
def replayRecord (r : Replay) (c : Rec) : Except String Replay :=
  if r.phase = .idle ∧ c.type = 5 then replayCheckpoint r c
  else do
    need (r.index.seq ≠ 2 ^ 64 - 1 ∧ c.seq = r.index.seq + 1) "journal sequence gap"
    let r ← replayTransaction (if r.phase = .idle then r.begin_ else r) c
    need (r.batch.length ≤ 2 * 1024 * 1024) "transaction batch too large"
    return { r with pos := r.pos + c.encoded.length }

end Replay

open Replay

/-- One iteration of the replay loop. -/
def replayStep (repository : Repository) (log : Bytes) (r : Replay) :
    Except String (Option Replay) :=
  if r.pos % span = 0 then do
    need (r.phase = .idle) "transaction spans segments in unsupported profile"
    if log.length - r.pos < header then .ok none
    else
      let h ← readBytes log r.at_ header
      need (h = segmentHeader repository.val (r.pos / span)) "invalid segment header"
      return some { r with pos := r.pos + header }
  else do
    -- The writer pads only between transactions; the entire remainder has to be zero.
    let first ← readBytes log r.at_ (min 4 (log.length - r.pos))
    if first.all (· = 0) then
      need (r.phase = .idle) "padding inside transaction"
      let pad ← readBytes log r.at_ (min (span - r.pos % span) (log.length - r.pos))
      need (pad.all (· = 0)) "invalid segment padding"
      return some { r with pos := r.pos + pad.length }
    else
      let found ← readRecord log r.at_ (base + log.length)
      match found with
      | none => .ok none
      | some c => some <$> replayRecord r c

end ForkFs.Journal
