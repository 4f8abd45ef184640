import ForkFs.Journal.Record
import ForkFs.Lib.StdMap

/-!
# Writing the single-file journal

A transaction appends its DATA records, one prepare record and one COMMIT record, which chains to
the hash of the previous commit. A checkpoint appends one record with the whole index. A write
that does not fit the current segment pads it with zeros and starts the next one. Each call is
modelled by what it appends and the index afterwards, so that an interrupted call is a prefix of
these bytes.
-/

namespace ForkFs

open Bytes

/-- The identity of a container. -/
abbrev Repository := { b : Bytes // b.length = 16 }

namespace Journal

/-- Where the record of an object lies in the container. -/
structure Location where
  /-- The offset of the record. -/
  payload : ℕ
  /-- The size of the record. -/
  length : ℕ
deriving DecidableEq

/-- What the committed transactions have established. -/
structure Index where
  /-- The number of commits. -/
  seq : ℕ
  /-- The hash of the last commit. -/
  lastHash : Hash
  /-- Named objects. -/
  roots : StdMap Bytes Hash
  /-- The records of all objects. -/
  objects : StdMap Hash Location

/-- The index of an empty log. -/
def Index.empty : Index := ⟨0, Hash.zero, ∅, ∅⟩

end Journal

open Journal in
/-- An open journal and the log in its file. -/
structure Journal where
  /-- The file from offset 65536 on. -/
  log : Bytes
  /-- The committed index. -/
  index : Index
  /-- The end of the last complete transaction or checkpoint. -/
  end_ : ℕ
  /-- Whether the file continues after that. -/
  tail : Bool

namespace Journal

variable [Digest]

/-- What a call appends at the journal's end, and the state it leaves. -/
structure Append where
  /-- The appended bytes. -/
  bytes : Bytes
  /-- The index afterwards. -/
  index : Index
  /-- The end afterwards. -/
  end_ : ℕ

/-- The descriptor of a checkpoint record. -/
structure Checkpoint where
  /-- The offset of the record. -/
  offset : ℕ
  /-- Its size. -/
  length : ℕ
  /-- The commits it covers. -/
  sequence : ℕ
  /-- Where replay continues. -/
  replayStart : ℕ
  /-- The digest of its payload. -/
  hash : Hash

/-- The zeros and the segment header in front of a write that needs `required` bytes in one
segment, and the offset at which the write begins. -/
def place (repository : Repository) (end_ required : ℕ) : Except String (Bytes × ℕ) :=
  let in_ := (end_ - base) % span
  let newSegment := in_ = 0 ∨ span - in_ < required
  let at_ := if newSegment ∧ in_ ≠ 0 then end_ + (span - in_) else end_
  do
    need (at_ ≤ 2 ^ 63 - 1 - span) "container offset exhausted"
    if newSegment then
      return (List.replicate (at_ - end_) 0 ++ segmentHeader repository.val ((at_ - base) / span),
        at_ + header)
    else return ([], at_)

/-- The payload of a DATA record. -/
def dataPayload (value : Bytes) : Bytes := store 4 2 ++ (store 0 2 ++ value)

/-- The DATA records of a transaction. -/
def dataRecords (seq : ℕ) (values : List (Hash × Bytes)) : Bytes :=
  values.flatMap fun e => record 1 seq (dataPayload e.2) e.1

/-- Where these records lie if the first one is at `offset`. -/
def locations (offset : ℕ) : List (Hash × Bytes) → List (Hash × Location)
  | [] => []
  | e :: values =>
    let length := recordLength (dataPayload e.2).length
    (e.1, ⟨offset, length⟩) :: locations (offset + length) values

/-- The payload of a COMMIT record. -/
def commitPayload (index : Index) (prepareAt prepareLength : ℕ) (prepare : Bytes) (start : ℕ)
    (batch : Bytes) : Bytes :=
  [store (index.seq + 1) 8, index.lastHash.val, store prepareAt 8, store prepareLength 4, store 0 4,
    (digest prepare).val, store start 8, store (start + batch.length) 8,
    (digest batch).val].flatten

/-- Append a transaction: its values, a prepare record and a COMMIT record. -/
def commitBatch (repository : Repository) (j : Journal) (values : List (Hash × Bytes)) (type : ℕ)
    (prepare : Bytes) (changes : StdMap Bytes (Option Hash)) : Except String Append := do
  let records := dataRecords (j.index.seq + 1) values
  let batch := records ++ record type (j.index.seq + 1) prepare Hash.zero
  let (lead, start) ← place repository j.end_ (batch.length + 216)
  let commit := commitPayload j.index (start + records.length) (recordLength prepare.length) prepare
    start batch
  return {
    bytes := lead ++ (batch ++ record 3 (j.index.seq + 1) commit Hash.zero)
    index := {
      seq := j.index.seq + 1
      lastHash := tagged "forkfs.commit.v0" commit
      roots := j.index.roots.override changes
      objects := j.index.objects.insertAll (locations start values) }
    end_ := start + batch.length + recordLength commit.length }

/-- The prepare payload of `put`. -/
def putPayload (index : Index) (key : Bytes) (oid : Hash) : Bytes :=
  [index.lastHash.val, store key.length 4, key, oid.val].flatten

/-- Store one object under a root. -/
def planPut (repository : Repository) (j : Journal) (key value : Bytes) : Except String Append := do
  need (key ≠ [] ∧ key.length ≤ 1024) "root name must be 1..1024 bytes"
  need (value.length ≤ maxPayload) "object exceeds 256 KiB"
  need (j.index.seq ≠ 2 ^ 64 - 1) "transaction sequence exhausted"
  let oid := objectHash value
  commitBatch repository j [(oid, value)] 2 (putPayload j.index key oid)
    ((∅ : StdMap Bytes (Option Hash)).insert key (some oid))

/-- Read an object through the index. -/
def readObject (j : Journal) (id : Hash) : Except String Bytes := do
  match j.index.objects[id]? with
  | none => .error "object not indexed"
  | some loc =>
    let found ← readRecord j.log loc.payload (loc.payload + loc.length)
    match found with
    | none => .error "invalid indexed object"
    | some r =>
      need (r.type = 1 ∧ r.encoded.length = loc.length ∧ 0 < r.seq ∧ r.seq ≤ j.index.seq ∧
        r.oid = id ∧ 4 ≤ r.payload.length ∧ r.payload.length ≤ maxPayload + 4 ∧
        load (slice r.payload 0 2) = 4 ∧ load (slice r.payload 2 2) = 0) "invalid indexed object"
      need (objectHash (r.payload.drop 4) = id) "indexed object hash mismatch"
      return r.payload.drop 4

/-- The mutations of a transaction while they are checked. -/
structure Gathered where
  /-- The changed roots. -/
  changes : StdMap Bytes (Option Hash)
  /-- The new values by identity. -/
  values : StdMap Hash Bytes
  /-- The size of the new values. -/
  total : ℕ
  /-- Whether stored objects are referenced. -/
  references : Bool

/-- Check one mutation. -/
def gatherOne (j : Journal) (g : Gathered) (m : Mutation) : Except String Gathered := do
  need (m.key ≠ [] ∧ m.key.length ≤ 1024) "root name must be 1..1024 bytes"
  need (m.key ∉ g.changes) "duplicate mutation key"
  need (¬ (m.value.isSome ∧ m.reference.isSome)) "mutation has both value and reference"
  match m.reference, m.value with
  | some id, _ =>
    need (id ∈ j.index.objects) "reference object not committed"
    let _ ← j.readObject id
    return { g with changes := g.changes.insert m.key (some id), references := true }
  | none, some value =>
    need (value.length ≤ maxPayload) "object exceeds 256 KiB"
    let id := objectHash value
    let total := if id ∈ g.values then g.total else g.total + value.length
    need (total ≤ 1024 * 1024) "batch values exceed 1 MiB"
    return { g with
      changes := g.changes.insert m.key (some id)
      values := g.values.insertIfNew id value
      total := total }
  | none, none =>
    need (m.key ∈ j.index.roots) "cannot delete absent root"
    return { g with changes := g.changes.insert m.key none }

/-- One entry of a batch prepare record. -/
def entryBytes (e : Bytes × Option Hash) : Bytes :=
  [store (if e.2.isSome then 1 else 2) 4, store e.1.length 4, e.1, (e.2.getD Hash.zero).val].flatten

/-- The prepare payload of `transact`. -/
def batchPayload (index : Index) (changes : StdMap Bytes (Option Hash)) : Bytes :=
  [index.lastHash.val, store index.seq 8, store changes.size 4,
    changes.toList.flatMap entryBytes].flatten

/-- Commit a batch of mutations. -/
def planTransact (repository : Repository) (j : Journal) (expected : ℕ) (mutations : List Mutation) :
    Except String Append := do
  need (expected = j.index.seq) "transaction conflict: sequence changed"
  need (j.index.seq ≠ 2 ^ 64 - 1) "transaction sequence exhausted"
  need (mutations ≠ [] ∧ mutations.length ≤ 64) "batch requires 1..64 mutations"
  let g ← mutations.foldlM (gatherOne j) ⟨∅, ∅, 0, false⟩
  let prepare := batchPayload j.index g.changes
  need ((dataRecords (j.index.seq + 1) g.values.toList).length + recordLength prepare.length ≤
    2 * 1024 * 1024) "transaction batch too large"
  commitBatch repository j g.values.toList (if g.references then 8 else 7) prepare g.changes

/-- The payload of a checkpoint record. -/
def checkpointPayload (index : Index) : Bytes :=
  [store index.seq 8, index.lastHash.val, store index.objects.size 4, store index.roots.size 4,
    index.objects.toList.flatMap (fun e => e.1.val ++ (store e.2.payload 8 ++ store e.2.length 4)),
    index.roots.toList.flatMap (fun e => store e.1.length 4 ++ (e.1 ++ e.2.val))].flatten

/-- Append the index as one record. -/
def planCheckpoint (repository : Repository) (j : Journal) : Except String (Append × Checkpoint) := do
  let payload := checkpointPayload j.index
  need (payload.length ≤ 1024 * 1024 - 87) "checkpoint exceeds single-record profile limit"
  let length := recordLength payload.length
  let (lead, start) ← place repository j.end_ length
  return (⟨lead ++ record 5 j.index.seq payload Hash.zero, j.index, start + length⟩,
    ⟨start, length, j.index.seq, start + length, digest payload⟩)

/-- The log without an uncommitted tail. -/
def kept (j : Journal) : Bytes := if j.tail then j.log.take (j.end_ - base) else j.log

/-- The journal after a complete append. -/
def append (j : Journal) (a : Append) : Journal := ⟨j.kept ++ a.bytes, a.index, a.end_, false⟩

/-- The calls that write to the log. -/
inductive Call
  /-- Store one object. -/
  | put (key value : Bytes)
  /-- Commit a batch. -/
  | transact (expected : ℕ) (mutations : List Mutation)
  /-- Append a checkpoint record. -/
  | checkpoint

/-- What a call appends, unless it is rejected. -/
def plan (repository : Repository) (j : Journal) : Call → Except String Append
  | .put key value => planPut repository j key value
  | .transact expected mutations => planTransact repository j expected mutations
  | .checkpoint => Prod.fst <$> planCheckpoint repository j

/-- A complete call. A rejected call changes nothing. -/
def call (repository : Repository) (j : Journal) (c : Call) : Journal :=
  match plan repository j c with
  | .error _ => j
  | .ok a => j.append a

end Journal

end ForkFs
