import ForkFs.Basic

/-!
# Journal records

The log of the single-file container starts at offset 65536 and is divided into segments of
16 MiB with a header of one page each. A record carries a checksummed header, its payload, zero
padding and a trailer. Reading a complete record returns what was written, and a log that ends
inside a record yields no record.
-/

namespace ForkFs.Journal

open Bytes

/-- The offset of the first segment. -/
def base : ℕ := 65536

/-- The size of a segment. -/
def span : ℕ := 16 * 1024 * 1024

/-- The size of a segment header. -/
def header : ℕ := 4096

/-- The largest object. -/
def maxPayload : ℕ := 256 * 1024

/-- Read bytes at an offset of the container. -/
def readBytes (log : Bytes) (at_ n : ℕ) : Except String Bytes := do
  need (at_ - base + n ≤ log.length) "short journal read"
  return slice log (at_ - base) n

/-- The encoded size of a record with `n` bytes of payload. -/
def recordLength (n : ℕ) : ℕ := (64 + n + 7) / 8 * 8 + 16

/-- The checksummed part of a record header. -/
def recordHead (type seq n : ℕ) (oid : Hash) : Bytes :=
  [ascii "FFR0", store type 2, store 1 2, store (recordLength n) 4, store n 4, store seq 8, oid.val,
    store 0 4].flatten

/-- Encode a record. -/
def record (type seq : ℕ) (payload : Bytes) (oid : Hash) : Bytes :=
  [recordHead type seq payload.length oid, store (crc (recordHead type seq payload.length oid)) 4,
    payload, List.replicate (recordLength payload.length - 80 - payload.length) 0,
    store (crc payload) 4, store (recordLength payload.length) 4, ascii "FFREND00"].flatten

/-- A decoded record. -/
structure Rec where
  /-- The record type. -/
  type : ℕ
  /-- The transaction that wrote it. -/
  seq : ℕ
  /-- Its offset in the container. -/
  offset : ℕ
  /-- The object it carries, or zero. -/
  oid : Hash
  /-- Its payload. -/
  payload : Bytes
  /-- The whole record. -/
  encoded : Bytes

/-- The record as it stands in the log, once its header has been accepted. -/
def readEncoded (log : Bytes) (at_ len n : ℕ) : Except String Rec := do
  let b ← readBytes log at_ len
  need (load (slice b 6 2) = 1 ∧ load (slice b 56 4) = 0) "unsupported record schema or flags"
  need (load (slice b (len - 12) 4) = len ∧ slice b (len - 8) 8 = ascii "FFREND00")
    "invalid record trailer"
  need (load (slice b (len - 16) 4) = crc (slice b 64 n)) "invalid payload checksum"
  need ((slice b (64 + n) (len - 16 - (64 + n))).all (· = 0)) "nonzero record padding"
  return ⟨load (slice b 4 2), load (slice b 16 8), at_, Hash.ofBytes (slice b 24 32),
    slice b 64 n, b⟩

/-- Read the record at an offset of a log that ends at `size`. An incomplete final record is
none; a complete corrupt record fails. -/
def readRecord (log : Bytes) (at_ size : ℕ) : Except String (Option Rec) := do
  need (at_ ≤ size) "record offset past EOF"
  if size - at_ < 64 then .ok none
  else
    let h ← readBytes log at_ 64
    need (slice h 0 4 = ascii "FFR0") "invalid record magic"
    need (load (slice h 60 4) = crc (slice h 0 60)) "invalid record header checksum"
    let len := load (slice h 8 4)
    let n := load (slice h 12 4)
    need (80 ≤ len ∧ len ≤ 1024 * 1024 ∧ len % 8 = 0 ∧ n ≤ len - 80 ∧ len = recordLength n)
      "invalid record length"
    need (len ≤ span - (at_ - base) % span) "record crosses segment boundary"
    if size - at_ < len then .ok none
    else some <$> readEncoded log at_ len n

/-- The header of a segment. -/
def segmentHeader (repository : Bytes) (id : ℕ) : Bytes :=
  let b := [ascii "FFSEG000", repository, store id 8, store 1 8,
    List.replicate (header - 28 - repository.length) 0].flatten
  b ++ store (crc b) 4

section Fields

variable (type seq : ℕ) (payload : Bytes) (oid : Hash)

theorem recordLength_eq (n : ℕ) :
    recordLength n % 8 = 0 ∧ 80 + n ≤ recordLength n ∧ recordLength n ≤ n + 87 := by
  unfold recordLength
  omega

@[simp] theorem length_recordHead (n : ℕ) : (recordHead type seq n oid).length = 60 := by
  simp [recordHead, ascii, oid.property]

@[simp] theorem length_record :
    (record type seq payload oid).length = recordLength payload.length := by
  have := recordLength_eq payload.length
  simp [record, ascii]
  omega

/-- A field of the header. -/
theorem slice_record_head {start n : ℕ} (h : start + n ≤ 60) :
    slice (record type seq payload oid) start n =
      slice (recordHead type seq payload.length oid) start n := by
  rw [record, List.flatten_cons, slice_append_left (by simpa using h)]

theorem slice_recordHead (n : ℕ) :
    slice (recordHead type seq n oid) 0 4 = ascii "FFR0" ∧
      slice (recordHead type seq n oid) 4 2 = store type 2 ∧
      slice (recordHead type seq n oid) 6 2 = store 1 2 ∧
      slice (recordHead type seq n oid) 8 4 = store (recordLength n) 4 ∧
      slice (recordHead type seq n oid) 12 4 = store n 4 ∧
      slice (recordHead type seq n oid) 16 8 = store seq 8 ∧
      slice (recordHead type seq n oid) 24 32 = oid.val ∧
      slice (recordHead type seq n oid) 56 4 = store 0 4 := by
  refine ⟨slice_flatten (i := 0) rfl ?_ ?_, slice_flatten (i := 1) rfl ?_ ?_,
    slice_flatten (i := 2) rfl ?_ ?_, slice_flatten (i := 3) rfl ?_ ?_,
    slice_flatten (i := 4) rfl ?_ ?_, slice_flatten (i := 5) rfl ?_ ?_,
    slice_flatten (i := 6) rfl ?_ ?_, slice_flatten (i := 7) rfl ?_ ?_⟩
  all_goals simp [ascii, oid.property]

/-- The fields after the header. -/
theorem slice_record :
    slice (record type seq payload oid) 0 60 = recordHead type seq payload.length oid ∧
      slice (record type seq payload oid) 60 4 =
        store (crc (recordHead type seq payload.length oid)) 4 ∧
      slice (record type seq payload oid) 64 payload.length = payload ∧
      slice (record type seq payload oid) (64 + payload.length)
        (recordLength payload.length - 16 - (64 + payload.length)) =
        List.replicate (recordLength payload.length - 80 - payload.length) 0 ∧
      slice (record type seq payload oid) (recordLength payload.length - 16) 4 =
        store (crc payload) 4 ∧
      slice (record type seq payload oid) (recordLength payload.length - 12) 4 =
        store (recordLength payload.length) 4 ∧
      slice (record type seq payload oid) (recordLength payload.length - 8) 8 = ascii "FFREND00" := by
  have := recordLength_eq payload.length
  refine ⟨slice_flatten (i := 0) rfl ?_ ?_, slice_flatten (i := 1) rfl ?_ ?_,
    slice_flatten (i := 2) rfl ?_ ?_, slice_flatten (i := 3) rfl ?_ ?_,
    slice_flatten (i := 4) rfl ?_ ?_, slice_flatten (i := 5) rfl ?_ ?_,
    slice_flatten (i := 6) rfl ?_ ?_⟩
  all_goals simp [ascii]
  all_goals omega

end Fields

section Reading

variable {type seq : ℕ} {payload : Bytes} {oid : Hash} {pre rest : Bytes}

theorem readBytes_append {b : Bytes} {at_ n : ℕ} (hat : at_ = base + pre.length)
    (hn : b.length = n) : readBytes (pre ++ b ++ rest) at_ n = .ok b := by
  have hat' : at_ - base = pre.length := by omega
  rw [readBytes, hat', need_of (by simp; omega), Outcome.ok_bind, List.append_assoc,
    slice_append_right le_rfl, Nat.sub_self, slice_append_self hn]
  rfl

/-- A record whose fields are in range. -/
structure Encodable (type seq : ℕ) (payload : Bytes) : Prop where
  /-- The type fits its field. -/
  type_lt : type < 256 ^ 2
  /-- The sequence number fits its field. -/
  seq_lt : seq < 256 ^ 8
  /-- The record is within the size limit. -/
  length_le : payload.length ≤ 1024 * 1024 - 87

/-- The decoded form of a written record. -/
def Rec.of (type seq : ℕ) (payload : Bytes) (oid : Hash) (at_ : ℕ) : Rec :=
  ⟨type, seq, at_, oid, payload, record type seq payload oid⟩

theorem Rec.length_encoded_of (type seq : ℕ) (payload : Bytes) (oid : Hash) (at_ : ℕ) :
    (Rec.of type seq payload oid at_).encoded.length = recordLength payload.length :=
  length_record ..

theorem readEncoded_record (h : Encodable type seq payload) {at_ : ℕ}
    (hat : at_ = base + pre.length) :
    readEncoded (pre ++ record type seq payload oid ++ rest) at_ (recordLength payload.length)
      payload.length = .ok (Rec.of type seq payload oid at_) := by
  obtain ⟨-, htype, hschema, -, -, hseq, hoid, hflags⟩ := slice_recordHead type seq oid payload.length
  obtain ⟨-, -, hpayload, hpad, hcrc, hlen, hend⟩ := slice_record type seq payload oid
  have hlength := recordLength_eq payload.length
  have hbound := h.length_le
  rw [readEncoded, readBytes_append hat (length_record ..), Outcome.ok_bind]
  simp only [need_bind_eq_ok, Outcome.pure_eq_ok]
  rw [slice_record_head type seq payload oid (by omega : 4 + 2 ≤ 60),
    slice_record_head type seq payload oid (by omega : 6 + 2 ≤ 60),
    slice_record_head type seq payload oid (by omega : 16 + 8 ≤ 60),
    slice_record_head type seq payload oid (by omega : 24 + 32 ≤ 60),
    slice_record_head type seq payload oid (by omega : 56 + 4 ≤ 60),
    htype, hschema, hseq, hoid, hflags, hpayload, hpad, hcrc, hlen, hend,
    load_store_of_lt (crc_lt payload), load_store_of_lt h.type_lt, load_store_of_lt h.seq_lt,
    Hash.ofBytes_val]
  exact ⟨⟨rfl, rfl⟩, ⟨load_store_of_lt (by omega), rfl⟩, rfl, by simp, rfl⟩

/-- The checks of a record header that is in the log. -/
theorem readRecord_head {log : Bytes} {at_ size : ℕ} (h : Encodable type seq payload)
    (hhead : readBytes log at_ 64 = .ok (slice (record type seq payload oid) 0 64))
    (hsize : at_ + 64 ≤ size)
    (hspan : recordLength payload.length ≤ span - (at_ - base) % span) :
    readRecord log at_ size =
      if size - at_ < recordLength payload.length then .ok none
      else some <$> readEncoded log at_ (recordLength payload.length) payload.length := by
  obtain ⟨hmagic, -, -, hlen, hn, -, -, -⟩ := slice_recordHead type seq oid payload.length
  obtain ⟨hhead60, hcrc, -, -, -, -, -⟩ := slice_record type seq payload oid
  have hlength := recordLength_eq payload.length
  have hbound := h.length_le
  rw [readRecord, need_of (by omega), Outcome.ok_bind, if_neg (by omega), hhead, Outcome.ok_bind,
    slice_slice (by omega), slice_slice (by omega), slice_slice (by omega), slice_slice (by omega),
    slice_slice (by omega), Nat.zero_add, Nat.zero_add, Nat.zero_add, Nat.zero_add, hhead60, hcrc,
    slice_record_head type seq payload oid (by omega : 0 + 4 ≤ 60),
    slice_record_head type seq payload oid (by omega : 8 + 4 ≤ 60),
    slice_record_head type seq payload oid (by omega : 12 + 4 ≤ 60), hmagic, hlen, hn,
    need_of rfl, Outcome.ok_bind, need_of (load_store_of_lt (crc_lt _)), Outcome.ok_bind,
    load_store_of_lt (by omega), load_store_of_lt (by omega)]
  dsimp only
  rw [need_of (by omega), Outcome.ok_bind, need_of hspan, Outcome.ok_bind]

/-- A complete record in a segment reads back. -/
theorem readRecord_record (h : Encodable type seq payload) {at_ size : ℕ}
    (hat : at_ = base + pre.length) (hsize : at_ + recordLength payload.length ≤ size)
    (hspan : recordLength payload.length ≤ span - (at_ - base) % span) :
    readRecord (pre ++ record type seq payload oid ++ rest) at_ size =
      .ok (some (Rec.of type seq payload oid at_)) := by
  have hlength := recordLength_eq payload.length
  have hsplit : slice (record type seq payload oid) 0 64 ++
      (record type seq payload oid).drop 64 = record type seq payload oid :=
    List.take_append_drop 64 _
  have hhead : readBytes (pre ++ record type seq payload oid ++ rest) at_ 64 =
      .ok (slice (record type seq payload oid) 0 64) := by
    rw [← hsplit, ← List.append_assoc, List.append_assoc, hsplit]
    exact readBytes_append hat (length_slice_of_le (by rw [length_record]; omega))
  rw [readRecord_head h hhead (by omega) hspan, if_neg (by omega), readEncoded_record h hat]
  rfl

/-- A log that ends inside a record has no record there. -/
theorem readRecord_cut (h : Encodable type seq payload) {at_ n : ℕ}
    (hat : at_ = base + pre.length) (hn : n < recordLength payload.length)
    (hspan : recordLength payload.length ≤ span - (at_ - base) % span) :
    readRecord (pre ++ (record type seq payload oid).take n) at_ (at_ + n) = .ok none := by
  by_cases hshort : n < 64
  · rw [readRecord, need_of (by omega), Outcome.ok_bind, if_pos (by omega)]
  · have hsplit : (record type seq payload oid).take n =
        slice (record type seq payload oid) 0 64 ++ ((record type seq payload oid).take n).drop 64 := by
      conv_lhs => rw [← List.take_append_drop 64 ((record type seq payload oid).take n)]
      rw [List.take_take, min_eq_left (by omega)]
      rfl
    have hhead : readBytes (pre ++ (record type seq payload oid).take n) at_ 64 =
        .ok (slice (record type seq payload oid) 0 64) := by
      rw [hsplit, ← List.append_assoc]
      exact readBytes_append hat (length_slice_of_le (by rw [length_record]; omega))
    rw [readRecord_head h hhead (by omega) hspan, if_pos (by omega)]

end Reading

end ForkFs.Journal
