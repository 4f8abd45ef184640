import ForkFs.Journal.Record

/-!
# The frame of a record

Every byte of a record is determined by its type, sequence number, object and payload. The reader
therefore accepts one encoding of them and no other, at any offset of any file. It is stated for a
part of a file, of which the whole file and the log are instances.
-/

namespace ForkFs.Journal

open Bytes Outcome

section Source

/-- Read bytes at an offset of a file, of which the part from `start` on is given. -/
def readFrom (start : ℕ) (data : Bytes) (at_ n : ℕ) : Except String Bytes := do
  need (at_ - start + n ≤ data.length) "short journal read"
  return slice data (at_ - start) n

/-- The record as it stands there, once its header has been accepted. -/
def encodedFrom (start : ℕ) (data : Bytes) (at_ len n : ℕ) : Except String Rec := do
  let b ← readFrom start data at_ len
  need (load (slice b 6 2) = 1 ∧ load (slice b 56 4) = 0) "unsupported record schema or flags"
  need (load (slice b (len - 12) 4) = len ∧ slice b (len - 8) 8 = ascii "FFREND00")
    "invalid record trailer"
  need (load (slice b (len - 16) 4) = crc (slice b 64 n)) "invalid payload checksum"
  need ((slice b (64 + n) (len - 16 - (64 + n))).all (· = 0)) "nonzero record padding"
  return ⟨load (slice b 4 2), load (slice b 16 8), at_, Hash.ofBytes (slice b 24 32),
    slice b 64 n, b⟩

/-- Read the record at an offset with `room` bytes left in its segment. -/
def recordFrom (start : ℕ) (data : Bytes) (room at_ size : ℕ) : Except String (Option Rec) := do
  need (at_ ≤ size) "record offset past EOF"
  if size - at_ < 64 then .ok none
  else
    let h ← readFrom start data at_ 64
    need (slice h 0 4 = ascii "FFR0") "invalid record magic"
    need (load (slice h 60 4) = crc (slice h 0 60)) "invalid record header checksum"
    let len := load (slice h 8 4)
    let n := load (slice h 12 4)
    need (80 ≤ len ∧ len ≤ 1024 * 1024 ∧ len % 8 = 0 ∧ n ≤ len - 80 ∧ len = recordLength n)
      "invalid record length"
    need (len ≤ room) "record crosses segment boundary"
    if size - at_ < len then .ok none
    else some <$> encodedFrom start data at_ len n

/-- What is left of the segment of an offset. The difference wraps in front of the segments. -/
def room (at_ : ℕ) : ℕ := span - (at_ + 2 ^ 64 - base) % 2 ^ 64 % span

/-- Read the record at an offset of a whole file. -/
def readFileRecord (file : Bytes) (at_ size : ℕ) : Except String (Option Rec) :=
  recordFrom 0 file (room at_) at_ size

/-- In the log of a container. -/
theorem readRecord_eq (log : Bytes) (at_ size : ℕ) :
    readRecord log at_ size = recordFrom base log (span - (at_ - base) % span) at_ size :=
  rfl

end Source

section Frame

variable {type seq len n : ℕ} {payload b : Bytes} {oid : Hash}

/-- Fields that a record can hold. -/
structure Framed (type seq : ℕ) (payload : Bytes) : Prop where
  type_lt : type < 2 ^ 16
  seq_lt : seq < 2 ^ 64
  /-- The record has at most 1 MiB. -/
  length_le : recordLength payload.length ≤ 1024 * 1024

/-- The checks of a record. -/
structure PassesChecks (b : Bytes) (len n : ℕ) : Prop where
  magic : slice b 0 4 = ascii "FFR0"
  head : load (slice b 60 4) = crc (slice b 0 60)
  length : load (slice b 8 4) = len
  size : load (slice b 12 4) = n
  limit : len ≤ 1024 * 1024 ∧ len = recordLength n
  schema : load (slice b 6 2) = 1
  flags : load (slice b 56 4) = 0
  trailer : load (slice b (len - 12) 4) = len
  mark : slice b (len - 8) 8 = ascii "FFREND00"
  body : load (slice b (len - 16) 4) = crc (slice b 64 n)
  padding : (slice b (64 + n) (len - 16 - (64 + n))).all (· = 0) = true

/-- The record that the fields of a string describe. -/
def recAt (b : Bytes) (n at_ : ℕ) : Rec :=
  ⟨load (slice b 4 2), load (slice b 16 8), at_, Hash.ofBytes (slice b 24 32), slice b 64 n, b⟩

/-- The header of a checked string. -/
theorem PassesChecks.head_eq (h : PassesChecks b len n) (hb : b.length = len) :
    slice b 0 60 = recordHead (load (slice b 4 2)) (load (slice b 16 8)) n
      (Hash.ofBytes (slice b 24 32)) := by
  have hlength := recordLength_eq n
  have hlen := h.limit.2
  have hin : 60 ≤ b.length := by omega
  rw [recordHead, ← h.magic, Hash.val_ofBytes (length_slice_of_le (by omega)), ← hlen,
    ← slice_eq_store (by omega) rfl, ← slice_eq_store (by omega) h.schema,
    ← slice_eq_store (by omega) h.length, ← slice_eq_store (by omega) h.size,
    ← slice_eq_store (by omega) rfl, ← slice_eq_store (by omega) h.flags]
  simp only [List.flatten_cons, List.flatten_nil, List.append_nil]
  iterate 7 rw [slice_append_next b (by omega)]

/-- A checked string is the record of its fields. -/
theorem PassesChecks.eq_record (h : PassesChecks b len n) (hb : b.length = len) :
    b = record (load (slice b 4 2)) (load (slice b 16 8)) (slice b 64 n)
      (Hash.ofBytes (slice b 24 32)) := by
  have hlength := recordLength_eq n
  have hlen := h.limit.2
  have hpayload : (slice b 64 n).length = n := length_slice_of_le (by omega)
  have hpadding : List.replicate (recordLength n - 80 - n) 0 =
      slice b (64 + n) (len - 16 - (64 + n)) := by
    symm
    rw [List.eq_replicate_iff]
    refine ⟨?_, fun x hx => ?_⟩
    · rw [length_slice_of_le (by omega)]
      omega
    · have hzero := List.all_eq_true.mp h.padding x hx
      simpa using hzero
  rw [record, hpayload, ← h.head_eq hb, hpadding, ← h.mark, ← hlen,
    ← slice_eq_store (by omega) h.head, ← slice_eq_store (by omega) h.body,
    ← slice_eq_store (by omega) h.trailer]
  simp only [List.flatten_cons, List.flatten_nil, List.append_nil]
  iterate 6 rw [slice_append_next b (by omega)]
  rw [slice_self (by omega)]

/-- A record passes the checks, and its fields are read back. -/
theorem Framed.checked (h : Framed type seq payload) (oid : Hash) :
    PassesChecks (record type seq payload oid) (recordLength payload.length) payload.length ∧
      ∀ at_, recAt (record type seq payload oid) payload.length at_ = Rec.of type seq payload oid at_ := by
  obtain ⟨hmagic, htype, hschema, hlen, hn, hseq, hoid, hflags⟩ :=
    slice_recordHead type seq oid payload.length
  obtain ⟨hhead, hcrc, hpayload, hpad, hbody, htrailer, hend⟩ := slice_record type seq payload oid
  have hlength := recordLength_eq payload.length
  have hbound := h.length_le
  have hfield {i w : ℕ} (hin : i + w ≤ 60) := slice_record_head type seq payload oid hin
  refine ⟨⟨?_, ?_, ?_, ?_, ⟨hbound, rfl⟩, ?_, ?_, ?_, hend, ?_, ?_⟩, fun at_ => ?_⟩
  · rw [hfield (by omega), hmagic]
  · rw [hcrc, hhead, load_store_of_lt (crc_lt _)]
  · rw [hfield (by omega), hlen, load_store_of_lt (by omega)]
  · rw [hfield (by omega), hn, load_store_of_lt (by omega)]
  · rw [hfield (by omega), hschema]
    rfl
  · rw [hfield (by omega), hflags]
    rfl
  · rw [htrailer, load_store_of_lt (by omega)]
  · rw [hbody, hpayload, load_store_of_lt (crc_lt _)]
  · rw [hpad]
    simp
  · rw [recAt, Rec.of, hpayload, hfield (by omega), hfield (by omega), hfield (by omega), htype, hseq,
      hoid, load_store_of_lt h.type_lt, load_store_of_lt h.seq_lt, Hash.ofBytes_val]

/-- The fields of a checked string are in range. -/
theorem PassesChecks.framed (h : PassesChecks b len n) (hb : b.length = len) :
    Framed (load (slice b 4 2)) (load (slice b 16 8)) (slice b 64 n) := by
  have hlength := recordLength_eq n
  have hlen := h.limit.2
  have htype := load_lt (slice b 4 2)
  have hseq := load_lt (slice b 16 8)
  rw [length_slice_of_le (by omega)] at htype hseq
  refine ⟨htype, hseq, ?_⟩
  rw [length_slice_of_le (by omega), ← hlen]
  exact h.limit.1

end Frame

section Reader

variable {start room at_ size len n : ℕ} {data b : Bytes} {r : Rec}

theorem readFrom_eq_ok : readFrom start data at_ n = .ok b ↔
    at_ - start + n ≤ data.length ∧ slice data (at_ - start) n = b := by
  rw [readFrom, need_bind_eq_ok, pure_eq_ok]

/-- The reader accepts what passes the checks. -/
theorem recordFrom_eq_some : recordFrom start data room at_ size = .ok (some r) ↔
    ∃ len n, at_ + len ≤ size ∧ len ≤ room ∧ at_ - start + len ≤ data.length ∧
      PassesChecks (slice data (at_ - start) len) len n ∧ r = recAt (slice data (at_ - start) len) n at_ := by
  have hfield {len len' i w : ℕ} (hin : i + w ≤ len) (hin' : i + w ≤ len') :
      slice (slice data (at_ - start) len) i w = slice (slice data (at_ - start) len') i w := by
    rw [slice_slice hin, slice_slice hin']
  rw [recordFrom, need_bind_eq_ok]
  constructor
  · rintro ⟨hat, h⟩
    split at h
    · cases h
    obtain ⟨head, hhead, h⟩ := bind_eq_ok.mp h
    obtain ⟨hin, rfl⟩ := readFrom_eq_ok.mp hhead
    obtain ⟨hmagic, h⟩ := need_bind_eq_ok.mp h
    obtain ⟨hcrc, h⟩ := need_bind_eq_ok.mp h
    obtain ⟨⟨hmin, hmax, -, -, hlen⟩, h⟩ := need_bind_eq_ok.mp h
    obtain ⟨hroom, h⟩ := need_bind_eq_ok.mp h
    split at h
    · cases h
    rename_i hsize
    obtain ⟨r', hr', h⟩ := map_eq_ok.mp h
    cases h
    obtain ⟨b, hb, h⟩ := bind_eq_ok.mp hr'
    obtain ⟨hfits, rfl⟩ := readFrom_eq_ok.mp hb
    obtain ⟨⟨hschema, hflags⟩, h⟩ := need_bind_eq_ok.mp h
    obtain ⟨⟨htrailer, hmark⟩, h⟩ := need_bind_eq_ok.mp h
    obtain ⟨hbody, h⟩ := need_bind_eq_ok.mp h
    obtain ⟨hpadding, h⟩ := need_bind_eq_ok.mp h
    refine ⟨_, _, by omega, hroom, hfits, ⟨?_, ?_, ?_, ?_, ⟨hmax, hlen⟩, hschema, hflags, htrailer,
      hmark, hbody, hpadding⟩, (pure_eq_ok.mp h).symm⟩
    · exact (hfield (by omega) (by omega)).trans hmagic
    · exact (congrArg load (hfield (by omega) (by omega))).trans
        (hcrc.trans (congrArg crc (hfield (by omega) (by omega))))
    · exact congrArg load (hfield (by omega) (by omega))
    · exact congrArg load (hfield (by omega) (by omega))
  · rintro ⟨len, n, hsize, hroom, hfits, hchecked, rfl⟩
    obtain ⟨hmax, hlen⟩ := hchecked.limit
    have hlength := recordLength_eq n
    refine ⟨by omega, ?_⟩
    have hhead {i w : ℕ} (hin : i + w ≤ 64) :
        slice (slice data (at_ - start) 64) i w = slice (slice data (at_ - start) len) i w :=
      hfield hin (by omega)
    rw [if_neg (by omega), readFrom_eq_ok.mpr ⟨by omega, rfl⟩, ok_bind, hhead (by omega),
      hhead (by omega), hhead (by omega), hhead (by omega), hhead (by omega),
      need_of hchecked.magic, ok_bind, need_of hchecked.head, ok_bind, hchecked.length, hchecked.size]
    dsimp only
    rw [need_of (by omega), ok_bind, need_of hroom, ok_bind, if_neg (by omega), encodedFrom,
      readFrom_eq_ok.mpr ⟨hfits, rfl⟩, ok_bind, need_of ⟨hchecked.schema, hchecked.flags⟩, ok_bind,
      need_of ⟨hchecked.trailer, hchecked.mark⟩, ok_bind, need_of hchecked.body, ok_bind,
      need_of hchecked.padding]
    rfl

/-- A record that stands at an offset is read. -/
theorem recordFrom_record {type seq : ℕ} {payload : Bytes} {oid : Hash} (h : Framed type seq payload)
    (hslice : slice data (at_ - start) (recordLength payload.length) = record type seq payload oid)
    (hsize : at_ + recordLength payload.length ≤ size) (hroom : recordLength payload.length ≤ room) :
    recordFrom start data room at_ size = .ok (some (Rec.of type seq payload oid at_)) := by
  obtain ⟨hchecked, hrec⟩ := h.checked oid
  have hin : at_ - start + recordLength payload.length ≤ data.length := by
    have hlength := congrArg List.length hslice
    have hpos := recordLength_eq payload.length
    rw [length_slice, length_record] at hlength
    omega
  refine recordFrom_eq_some.mpr ⟨_, payload.length, hsize, hroom, hin, ?_, ?_⟩
  · rw [hslice]
    exact hchecked
  · rw [hslice, hrec]

/-- A record that does not end before the file does is none. -/
theorem recordFrom_cut {type seq : ℕ} {payload : Bytes} {oid : Hash} (h : Framed type seq payload)
    {cut : ℕ} (hslice : slice data (at_ - start) cut = (record type seq payload oid).take cut)
    (hcut : cut < recordLength payload.length) (hroom : recordLength payload.length ≤ room) :
    recordFrom start data room at_ (at_ + cut) = .ok none := by
  rw [recordFrom, need_of (by omega), ok_bind]
  by_cases hshort : cut < 64
  · rw [if_pos (by omega)]
  have hlength := recordLength_eq payload.length
  have hhead : readFrom start data at_ 64 = .ok (slice (record type seq payload oid) 0 64) := by
    have hin := congrArg List.length hslice
    rw [length_slice, List.length_take, length_record] at hin
    refine readFrom_eq_ok.mpr ⟨by omega, ?_⟩
    have htake := congrArg (List.take 64) hslice
    rw [slice, List.take_take, List.take_take, min_eq_left (by omega)] at htake
    exact htake
  obtain ⟨hchecked, -⟩ := h.checked oid
  have hfield {i w : ℕ} (hin : i + w ≤ 64) :
      slice (slice (record type seq payload oid) 0 64) i w = slice (record type seq payload oid) i w := by
    rw [slice_slice hin, Nat.zero_add]
  rw [if_neg (by omega), hhead, ok_bind, hfield (by omega), hfield (by omega), hfield (by omega),
    hfield (by omega), hfield (by omega), need_of hchecked.magic, ok_bind, need_of hchecked.head,
    ok_bind, hchecked.length, hchecked.size]
  have hbound := h.length_le
  dsimp only
  rw [need_of (by omega), ok_bind, need_of hroom, ok_bind, if_pos (by omega)]

end Reader

section Canonical

/-- What the reader of a file can return at an offset. -/
structure Canonical (file : Bytes) (at_ : ℕ) : Prop where
  /-- A record that fits its segment is read back. -/
  read : ∀ type seq payload oid size, Framed type seq payload →
    recordLength payload.length ≤ room at_ →
    slice file at_ (recordLength payload.length) = record type seq payload oid →
    at_ + recordLength payload.length ≤ size →
      readFileRecord file at_ size = .ok (some (Rec.of type seq payload oid at_))
  /-- What is read is the only record with its fields. -/
  unique : ∀ size r, readFileRecord file at_ size = .ok (some r) →
    r.offset = at_ ∧ r.encoded = record r.type r.seq r.payload r.oid ∧
      Framed r.type r.seq r.payload ∧ slice file at_ (recordLength r.payload.length) = r.encoded ∧
      at_ + recordLength r.payload.length ≤ size
  /-- A file that ends inside a record has none there. -/
  cut : ∀ type seq payload oid n, Framed type seq payload →
    recordLength payload.length ≤ room at_ → file.length = at_ + n →
    n < recordLength payload.length → file.drop at_ = (record type seq payload oid).take n →
      readFileRecord file at_ file.length = .ok none

/-- The frame of records is canonical. -/
theorem readFileRecord_canonical (file : Bytes) (at_ : ℕ) : Canonical file at_ where
  read := by
    intro type seq payload oid size hframed hroom hslice hsize
    exact recordFrom_record hframed hslice hsize hroom
  unique := by
    intro size r hr
    obtain ⟨len, n, hsize, -, hin, hchecked, rfl⟩ := recordFrom_eq_some.mp hr
    have hlength : (slice file at_ len).length = len := length_slice_of_le hin
    have hlen := hchecked.limit.2
    have hmin := recordLength_eq n
    have hpayload : (slice (slice file at_ len) 64 n).length = n := length_slice_of_le (by omega)
    refine ⟨rfl, hchecked.eq_record hlength, hchecked.framed hlength, ?_, ?_⟩
    · change slice file at_ (recordLength (slice (slice file at_ len) 64 n).length) = slice file at_ len
      rw [hpayload, ← hlen]
    · change at_ + recordLength (slice (slice file at_ len) 64 n).length ≤ size
      rwa [hpayload, ← hlen]
  cut := by
    intro type seq payload oid n hframed hroom hlength hn hdrop
    have hslice : slice file at_ n = (record type seq payload oid).take n := by
      rw [slice, hdrop, List.take_take, min_self]
    rw [hlength]
    exact recordFrom_cut hframed hslice hn hroom

/-- In the log of a container file the reader is that of the replay. -/
theorem readFileRecord_log {top log : Bytes} {at_ size : ℕ} (htop : top.length = base)
    (hat : base ≤ at_) (hlt : at_ < 2 ^ 64) :
    readFileRecord (top ++ log) at_ size = readRecord log at_ size := by
  have hread (n : ℕ) : readFrom 0 (top ++ log) at_ n = readFrom base log at_ n := by
    have hin : at_ - 0 + n ≤ (top ++ log).length ↔ at_ - base + n ≤ log.length := by
      rw [List.length_append]
      omega
    unfold readFrom
    rw [Nat.sub_zero] at hin ⊢
    rw [slice_append_right (by omega), htop]
    simp only [hin]
  have hencoded (len n : ℕ) : encodedFrom 0 (top ++ log) at_ len n = encodedFrom base log at_ len n := by
    unfold encodedFrom
    rw [hread]
  have hroom : room at_ = span - (at_ - base) % span := by
    have hsub : (at_ + 2 ^ 64 - base) % 2 ^ 64 = at_ - base := by omega
    rw [room, hsub]
  rw [readRecord_eq, readFileRecord]
  unfold recordFrom
  simp only [hread, hencoded, hroom]

end Canonical

end ForkFs.Journal
