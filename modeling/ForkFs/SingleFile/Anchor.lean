import ForkFs.Journal.Open

/-!
# Anchors of the single-file container

The container begins with two anchors of one page each. An anchor names the container, counts
its publications and refers to a checkpoint. A checkpoint is published by overwriting the anchor
that is not in use, so that a torn write leaves the other one.
-/

namespace ForkFs.SingleFile

open Bytes Journal

/-- A page that may hold an anchor. -/
abbrev Anchor := { b : Bytes // b.length = 4096 }

namespace Anchor

/-- Overwrite a field. -/
def write (a : Anchor) (start : ℕ) (field : Bytes) (h : start + field.length ≤ 4096) : Anchor :=
  ⟨patch a.val start field, by rw [length_patch (by rw [a.property]; exact h), a.property]⟩

/-- The magic and the checksum are right. -/
def Valid (a : Anchor) : Prop :=
  slice a.val 0 8 = ascii "FORKFS00" ∧ load (slice a.val 4092 4) = crc (slice a.val 0 4092)

instance (a : Anchor) : Decidable a.Valid := inferInstanceAs (Decidable (_ ∧ _))

/-- The number of publications. -/
def generation (a : Anchor) : ℕ := load (slice a.val 32 8)

/-- The identity of the container. -/
def repository (a : Anchor) : Repository :=
  ⟨slice a.val 16 16, length_slice_of_le (by rw [a.property]; decide)⟩

/-- The checkpoint that an anchor refers to. -/
def checkpoint (a : Anchor) : Checkpoint :=
  ⟨load (slice a.val 64 8), load (slice a.val 72 8), load (slice a.val 80 8),
    load (slice a.val 120 8), Hash.ofBytes (slice a.val 88 32)⟩

theorem val_repository (a : Anchor) : a.repository.val = slice a.val 16 16 := rfl

theorem offset_checkpoint (a : Anchor) : a.checkpoint.offset = load (slice a.val 64 8) := rfl

/-- An anchor without a checkpoint refers to the beginning of the log. -/
def checkEmpty (a : Anchor) : Except String Unit :=
  if load (slice a.val 64 8) = 0 then do
    need ((slice a.val 64 56).all (· = 0)) "invalid empty checkpoint reference"
    need (load (slice a.val 120 8) = 65536) "invalid initial replay offset"
  else .ok ()

/-- Reject an anchor of another format. -/
def supported (a : Anchor) : Except String Unit := do
  need (load (slice a.val 8 2) = 0 ∧ load (slice a.val 10 2) = 0) "unsupported container version"
  need (load (slice a.val 12 4) = 4096) "unsupported anchor size"
  need (load (slice a.val 40 8) = 0 ∧ load (slice a.val 48 8) = 0) "unsupported container features"
  need (load (slice a.val 56 8) = 16 * 1024 * 1024) "unsupported segment span"
  a.checkEmpty
  need ((slice a.val 136 3956).all (· = 0)) "nonzero reserved anchor field"
  need (¬ (slice a.val 16 16).all (· = 0)) "invalid repository identity"

/-- Store the checksum. -/
def withChecksum (a : Anchor) : Anchor :=
  a.write 4092 (store (crc (slice a.val 0 4092)) 4) (by simp)

/-- A page of zeros. -/
def blank : Anchor := ⟨List.replicate 4096 0, List.length_replicate⟩

/-- The fields of the anchor of a new container. -/
def initialFields (repository : Repository) (now : ℕ) : Anchor :=
  let a := blank.write 0 (ascii "FORKFS00") (by decide)
  let a := a.write 12 (store 4096 4) (by simp)
  let a := a.write 16 repository.val (by rw [repository.property]; decide)
  let a := a.write 32 (store 1 8) (by simp)
  let a := a.write 56 (store (16 * 1024 * 1024) 8) (by simp)
  let a := a.write 120 (store 65536 8) (by simp)
  a.write 128 (store now 8) (by simp)

/-- The anchor of a new container. -/
def initial (repository : Repository) (now : ℕ) : Anchor :=
  (initialFields repository now).withChecksum

/-- The fields of the anchor that publishes a checkpoint. -/
def nextFields (a : Anchor) (c : Checkpoint) : Anchor :=
  let b := a.write 32 (store (a.generation + 1) 8) (by simp)
  let b := b.write 64 (store c.offset 8) (by simp)
  let b := b.write 72 (store c.length 8) (by simp)
  let b := b.write 80 (store c.sequence 8) (by simp)
  let b := b.write 88 c.hash.val (by rw [c.hash.property]; decide)
  b.write 120 (store c.replayStart 8) (by simp)

/-- The anchor that publishes a checkpoint. -/
def next (a : Anchor) (c : Checkpoint) : Anchor := (a.nextFields c).withChecksum

section Fields

variable {a : Anchor} {start i n : ℕ} {field : Bytes} {h : start + field.length ≤ 4096}

theorem slice_write_self (hn : field.length = n) : slice (a.write start field h).val start n = field := by
  subst hn
  exact slice_patch_self (by rw [a.property]; exact h)

theorem slice_write_of_disjoint (hdisjoint : i + n ≤ start ∨ start + field.length ≤ i) :
    slice (a.write start field h).val i n = slice a.val i n :=
  slice_patch_of_disjoint (by rw [a.property]; exact h) hdisjoint

theorem slice_withChecksum (hin : i + n ≤ 4092) : slice a.withChecksum.val i n = slice a.val i n :=
  slice_write_of_disjoint (Or.inl hin)

/-- An anchor with its checksum is valid. -/
theorem valid_withChecksum (hmagic : slice a.val 0 8 = ascii "FORKFS00") : a.withChecksum.Valid := by
  refine ⟨(slice_withChecksum (by decide)).trans hmagic, ?_⟩
  have hcrc : slice a.withChecksum.val 4092 4 = store (crc (slice a.val 0 4092)) 4 :=
    slice_write_self (by simp)
  rw [hcrc, slice_withChecksum (by decide), load_store_of_lt (crc_lt _)]

end Fields

section Next

variable {a : Anchor} {c : Checkpoint} {i n : ℕ}

/-- A publication changes the generation, the checkpoint and the checksum only. -/
theorem slice_next (h : i + n ≤ 32 ∨ 40 ≤ i ∧ i + n ≤ 64 ∨ 128 ≤ i ∧ i + n ≤ 4092) :
    slice (a.next c).val i n = slice a.val i n := by
  have hhash := c.hash.property
  rw [next, slice_withChecksum (by omega), nextFields, slice_write_of_disjoint (by rw [length_store]; omega),
    slice_write_of_disjoint (by omega), slice_write_of_disjoint (by rw [length_store]; omega),
    slice_write_of_disjoint (by rw [length_store]; omega),
    slice_write_of_disjoint (by rw [length_store]; omega),
    slice_write_of_disjoint (by rw [length_store]; omega)]

theorem generation_next (h : a.generation + 1 < 256 ^ 8) :
    (a.next c).generation = a.generation + 1 := by
  have hhash := c.hash.property
  have hslice : slice (a.next c).val 32 8 = store (a.generation + 1) 8 := by
    rw [next, slice_withChecksum (by omega), nextFields, slice_write_of_disjoint (by rw [length_store]; omega),
      slice_write_of_disjoint (by omega), slice_write_of_disjoint (by rw [length_store]; omega),
      slice_write_of_disjoint (by rw [length_store]; omega),
      slice_write_of_disjoint (by rw [length_store]; omega), slice_write_self (by simp)]
  rw [generation, hslice, load_store_of_lt h]

/-- The descriptor reads back. -/
theorem checkpoint_next (hoffset : c.offset < 256 ^ 8) (hlength : c.length < 256 ^ 8)
    (hsequence : c.sequence < 256 ^ 8) (hreplay : c.replayStart < 256 ^ 8) :
    (a.next c).checkpoint = c := by
  have hhash := c.hash.property
  have h0 : slice (a.next c).val 64 8 = store c.offset 8 := by
    rw [next, slice_withChecksum (by omega), nextFields, slice_write_of_disjoint (by rw [length_store]; omega),
      slice_write_of_disjoint (by omega), slice_write_of_disjoint (by rw [length_store]; omega),
      slice_write_of_disjoint (by rw [length_store]; omega), slice_write_self (by simp)]
  have h1 : slice (a.next c).val 72 8 = store c.length 8 := by
    rw [next, slice_withChecksum (by omega), nextFields, slice_write_of_disjoint (by rw [length_store]; omega),
      slice_write_of_disjoint (by omega), slice_write_of_disjoint (by rw [length_store]; omega),
      slice_write_self (by simp)]
  have h2 : slice (a.next c).val 80 8 = store c.sequence 8 := by
    rw [next, slice_withChecksum (by omega), nextFields, slice_write_of_disjoint (by rw [length_store]; omega),
      slice_write_of_disjoint (by omega), slice_write_self (by simp)]
  have h3 : slice (a.next c).val 88 32 = c.hash.val := by
    rw [next, slice_withChecksum (by omega), nextFields, slice_write_of_disjoint (by rw [length_store]; omega),
      slice_write_self hhash]
  have h4 : slice (a.next c).val 120 8 = store c.replayStart 8 := by
    rw [next, slice_withChecksum (by omega), nextFields, slice_write_self (by simp)]
  rw [checkpoint, h0, h1, h2, h3, h4, load_store_of_lt hoffset, load_store_of_lt hlength,
    load_store_of_lt hsequence, load_store_of_lt hreplay, Hash.ofBytes_val]

end Next

section Initial

variable {repository : Repository} {now i n : ℕ}

theorem slice_blank (i n : ℕ) : (slice blank.val i n).all (· = 0) = true := by
  rw [List.all_eq_true]
  intro x hx
  have hmem := List.mem_of_mem_drop (List.mem_of_mem_take hx)
  rw [decide_eq_true_eq]
  exact List.eq_of_mem_replicate hmem

theorem load_eq_zero {b : Bytes} (h : b.all (· = 0) = true) : load b = 0 := by
  induction b with
  | nil => rfl
  | cons x b ih =>
    rw [List.all_cons, Bool.and_eq_true, decide_eq_true_eq] at h
    rw [load, h.1, ih h.2]
    rfl

/-- Fields that a new anchor leaves blank. -/
theorem slice_initial (h : 8 ≤ i ∧ i + n ≤ 12 ∨ 40 ≤ i ∧ i + n ≤ 56 ∨ 64 ≤ i ∧ i + n ≤ 120 ∨
    136 ≤ i ∧ i + n ≤ 4092) : (slice (initial repository now).val i n).all (· = 0) = true := by
  have hrepository := repository.property
  have hmagic : (ascii "FORKFS00").length = 8 := rfl
  rw [initial, slice_withChecksum (by omega), initialFields, slice_write_of_disjoint (by rw [length_store]; omega),
    slice_write_of_disjoint (by rw [length_store]; omega),
    slice_write_of_disjoint (by rw [length_store]; omega),
    slice_write_of_disjoint (by rw [length_store]; omega), slice_write_of_disjoint (by omega),
    slice_write_of_disjoint (by rw [length_store]; omega), slice_write_of_disjoint (by omega)]
  exact slice_blank i n

theorem fields_initial (repository : Repository) (now : ℕ) :
    slice (initial repository now).val 0 8 = ascii "FORKFS00" ∧
      slice (initial repository now).val 12 4 = store 4096 4 ∧
      slice (initial repository now).val 16 16 = repository.val ∧
      slice (initial repository now).val 56 8 = store (16 * 1024 * 1024) 8 ∧
      slice (initial repository now).val 120 8 = store 65536 8 := by
  have hrepository := repository.property
  refine ⟨?_, ?_, ?_, ?_, ?_⟩
  · rw [initial, slice_withChecksum (by omega), initialFields, slice_write_of_disjoint (by omega),
      slice_write_of_disjoint (by omega), slice_write_of_disjoint (by omega),
      slice_write_of_disjoint (by omega), slice_write_of_disjoint (by omega),
      slice_write_of_disjoint (by omega), slice_write_self (by decide)]
  · rw [initial, slice_withChecksum (by omega), initialFields, slice_write_of_disjoint (by omega),
      slice_write_of_disjoint (by omega), slice_write_of_disjoint (by omega),
      slice_write_of_disjoint (by omega), slice_write_of_disjoint (by omega),
      slice_write_self (by simp)]
  · rw [initial, slice_withChecksum (by omega), initialFields, slice_write_of_disjoint (by omega),
      slice_write_of_disjoint (by omega), slice_write_of_disjoint (by omega),
      slice_write_of_disjoint (by omega), slice_write_self hrepository]
  · rw [initial, slice_withChecksum (by omega), initialFields, slice_write_of_disjoint (by omega),
      slice_write_of_disjoint (by omega), slice_write_self (by simp)]
  · rw [initial, slice_withChecksum (by omega), initialFields, slice_write_of_disjoint (by omega),
      slice_write_self (by simp)]

end Initial

/-- An anchor that belongs to a container and may be opened. -/
structure Genuine (repository : Repository) (a : Anchor) : Prop where
  /-- The magic and the checksum are right. -/
  valid : a.Valid
  /-- The format is supported. -/
  supported : a.supported = .ok ()
  /-- It names the container. -/
  repository_eq : a.repository = repository

theorem supported_eq_ok {a : Anchor} : a.supported = .ok () ↔
    (load (slice a.val 8 2) = 0 ∧ load (slice a.val 10 2) = 0) ∧ load (slice a.val 12 4) = 4096 ∧
    (load (slice a.val 40 8) = 0 ∧ load (slice a.val 48 8) = 0) ∧
    load (slice a.val 56 8) = 16 * 1024 * 1024 ∧ a.checkEmpty = .ok () ∧
    (slice a.val 136 3956).all (· = 0) = true ∧ ¬ (slice a.val 16 16).all (· = 0) = true := by
  simp only [supported, need_bind_eq_ok]
  constructor
  · rintro ⟨h0, h1, h2, h3, h⟩
    obtain ⟨_, h4, h⟩ := Outcome.bind_eq_ok.mp h
    obtain ⟨h5, h6⟩ := need_bind_eq_ok.mp h
    exact ⟨h0, h1, h2, h3, h4, h5, need_eq_ok.mp h6⟩
  · rintro ⟨h0, h1, h2, h3, h4, h5, h6⟩
    refine ⟨h0, h1, h2, h3, ?_⟩
    rw [h4, Outcome.ok_bind, need_of h5, Outcome.ok_bind, need_of h6]

theorem valid_initial (repository : Repository) (now : ℕ) : (initial repository now).Valid := by
  apply valid_withChecksum
  rw [← slice_withChecksum (by omega)]
  exact (fields_initial repository now).1

theorem checkEmpty_initial (repository : Repository) (now : ℕ) :
    (initial repository now).checkEmpty = .ok () := by
  have hzero : load (slice (initial repository now).val 64 8) = 0 :=
    load_eq_zero (slice_initial (by omega))
  rw [checkEmpty, if_pos hzero, need_of (slice_initial (by omega)), Outcome.ok_bind, need_of]
  rw [(fields_initial repository now).2.2.2.2]
  exact load_store_of_lt (by omega)

/-- The anchor of a new container may be opened, as long as the container has an identity. -/
theorem genuine_initial {repository : Repository} (now : ℕ)
    (hrepository : ¬ repository.val.all (· = 0) = true) :
    Genuine repository (initial repository now) := by
  obtain ⟨-, h1, h2, h3, -⟩ := fields_initial repository now
  refine ⟨valid_initial repository now, ?_, Subtype.ext ((val_repository _).trans h2)⟩
  rw [supported_eq_ok, h1, h2, h3]
  refine ⟨⟨?_, ?_⟩, ?_, ⟨?_, ?_⟩, ?_, checkEmpty_initial repository now, ?_, hrepository⟩
  · exact load_eq_zero (slice_initial (by omega))
  · exact load_eq_zero (slice_initial (by omega))
  · exact load_store_of_lt (by omega)
  · exact load_eq_zero (slice_initial (by omega))
  · exact load_eq_zero (slice_initial (by omega))
  · exact load_store_of_lt (by omega)
  · exact slice_initial (by omega)

/-- A published anchor may be opened. -/
theorem genuine_next {repository : Repository} {a : Anchor} {c : Checkpoint}
    (h : Genuine repository a) (hzero : c.offset ≠ 0) (hcheckpoint : (a.next c).checkpoint = c) :
    Genuine repository (a.next c) := by
  obtain ⟨h0, h1, h2, h3, -, h5, h6⟩ := supported_eq_ok.mp h.supported
  have hvalid : (a.next c).Valid := by
    apply valid_withChecksum
    rw [← slice_withChecksum (by omega)]
    exact (slice_next (by omega)).trans h.valid.1
  have hempty : (a.next c).checkEmpty = .ok () := by
    rw [checkEmpty, ← offset_checkpoint, hcheckpoint, if_neg hzero]
  have hrepository : (a.next c).repository = a.repository := by
    apply Subtype.ext
    rw [val_repository, val_repository, slice_next (by omega)]
  refine ⟨hvalid, ?_, hrepository.trans h.repository_eq⟩
  rw [supported_eq_ok, slice_next (by omega), slice_next (by omega), slice_next (by omega),
    slice_next (by omega), slice_next (by omega), slice_next (by omega), slice_next (by omega),
    slice_next (by omega)]
  exact ⟨h0, h1, h2, h3, hempty, h5, h6⟩

end Anchor

end ForkFs.SingleFile
