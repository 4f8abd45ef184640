import ForkFs.Basic

/-!
# Batch files

The command line reads a batch of mutations from a file of at most 2 MiB. A file is accepted exactly
if it is the encoding of a list of valid mutations, and no access of the reader is out of bounds.
-/

namespace ForkFs.Batch

open Bytes Outcome Scan

/-- A number, and the offset after it. -/
def word (b : Bytes) (pos : ℕ) : Scanned (ℕ × ℕ) := do
  let rest ← left b pos
  demand (4 ≤ rest) "truncated batch input"
  let field ← peek b pos 4
  pure (load field, pos + 4)

/-- The value of an operation. -/
def value (op length : ℕ) (b : Bytes) (pos : ℕ) : Scanned (Option Bytes) :=
  if op = 1 then some <$> peek b pos length else pure none

/-- The key and the value of a mutation, after its header. -/
def body (op keyLength valueLength : ℕ) (b : Bytes) (pos : ℕ) : Scanned (Mutation × ℕ) := do
  let rest ← left b pos
  demand ((op = 1 ∨ op = 2) ∧ keyLength ≠ 0 ∧ keyLength ≤ 1024 ∧ valueLength ≤ 256 * 1024 ∧
    (op = 2 → valueLength = 0) ∧ (keyLength + valueLength) % 2 ^ 64 ≤ rest)
    "invalid batch input entry"
  let key ← peek b pos keyLength
  let value ← value op valueLength b (pos + keyLength)
  pure (⟨key, value, none⟩, pos + keyLength + valueLength)

/-- One mutation, and the offset after it. -/
def mutation (b : Bytes) (pos : ℕ) : Scanned (Mutation × ℕ) := do
  let (op, pos) ← word b pos
  let (keyLength, pos) ← word b pos
  let (valueLength, pos) ← word b pos
  body op keyLength valueLength b pos

/-- The mutations of a batch, after its magic. -/
def mutations (b : Bytes) (pos : ℕ) : Scanned (List Mutation × ℕ) := do
  let (count, pos) ← word b pos
  demand (count ≠ 0 ∧ count ≤ 64) "batch requires 1..64 mutations"
  many (fun _ => mutation) (fun u _ => u) count () b pos

/-- Read the mutations of a file. -/
def loadBatch (file : Bytes) : Scanned (List Mutation) := do
  let b := file.take (2 * 1024 * 1024 + 1)
  demand (b.length ≤ 2 * 1024 * 1024) "invalid or oversized batch input"
  demand (12 ≤ b.length) "invalid batch input magic"
  let magic ← peek b 0 8
  demand (magic = ascii "FFBATCH1") "invalid batch input magic"
  finish "trailing batch input bytes" mutations b 8

section Grammar

/-- A mutation that a batch can hold. -/
structure Writable (m : Mutation) : Prop where
  key_ne : m.key ≠ []
  key_le : m.key.length ≤ 1024
  value_le : ∀ value ∈ m.value, value.length ≤ 256 * 1024
  /-- Batches have no references to stored objects. -/
  reference : m.reference = none

/-- The code of a mutation. -/
def opcode (m : Mutation) : ℕ := if m.value.isSome then 1 else 2

/-- The bytes of a mutation. Deletions have no value. -/
def encodeMutation (m : Mutation) : Bytes :=
  store (opcode m) 4 ++ (store m.key.length 4 ++ (store (m.value.getD []).length 4 ++
    (m.key ++ m.value.getD [])))

/-- The bytes of a batch. -/
def encodeBatch (batch : List Mutation) : Bytes :=
  ascii "FFBATCH1" ++ (store batch.length 4 ++ batch.flatMap encodeMutation)

theorem Writable.value_length_le {m : Mutation} (h : Writable m) :
    (m.value.getD []).length ≤ 256 * 1024 := by
  cases hm : m.value with
  | none => simp
  | some data => exact h.value_le data hm

theorem opcode_cases (m : Mutation) : opcode m = 1 ∨ opcode m = 2 := by
  unfold opcode
  split <;> simp

end Grammar

section Exact

variable {b : Bytes} {pos stop v : ℕ} {m : Mutation}

theorem reads_word : Reads word (fun v => store v 4) (fun v => v < 256 ^ 4) where
  exact := by
    intro b pos v stop hpos
    rw [word, left_of_le hpos, ok_bind, demand_bind_eq_ok, length_store]
    constructor
    · rintro ⟨hin, h⟩
      rw [peek_of_le (by omega), ok_bind] at h
      obtain ⟨hv, rfl⟩ := Prod.mk.inj (pure_eq_ok.mp h)
      obtain ⟨hlt, hstore⟩ := (load_slice_eq hpos).mp ⟨by omega, hv⟩
      exact ⟨hlt, rfl, hstore⟩
    · rintro ⟨hlt, rfl, hstore⟩
      obtain ⟨hin, hv⟩ := (load_slice_eq hpos).mpr ⟨hlt, hstore⟩
      rw [peek_of_le hin, ok_bind, hv]
      exact ⟨by omega, rfl⟩
  safe := by
    intro b pos hpos
    rw [word, left_of_le hpos, ok_bind]
    exact safe_demand fun hin => (safe_peek (by omega)).bind fun _ _ => safe_pure _

/-- The sum of the lengths does not wrap. -/
theorem lengths_mod {k n : ℕ} (hk : k ≤ 1024) (hn : n ≤ 256 * 1024) : (k + n) % 2 ^ 64 = k + n :=
  Nat.mod_eq_of_lt (by omega)

theorem value_eq_ok {op n : ℕ} {x : Option Bytes} (hpos : pos ≤ b.length) :
    value op n b pos = .ok x ↔
      (if op = 1 then ∃ data, x = some data ∧ data.length = n ∧ data <+: b.drop pos else x = none) := by
  unfold value
  split
  · rw [map_eq_ok]
    simp only [peek_eq_ok hpos]
    constructor
    · rintro ⟨data, hdata, rfl⟩
      exact ⟨data, rfl, hdata⟩
    · rintro ⟨data, rfl, hdata⟩
      exact ⟨data, hdata, rfl⟩
  · rw [pure_eq_ok, eq_comm]

/-- What follows a header. -/
structure Matches (op k n : ℕ) (m : Mutation) : Prop where
  writable : Writable m
  op_eq : op = opcode m
  key_eq : k = m.key.length
  value_eq : n = (m.value.getD []).length

theorem reads_body (op k n : ℕ) :
    Reads (body op k n) (fun m => m.key ++ m.value.getD []) (Matches op k n) where
  exact := by
    intro b pos m stop hpos
    rw [body, left_of_le hpos, ok_bind, demand_bind_eq_ok]
    constructor
    · rintro ⟨⟨hcase, hkpos, hkle, hnle, hzero, hin⟩, h⟩
      rw [lengths_mod hkle hnle] at hin
      obtain ⟨key, hpeek, h⟩ := bind_eq_ok.mp h
      obtain ⟨rfl, hkey⟩ := (peek_eq_ok hpos).mp hpeek
      obtain ⟨x, hx, h⟩ := bind_eq_ok.mp h
      obtain ⟨rfl, rfl⟩ := Prod.mk.inj (pure_eq_ok.mp h)
      rw [value_eq_ok (by omega)] at hx
      have hne : key ≠ [] := fun hnil => hkpos (by rw [hnil]; rfl)
      rcases hcase with rfl | rfl
      · obtain ⟨data, rfl, rfl, hdata⟩ := hx
        refine ⟨⟨⟨hne, hkle, ?_, rfl⟩, rfl, rfl, rfl⟩, ?_, append_at_iff.mpr ⟨hkey, hdata⟩⟩
        · rintro _ ⟨⟩
          exact hnle
        · rw [List.length_append, Nat.add_assoc]
          rfl
      · obtain rfl : x = none := hx
        obtain rfl := hzero rfl
        refine ⟨⟨⟨hne, hkle, nofun, rfl⟩, rfl, rfl, rfl⟩, ?_, ?_⟩
        · rw [List.length_append, Nat.add_assoc]
          rfl
        · exact append_at_iff.mpr ⟨hkey, List.nil_prefix⟩
    · rintro ⟨⟨hwritable, rfl, rfl, rfl⟩, rfl, hin⟩
      obtain ⟨hkey, hvalue⟩ := append_at_iff.mp hin
      have hlength := hin.length_le
      rw [List.length_append, List.length_drop] at hlength
      have hnle := hwritable.value_length_le
      have hzero : opcode m = 2 → (m.value.getD []).length = 0 := by
        cases hm : m.value with
        | none => simp
        | some data => simp [opcode, hm]
      refine ⟨⟨opcode_cases m, ?_, hwritable.key_le, hnle, hzero, ?_⟩, ?_⟩
      · exact fun hnil => hwritable.key_ne (List.length_eq_zero_iff.mp hnil)
      · rw [lengths_mod hwritable.key_le hnle]
        omega
      · have hx : value (opcode m) (m.value.getD []).length b (pos + m.key.length) = .ok m.value := by
          rw [value_eq_ok (by omega)]
          cases hm : m.value with
          | none => simp [opcode, hm]
          | some data =>
            rw [hm] at hvalue
            simpa [opcode, hm] using hvalue
        rw [(peek_eq_ok hpos).mpr ⟨rfl, hkey⟩, ok_bind, hx, ok_bind, ← hwritable.reference,
          List.length_append, Nat.add_assoc]
        rfl
  safe := by
    intro b pos hpos
    rw [body, left_of_le hpos, ok_bind]
    refine safe_demand fun hchecks => ?_
    obtain ⟨-, -, hkle, hnle, -, hin⟩ := hchecks
    rw [lengths_mod hkle hnle] at hin
    refine (safe_peek (by omega)).bind fun key _ => ?_
    refine Safe.bind ?_ fun x _ => safe_pure _
    unfold value
    split
    · rw [peek_of_le (by omega)]
      exact safe_pure _
    · exact safe_pure _

/-- A step reads exactly the encodings of mutations. -/
theorem reads_mutation : Reads mutation encodeMutation Writable := by
  have hvalue (op k : ℕ) := reads_word.seq (reads_body op k) fun n m h => h.value_eq
  have hkey (op : ℕ) := reads_word.seq (hvalue op) fun k m h => h.2.key_eq
  have hop := reads_word.seq hkey fun op m h => h.2.2.op_eq
  refine hop.congr fun m => ⟨fun h => h.2.2.2.writable, fun h => ?_⟩
  have hvalue := h.value_length_le
  have hkey := h.key_le
  have hop := opcode_cases m
  exact ⟨by omega, by omega, by omega, h, rfl, rfl, rfl⟩

/-- The mutations of a batch are counted. -/
theorem reads_mutations : Reads mutations (fun l => store l.length 4 ++ l.flatMap encodeMutation)
    fun l => 1 ≤ l.length ∧ l.length ≤ 64 ∧ ∀ m ∈ l, Writable m := by
  have hmany (count : ℕ) : Reads (many (fun _ => mutation) (fun u _ => u) count ()) _ _ :=
    Reads.many (fun _ : Unit => reads_mutation) count ()
  have hguarded (count : ℕ) := (hmany count).guard (count ≠ 0 ∧ count ≤ 64)
    "batch requires 1..64 mutations"
  have hcounted := reads_word.seq hguarded fun count l h => h.2.1.symm
  refine hcounted.congr fun l => ?_
  rw [validAll_iff]
  constructor
  · rintro ⟨-, hbounds, -, hall⟩
    exact ⟨by omega, hbounds.2, hall⟩
  · rintro ⟨hpos, hle, hall⟩
    exact ⟨by omega, ⟨by omega, hle⟩, rfl, hall⟩

/-- What the reader of batches does with a file. -/
structure Exact (file : Bytes) : Prop where
  /-- It accepts encodings of at most 2 MiB. -/
  accepts : ∀ batch, loadBatch file = .ok batch ↔ file.length ≤ 2 * 1024 * 1024 ∧
    (1 ≤ batch.length ∧ batch.length ≤ 64 ∧ ∀ m ∈ batch, Writable m) ∧ file = encodeBatch batch
  /-- It rejects the others with a message. -/
  rejects : ∀ fault, loadBatch file = .error fault → ∃ message, fault = .thrown message

/-- A batch file is read exactly if it is the encoding of a batch. -/
theorem loadBatch_exact (file : Bytes) : Exact file where
  accepts := by
    intro batch
    have htake : (file.take (2 * 1024 * 1024 + 1)).length ≤ 2 * 1024 * 1024 ↔
        file.length ≤ 2 * 1024 * 1024 := by
      rw [List.length_take]
      omega
    rw [loadBatch, demand_bind_eq_ok, htake]
    refine and_congr_right fun hsize => ?_
    rw [List.take_of_length_le (by omega), demand_bind_eq_ok]
    have hmagic : (ascii "FFBATCH1").length = 8 := by decide
    constructor
    · rintro ⟨hin, h⟩
      rw [peek_of_le (by omega), ok_bind, demand_bind_eq_ok,
        reads_mutations.finish_eq_ok (by omega)] at h
      obtain ⟨hfirst, hvalid, hrest⟩ := h
      refine ⟨hvalid, ?_⟩
      rw [encodeBatch, ← hrest, ← hfirst]
      exact (List.take_append_drop 8 file).symm
    · rintro ⟨hvalid, hfile⟩
      have hrest : file.drop 8 = store batch.length 4 ++ batch.flatMap encodeMutation := by
        rw [hfile, encodeBatch]
        exact List.drop_left' hmagic
      have hfirst : slice file 0 8 = ascii "FFBATCH1" := by
        rw [hfile, encodeBatch]
        exact slice_append_self hmagic
      have hlength := congrArg List.length hrest
      rw [List.length_drop, List.length_append, length_store] at hlength
      rw [peek_of_le (by omega), ok_bind, demand_bind_eq_ok,
        reads_mutations.finish_eq_ok (by omega)]
      exact ⟨by omega, hfirst, hvalid, hrest⟩
  rejects := by
    refine safe_demand fun _ => safe_demand fun hin => ?_
    refine (safe_peek (by omega)).bind fun _ _ => safe_demand fun _ => ?_
    exact reads_mutations.safe_finish (by omega)

end Exact

end ForkFs.Batch
