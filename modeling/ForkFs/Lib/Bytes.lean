import Mathlib.Data.List.Lex
import Mathlib.Data.List.Basic
import Mathlib.Data.Nat.Bitwise
import Mathlib.Order.Compare

/-!
# Byte strings

Byte strings are lists, ordered lexicographically by unsigned bytes. Fixed-width integers
are stored little-endian and records are read by absolute offset, so the lemmas here say
how a slice of a concatenation is found and when a slice determines what was stored.
-/

/-- A string of bytes. -/
abbrev Bytes := List UInt8

/-- Bytes compare as unsigned numbers. -/
instance instLinearOrderByte : LinearOrder UInt8 where
  le_refl _ := UInt8.le_refl _
  le_trans _ _ _ := UInt8.le_trans
  le_antisymm _ _ := UInt8.le_antisymm
  le_total := UInt8.le_total
  lt_iff_le_not_ge a b := by
    simp only [UInt8.lt_iff_toNat_lt, UInt8.le_iff_toNat_le]
    omega
  toDecidableLE := inferInstance
  toDecidableEq := inferInstance
  toDecidableLT := inferInstance
  toOrd := inferInstance
  compare_eq_compareOfLessAndEq _ _ := rfl

/-- A quantifier over a list is decided along the list, never by trying all machine integers. -/
instance (priority := 1100) decidableForallInList {α : Type*} {p : α → Prop} [DecidablePred p]
    (l : List α) : Decidable (∀ a ∈ l, p a) :=
  List.decidableBAll p l

/-- A quantifier over an option is decided from its value. -/
instance (priority := 1100) decidableForallInOption {α : Type*} {p : α → Prop} [DecidablePred p]
    (o : Option α) : Decidable (∀ a ∈ o, p a) :=
  Option.decidableForallMem o

namespace Bytes

instance transCmp : Std.TransCmp (@compare Bytes LinearOrder.toOrd) := inferInstance

/-- The bytes of an ASCII text. -/
def ascii (text : String) : Bytes := text.toList.map fun c => UInt8.ofNat c.toNat

/-- The low `n` bytes of a number, least significant first. -/
def store : ℕ → ℕ → Bytes
  | _, 0 => []
  | v, n + 1 => UInt8.ofNat (v % 256) :: store (v / 256) n

/-- The number with the given little-endian bytes. -/
def load : Bytes → ℕ
  | [] => 0
  | b :: bs => b.toNat + 256 * load bs

/-- The `n` bytes that start at an offset, fewer at the end of the string. -/
def slice (b : Bytes) (start n : ℕ) : Bytes := (b.drop start).take n

@[simp] theorem length_store (v n : ℕ) : (store v n).length = n := by
  induction n generalizing v with
  | zero => rfl
  | succ n ih => simp [store, ih]

theorem load_store (v n : ℕ) : load (store v n) = v % 256 ^ n := by
  induction n generalizing v with
  | zero => simp [store, load, Nat.mod_one]
  | succ n ih =>
    have hpow : 256 ^ (n + 1) = 256 * 256 ^ n := Nat.pow_succ'
    rw [store, load, ih, UInt8.toNat_ofNat', hpow, Nat.mod_mul]
    omega

/-- A number that fits its field reads back. -/
theorem load_store_of_lt {v n : ℕ} (h : v < 256 ^ n) : load (store v n) = v := by
  rw [load_store, Nat.mod_eq_of_lt h]

/-- A field is the encoding of the number read from it. -/
theorem store_load (b : Bytes) : store (load b) b.length = b := by
  induction b with
  | nil => rfl
  | cons x b ih =>
    have hx : x.toNat < 256 := x.toNat_lt
    have hmod : (x.toNat + 256 * load b) % 256 = x.toNat := by omega
    have hdiv : (x.toNat + 256 * load b) / 256 = load b := by omega
    rw [load, List.length_cons, store, hmod, hdiv, ih, UInt8.ofNat_toNat]

theorem load_lt (b : Bytes) : load b < 256 ^ b.length := by
  induction b with
  | nil => simp [load]
  | cons x b ih =>
    have hx : x.toNat < 256 := x.toNat_lt
    rw [load, List.length_cons, Nat.pow_succ']
    omega

theorem length_slice (b : Bytes) (start n : ℕ) :
    (slice b start n).length = min n (b.length - start) := by
  simp [slice]

theorem length_slice_of_le {b : Bytes} {start n : ℕ} (h : start + n ≤ b.length) :
    (slice b start n).length = n := by
  rw [length_slice]
  omega

/-- A slice that lies in the first part of a concatenation. -/
theorem slice_append_left {a b : Bytes} {start n : ℕ} (h : start + n ≤ a.length) :
    slice (a ++ b) start n = slice a start n := by
  rw [slice, slice, List.drop_append_of_le_length (by omega), List.take_append_of_le_length]
  rw [List.length_drop]
  omega

/-- A slice that lies in the second part of a concatenation. -/
theorem slice_append_right {a b : Bytes} {start n : ℕ} (h : a.length ≤ start) :
    slice (a ++ b) start n = slice b (start - a.length) n := by
  rw [slice, slice, List.drop_append, List.drop_eq_nil_of_le h, List.nil_append]

/-- The slice that covers a string is the string. -/
theorem slice_self {b : Bytes} {n : ℕ} (h : b.length ≤ n) : slice b 0 n = b := by
  rw [slice, List.drop_zero, List.take_of_length_le h]

/-- The first field of a concatenation. -/
theorem slice_append_self {a b : Bytes} {n : ℕ} (h : a.length = n) : slice (a ++ b) 0 n = a := by
  rw [slice_append_left (by omega), slice_self h.le]

/-- A field of a record that is the concatenation of its fields. -/
theorem slice_flatten {fields : List Bytes} {i start n : ℕ} {f : Bytes} (hf : fields[i]? = some f)
    (hstart : ((fields.take i).map List.length).sum = start) (hn : f.length = n) :
    slice fields.flatten start n = f := by
  obtain ⟨hi, hget⟩ := List.getElem?_eq_some_iff.mp hf
  have hsplit : fields.flatten = (fields.take i).flatten ++ (f ++ (fields.drop (i + 1)).flatten) := by
    conv_lhs => rw [← List.take_append_drop i fields, List.flatten_append,
      List.drop_eq_getElem_cons hi, List.flatten_cons, hget]
  rw [hsplit, slice_append_right (by rw [List.length_flatten, hstart]), List.length_flatten, hstart,
    Nat.sub_self, slice_append_self hn]

/-- A slice of a slice. -/
theorem slice_slice {b : Bytes} {start n start' n' : ℕ} (h : start' + n' ≤ n) :
    slice (slice b start n) start' n' = slice b (start + start') n' := by
  rw [slice, slice, slice, List.drop_take, List.drop_drop, List.take_take,
    min_eq_left (by omega)]

/-- Adjacent slices join. -/
theorem slice_append_slice (b : Bytes) (start n m : ℕ) :
    slice b start n ++ slice b (start + n) m = slice b start (n + m) := by
  rw [slice, slice, slice, ← List.drop_drop, List.take_add]

/-- Slices join where one ends and the next begins. -/
theorem slice_append_next (b : Bytes) {start n next m : ℕ} (h : start + n = next) :
    slice b start n ++ slice b next m = slice b start (n + m) := by
  rw [← h]
  exact slice_append_slice b start n m

/-- A field in the middle of a string is that of its number. -/
theorem slice_eq_store {b : Bytes} {start w v : ℕ} (hin : start + w ≤ b.length)
    (hv : load (slice b start w) = v) : slice b start w = store v w := by
  have hstore := store_load (slice b start w)
  rw [length_slice_of_le hin, hv] at hstore
  exact hstore.symm

/-- A field of a piece in the middle. -/
theorem slice_piece {pre piece rest : Bytes} {cursor i n : ℕ} (hcursor : cursor = pre.length)
    (hin : i + n ≤ piece.length) : slice (pre ++ piece ++ rest) (cursor + i) n = slice piece i n := by
  rw [hcursor, List.append_assoc, slice_append_right (by omega), Nat.add_sub_cancel_left,
    slice_append_left hin]

/-- Overwrite a field. -/
def patch (b : Bytes) (start : ℕ) (field : Bytes) : Bytes :=
  b.take start ++ field ++ b.drop (start + field.length)

section Patch

variable {b field : Bytes} {start : ℕ}

theorem length_patch (h : start + field.length ≤ b.length) :
    (patch b start field).length = b.length := by
  simp only [patch, List.length_append, List.length_take, List.length_drop]
  omega

theorem slice_patch_self (h : start + field.length ≤ b.length) :
    slice (patch b start field) start field.length = field := by
  have hstart : start = (b.take start).length := by
    rw [List.length_take]
    omega
  have hslice : slice (patch b start field) (start + 0) field.length = slice field 0 field.length :=
    slice_piece hstart (by omega)
  rw [Nat.add_zero, slice_self le_rfl] at hslice
  exact hslice

/-- Other fields are untouched. -/
theorem slice_patch_of_disjoint {i n : ℕ} (h : start + field.length ≤ b.length)
    (hdisjoint : i + n ≤ start ∨ start + field.length ≤ i) :
    slice (patch b start field) i n = slice b i n := by
  have hlength : (b.take start).length = start := by
    rw [List.length_take]
    omega
  rcases hdisjoint with hbefore | hafter
  · rw [patch, List.append_assoc, slice_append_left (by omega), slice, slice, List.drop_take,
      List.take_take, min_eq_left (by omega)]
  · rw [patch, slice_append_right (by rw [List.length_append]; omega), slice, slice, List.drop_drop,
      List.length_append, hlength]
    congr 2
    omega

end Patch

/-- One bit of CRC-32C. -/
def crcBit (c : ℕ) : ℕ := (c >>> 1) ^^^ (if c % 2 = 1 then 0x82f63b78 else 0)

/-- One byte of CRC-32C. -/
def crcByte (c : ℕ) (b : UInt8) : ℕ := Nat.repeat crcBit 8 (c ^^^ b.toNat)

/-- The CRC-32C checksum. -/
def crc (b : Bytes) : ℕ := b.foldl crcByte 0xffffffff ^^^ 0xffffffff

theorem crcBit_lt {c : ℕ} (h : c < 2 ^ 32) : crcBit c < 2 ^ 32 := by
  apply Nat.xor_lt_two_pow
  · rw [Nat.shiftRight_eq_div_pow]
    omega
  · split <;> decide

theorem crcByte_lt {c : ℕ} (h : c < 2 ^ 32) (b : UInt8) : crcByte c b < 2 ^ 32 := by
  have hb : b.toNat < 2 ^ 32 := lt_trans b.toNat_lt (by decide)
  have hrepeat : ∀ n x : ℕ, x < 2 ^ 32 → Nat.repeat crcBit n x < 2 ^ 32 := by
    intro n x hx
    induction n with
    | zero => exact hx
    | succ n ih => exact crcBit_lt ih
  exact hrepeat 8 _ (Nat.xor_lt_two_pow h hb)

/-- A checksum fits its field. -/
theorem crc_lt (b : Bytes) : crc b < 256 ^ 4 := by
  have hfold : ∀ c : ℕ, c < 2 ^ 32 → b.foldl crcByte c < 2 ^ 32 := by
    induction b with
    | nil => exact fun c hc => hc
    | cons x b ih => exact fun c hc => ih _ (crcByte_lt hc x)
  exact Nat.xor_lt_two_pow (n := 32) (hfold _ (by decide)) (by decide)

example : crc (ascii "123456789") = 0xe3069283 := by decide +kernel

section Pieces

/-- The parts of a string between separators. -/
def pieces (separator : UInt8) : Bytes → List Bytes
  | [] => [[]]
  | c :: rest =>
    if c = separator then [] :: pieces separator rest
    else
      match pieces separator rest with
      | [] => [[c]]
      | piece :: more => (c :: piece) :: more

variable {separator : UInt8}

theorem pieces_ne_nil (b : Bytes) : pieces separator b ≠ [] := by
  cases b with
  | nil => simp [pieces]
  | cons c rest =>
    rw [pieces]
    split
    · simp
    · split <;> simp

/-- No part contains a separator, and every byte of a part is a byte of the string. -/
theorem mem_pieces {b piece : Bytes} (h : piece ∈ pieces separator b) :
    separator ∉ piece ∧ ∀ c ∈ piece, c ∈ b := by
  induction b generalizing piece with
  | nil =>
    rw [pieces, List.mem_singleton] at h
    simp [h]
  | cons c rest ih =>
    rw [pieces] at h
    split at h
    · rcases List.mem_cons.mp h with rfl | h
      · simp
      · exact ⟨(ih h).1, fun x hx => List.mem_cons_of_mem c ((ih h).2 x hx)⟩
    · rename_i hc
      split at h
      · rename_i hnil
        exact absurd hnil (pieces_ne_nil rest)
      · rename_i first more hrest
        rw [hrest] at ih
        rcases List.mem_cons.mp h with rfl | h
        · obtain ⟨hno, hsub⟩ := ih (List.mem_cons_self ..)
          refine ⟨by simp [hno, Ne.symm hc], ?_⟩
          intro x hx
          rcases List.mem_cons.mp hx with rfl | hx
          · exact List.mem_cons_self ..
          · exact List.mem_cons_of_mem c (hsub x hx)
        · obtain ⟨hno, hsub⟩ := ih (List.mem_cons_of_mem first h)
          exact ⟨hno, fun x hx => List.mem_cons_of_mem c (hsub x hx)⟩

/-- Every other byte of the string is in a part. -/
theorem exists_mem_pieces {b : Bytes} {c : UInt8} (h : c ∈ b) (hc : c ≠ separator) :
    ∃ piece ∈ pieces separator b, c ∈ piece := by
  induction b with
  | nil => cases h
  | cons first rest ih =>
    rw [pieces]
    split
    · rename_i hfirst
      have hrest : c ∈ rest := (List.mem_cons.mp h).resolve_left fun heq => hc (heq.trans hfirst)
      obtain ⟨piece, hpiece, hmem⟩ := ih hrest
      exact ⟨piece, List.mem_cons_of_mem _ hpiece, hmem⟩
    · split
      · rename_i hnil
        exact absurd hnil (pieces_ne_nil rest)
      · rename_i piece more hpieces
        rw [hpieces] at ih
        rcases List.mem_cons.mp h with rfl | hrest
        · exact ⟨c :: piece, List.mem_cons_self, List.mem_cons_self⟩
        · obtain ⟨other, hother, hmem⟩ := ih hrest
          rcases List.mem_cons.mp hother with rfl | hother
          · exact ⟨first :: other, List.mem_cons_self, List.mem_cons_of_mem _ hmem⟩
          · exact ⟨other, List.mem_cons_of_mem _ hother, hmem⟩

end Pieces

end Bytes
