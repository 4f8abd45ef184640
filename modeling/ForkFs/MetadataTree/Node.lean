import ForkFs.Basic

/-!
# Encoded metadata tree nodes

A node is one immutable object: magic, key length, value identity, two child identities and
the key. Decoding checks the framing and the key, so an accepted payload is the encoding of
the node it decodes to.
-/

namespace ForkFs

open Bytes

/-- The keyspace of the filesystem. -/
def namespacePrefix : Bytes := ascii "\x00forkfs/"

/-- The key that names the root inode. -/
def namespaceRoot : Bytes := namespacePrefix ++ ascii "root"

/-- Keys that a metadata tree may hold. -/
def validKey (key : Bytes) : Prop :=
  8 ≤ key.length ∧ key.length ≤ 1024 ∧ namespacePrefix <+: key

instance (key : Bytes) : Decidable (validKey key) :=
  inferInstanceAs (Decidable (_ ∧ _ ∧ _))

/-- A tree node with its children by identity. -/
structure Node where
  /-- The key of the entry. -/
  key : Bytes
  /-- The identity of the value object. -/
  value : Hash
  /-- The subtree of smaller keys. -/
  left : Hash
  /-- The subtree of larger keys. -/
  right : Hash
deriving DecidableEq

namespace Node

/-- The format tag of a node. -/
def magic : Bytes := ascii "FFTRNO01"

@[simp] theorem length_magic : magic.length = 8 := rfl

/-- The payload of a node, as `make` lays it out. -/
def encode (n : Node) : Bytes :=
  magic ++ (store n.key.length 4 ++ (n.value.val ++ (n.left.val ++ (n.right.val ++ n.key))))

/-- Read a node payload, as `node` does. -/
def decode (b : Bytes) : Except String Node := do
  need (108 ≤ b.length ∧ slice b 0 8 = magic) "invalid metadata tree node"
  let n := load (slice b 8 4)
  need (8 ≤ n ∧ n ≤ 1024 ∧ b.length = 108 + n) "invalid metadata node length"
  let key := b.drop 108
  need (validKey key) "invalid metadata node key"
  let value := Hash.ofBytes (slice b 12 32)
  need (value ≠ Hash.zero) "zero metadata value reference"
  return ⟨key, value, Hash.ofBytes (slice b 44 32), Hash.ofBytes (slice b 76 32)⟩

/-- What `make` requires of a node before it is stored. -/
def Valid (n : Node) : Prop := validKey n.key ∧ n.value ≠ Hash.zero

instance (n : Node) : Decidable n.Valid := inferInstanceAs (Decidable (_ ∧ _))

@[simp] theorem length_encode (n : Node) : n.encode.length = 108 + n.key.length := by
  simp only [encode, List.length_append, length_magic, length_store, n.value.property,
    n.left.property, n.right.property]
  omega

section Fields

variable (n : Node)

theorem slice_encode_magic : slice n.encode 0 8 = magic :=
  slice_append_self length_magic

theorem slice_encode_length : slice n.encode 8 4 = store n.key.length 4 := by
  rw [encode, slice_append_right (by simp)]
  exact slice_append_self (length_store _ _)

theorem slice_encode_value : slice n.encode 12 32 = n.value.val := by
  rw [encode, slice_append_right (by simp), slice_append_right (by simp)]
  exact slice_append_self n.value.property

theorem slice_encode_left : slice n.encode 44 32 = n.left.val := by
  rw [encode, slice_append_right (by simp), slice_append_right (by simp),
    slice_append_right (by simp [n.value.property])]
  simpa [n.value.property] using slice_append_self n.left.property

theorem slice_encode_right : slice n.encode 76 32 = n.right.val := by
  rw [encode, slice_append_right (by simp), slice_append_right (by simp),
    slice_append_right (by simp [n.value.property]),
    slice_append_right (by simp [n.value.property, n.left.property])]
  simpa [n.value.property, n.left.property] using slice_append_self n.right.property

theorem drop_encode : n.encode.drop 108 = n.key := by
  simp [encode, List.drop_append, n.value.property, n.left.property, n.right.property,
    List.drop_eq_nil_of_le]

end Fields

/-- A stored node reads back. -/
theorem decode_encode {n : Node} (h : n.Valid) : decode n.encode = .ok n := by
  obtain ⟨⟨h8, h1024, hpre⟩, hvalue⟩ := h
  have hlen : load (store n.key.length 4) = n.key.length := load_store_of_lt (by omega)
  rw [decode, slice_encode_magic, slice_encode_length, slice_encode_value, slice_encode_left,
    slice_encode_right, drop_encode, hlen, length_encode, Hash.ofBytes_val, Hash.ofBytes_val,
    Hash.ofBytes_val]
  simp only [need_bind_eq_ok, Outcome.pure_eq_ok]
  exact ⟨⟨by omega, trivial⟩, ⟨h8, h1024, trivial⟩, ⟨h8, h1024, hpre⟩, hvalue, trivial⟩

/-- An accepted payload is the encoding of its node, and the node is valid. -/
theorem encode_of_decode {b : Bytes} {n : Node} (h : decode b = .ok n) :
    n.encode = b ∧ n.Valid := by
  simp only [decode, need_bind_eq_ok, Outcome.pure_eq_ok] at h
  obtain ⟨⟨h108, hmagic⟩, ⟨h8, h1024, hlen⟩, hkey, hvalue, rfl⟩ := h
  refine ⟨?_, hkey, hvalue⟩
  have hfield : ∀ {start : ℕ}, start + 32 ≤ 108 →
      (Hash.ofBytes (slice b start 32)).val = slice b start 32 := fun hs =>
    Hash.val_ofBytes (length_slice_of_le (by omega))
  have hsize : store (b.drop 108).length 4 = slice b 8 4 := by
    have hlen4 : (slice b 8 4).length = 4 := length_slice_of_le (by omega)
    have hdrop : (b.drop 108).length = load (slice b 8 4) := by
      rw [List.length_drop]
      omega
    have hstore := store_load (slice b 8 4)
    rwa [hlen4, ← hdrop] at hstore
  rw [encode, hfield (by omega), hfield (by omega), hfield (by omega), hsize, ← hmagic,
    ← List.append_assoc, slice_append_slice, ← List.append_assoc, slice_append_slice,
    ← List.append_assoc, slice_append_slice, ← List.append_assoc, slice_append_slice]
  exact List.take_append_drop 108 b

/-- Distinct valid nodes have distinct payloads. -/
theorem encode_inj {m n : Node} (hm : m.Valid) (hn : n.Valid) (h : m.encode = n.encode) :
    m = n := by
  have hdecode := decode_encode hm
  rw [h, decode_encode hn] at hdecode
  exact (Except.ok.inj hdecode).symm

end Node

end ForkFs
