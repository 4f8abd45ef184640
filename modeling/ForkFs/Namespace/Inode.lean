import ForkFs.Namespace.Records

/-!
# Inodes and edits

An inode record holds the type, mode, link count, size and times of a file. Operations on the
namespace collect edits: assignments of records by key, where the last one to a key counts.
Records of files that are open but have no entry left are kept outside of the World.
-/

namespace ForkFs

open Bytes

/-- The type of an inode. -/
inductive Kind
  | file
  | directory
  | symlink
deriving DecidableEq

/-- The type code in the record. -/
def Kind.code : Kind → ℕ
  | .file => 1
  | .directory => 2
  | .symlink => 3

/-- The attributes of an inode. -/
structure InodeInfo where
  /-- File, directory or symbolic link. -/
  kind : Kind
  /-- Permission bits. -/
  mode : ℕ
  /-- The number of entries that name the inode, and for directories two more than that of
  subdirectories. -/
  links : ℕ
  /-- The number of content bytes. -/
  size : ℕ
  /-- The time of the last modification. -/
  modifiedNs : UInt64
  /-- The time of the last change. -/
  changedNs : UInt64
deriving DecidableEq

namespace InodeInfo

/-- The format tag of an inode. -/
def magic : Bytes := ascii "FFINOD01"

/-- The fields of a record. -/
def fields (n : InodeInfo) : List Bytes :=
  [magic, store n.kind.code 4, store n.mode 4, store n.links 8, store n.size 8,
    store n.modifiedNs.toNat 8, store n.changedNs.toNat 8]

/-- Write an inode. -/
def encode (n : InodeInfo) : Bytes := n.fields.flatten

/-- What is required of an inode with entries, or of one without. -/
def State (orphan : Bool) (n : InodeInfo) : Prop :=
  (if orphan then n.kind = .file ∧ n.links = 0 else 0 < n.links) ∧
    (n.kind = .directory → 2 ≤ n.links ∧ n.size = 0)

instance (orphan : Bool) (n : InodeInfo) : Decidable (State orphan n) :=
  inferInstanceAs (Decidable (_ ∧ _))

/-- Read an inode. -/
def decode (b : Bytes) (orphan : Bool) : Except String InodeInfo := do
  need (b.length = 48 ∧ slice b 0 8 = magic) "invalid inode record"
  let type := load (slice b 8 4)
  let mode := load (slice b 12 4)
  need ((type = 1 ∨ type = 2 ∨ type = 3) ∧ mode ≤ 0o777) "unsupported inode attributes"
  let n : InodeInfo :=
    ⟨if type = 2 then .directory else if type = 3 then .symlink else .file, mode,
      load (slice b 16 8), load (slice b 24 8), UInt64.ofNat (load (slice b 32 8)),
      UInt64.ofNat (load (slice b 40 8))⟩
  need (n.State orphan) "invalid inode state"
  return n

/-- The values that fit their fields. -/
structure Valid (orphan : Bool) (n : InodeInfo) : Prop where
  /-- Only permission bits. -/
  mode : n.mode ≤ 0o777
  /-- The link count fits. -/
  links : n.links < 2 ^ 64
  /-- The size fits. -/
  size : n.size < 2 ^ 64
  /-- The links agree with the type. -/
  state : n.State orphan

/-- A stored inode reads back. -/
theorem decode_encode {orphan : Bool} {n : InodeInfo} (h : n.Valid orphan) :
    decode n.encode orphan = .ok n := by
  have hfield : ∀ (i : ℕ) {start size : ℕ} {f : Bytes}, n.fields[i]? = some f →
      ((n.fields.take i).map List.length).sum = start → f.length = size →
      slice n.encode start size = f := fun _ => slice_flatten
  have hmagic : slice n.encode 0 8 = magic := hfield 0 rfl rfl rfl
  have htype : slice n.encode 8 4 = store n.kind.code 4 := hfield 1 rfl rfl rfl
  have hmode : slice n.encode 12 4 = store n.mode 4 := hfield 2 rfl rfl rfl
  have hlinks : slice n.encode 16 8 = store n.links 8 := hfield 3 rfl rfl rfl
  have hsize : slice n.encode 24 8 = store n.size 8 := hfield 4 rfl rfl rfl
  have hmodified : slice n.encode 32 8 = store n.modifiedNs.toNat 8 := hfield 5 rfl rfl rfl
  have hchanged : slice n.encode 40 8 = store n.changedNs.toNat 8 := hfield 6 rfl rfl rfl
  have hlength : n.encode.length = 48 := rfl
  have hcode : Bytes.load (store n.kind.code 4) = n.kind.code :=
    load_store_of_lt (by cases n.kind <;> decide)
  have hmode' : Bytes.load (store n.mode 4) = n.mode :=
    load_store_of_lt (lt_of_le_of_lt h.mode (by decide))
  have hlinks' : Bytes.load (store n.links 8) = n.links := load_store_of_lt (by simpa using h.links)
  have hsize' : Bytes.load (store n.size 8) = n.size := load_store_of_lt (by simpa using h.size)
  have htime : ∀ t : UInt64, UInt64.ofNat (Bytes.load (store t.toNat 8)) = t := by
    intro t
    rw [load_store_of_lt (by simpa using t.toNat_lt), UInt64.ofNat_toNat]
  have hkind : (if n.kind.code = 2 then Kind.directory
      else if n.kind.code = 3 then Kind.symlink else Kind.file) = n.kind := by
    cases n.kind <;> rfl
  rw [decode, hmagic, htype, hmode, hlinks, hsize, hmodified, hchanged, hlength, hcode, hmode',
    hlinks', hsize', htime, htime]
  simp only [hkind, need_bind_eq_ok, Outcome.pure_eq_ok]
  refine ⟨⟨trivial, trivial⟩, ⟨?_, h.mode⟩, h.state, trivial⟩
  cases n.kind <;> decide

end InodeInfo

/-- An assignment of one record. -/
inductive Edit
  /-- Name the root directory. -/
  | root (id : InodeId)
  /-- Write or delete an inode. -/
  | inode (id : InodeId) (n : Option InodeInfo)
  /-- Write or delete content. -/
  | content (id : InodeId) (data : Option Bytes)
  /-- Write or delete an entry. -/
  | entry (directory : InodeId) (name : Bytes) (child : Option InodeId)
  /-- Mark an identity as given out. -/
  | allocated (id : InodeId)
  /-- Write the inode of an open file without entries. -/
  | orphanInode (view : Bytes) (id : InodeId) (n : InodeInfo)
  /-- Write the content of an open file without entries. -/
  | orphanContent (view : Bytes) (id : InodeId) (data : Bytes)

namespace Edit

/-- The record that is assigned. -/
def name : Edit → RootName
  | .root _ => .record .root
  | .inode id _ => .record (.inode id)
  | .content id _ => .record (.content id)
  | .entry directory name _ => .record (.entry directory name)
  | .allocated id => .record (.allocated id)
  | .orphanInode view id _ => .orphanInode view id
  | .orphanContent view id _ => .orphanContent view id

/-- The bytes that are assigned, or none to delete. -/
def value : Edit → Option Bytes
  | .root id => some id.val
  | .inode _ n => n.map InodeInfo.encode
  | .content _ data => data
  | .entry _ _ child => child.map Subtype.val
  | .allocated _ => some []
  | .orphanInode _ _ n => some n.encode
  | .orphanContent _ _ data => some data

/-- The map of changes that a list of assignments builds. -/
def changes (edits : List Edit) : StdMap Bytes (Option Bytes) :=
  StdMap.insertAll ∅ (edits.map fun e => (e.name.key, e.value))

end Edit

end ForkFs
