import ForkFs.Lib.StdMap
import ForkFs.MetadataTree.Node

/-!
# Namespace records

A World is a map from keys to small records: the root, one inode per file, its content, its
allocation record and one entry per directory name. The roots of a repository hold the flat
form of the first World and, below the history keyspace, the heads, revisions, retained orphans
and the registries of objects and of allocated inodes.

`RootName` lists every key the filesystem uses. Distinct names have distinct keys.
-/

namespace ForkFs

open Bytes

section Identities

/-- The test of an inode identity: 32 lowercase hexadecimal digits. -/
def validId (id : Bytes) : Prop :=
  id.length = 32 ∧ ∀ c ∈ id, (48 ≤ c ∧ c ≤ 57) ∨ (97 ≤ c ∧ c ≤ 102)

instance (id : Bytes) : Decidable (validId id) := inferInstanceAs (Decidable (_ ∧ _))

/-- An inode identity. -/
abbrev InodeId := { id : Bytes // validId id }

/-- Read an inode reference. -/
def decodeId (b : Bytes) : Except String InodeId :=
  if h : validId b then .ok ⟨b, h⟩ else .error "invalid inode reference"

@[simp] theorem decodeId_val (id : InodeId) : decodeId id.val = .ok id :=
  dif_pos id.property

/-- A hexadecimal digit. -/
def hexDigit (n : ℕ) : UInt8 := UInt8.ofNat (if n < 10 then 48 + n else 87 + n)

/-- The hexadecimal form of an object identity. -/
def hexId (id : Hash) : Bytes :=
  id.val.flatMap fun c => [hexDigit (c.toNat / 16), hexDigit (c.toNat % 16)]

theorem hexDigit_inj {m n : ℕ} (hm : m < 16) (hn : n < 16) (h : hexDigit m = hexDigit n) :
    m = n := by
  have hval := congrArg UInt8.toNat h
  simp only [hexDigit, UInt8.toNat_ofNat'] at hval
  split at hval <;> split at hval <;> omega

theorem hexId_injective : Function.Injective hexId := by
  rintro ⟨a, ha⟩ ⟨b, hb⟩ h
  have hlength : a.length = b.length := ha.trans hb.symm
  simp only [Subtype.mk.injEq]
  simp only [hexId] at h
  clear ha hb
  induction a generalizing b with
  | nil => exact (List.length_eq_zero_iff.mp hlength.symm).symm
  | cons x a ih =>
    cases b with
    | nil => simp at hlength
    | cons y b =>
      simp only [List.flatMap_cons, List.cons_append, List.nil_append, List.cons.injEq] at h
      have hx := x.toNat_lt
      have hy := y.toNat_lt
      have hhigh := hexDigit_inj (by omega) (by omega) h.1
      have hlow := hexDigit_inj (by omega) (by omega) h.2.1
      have hxy : x = y := UInt8.toNat_inj.mp (by omega)
      rw [hxy, ih b h.2.2 (by simpa using hlength)]

end Identities

section Keys

/-- The keyspace of repository history. -/
def history : Bytes := ascii "\x00forkfs-history/"

/-- The key of an inode record. -/
def inodeKey (id : InodeId) : Bytes := namespacePrefix ++ (ascii "inode/" ++ id.val)

/-- The key of an allocation record. -/
def allocatedKey (id : InodeId) : Bytes := namespacePrefix ++ (ascii "allocated/" ++ id.val)

/-- The key of a file's content. -/
def contentKey (id : InodeId) : Bytes := namespacePrefix ++ (ascii "content/" ++ id.val)

/-- What the entry keys of a directory start with. -/
def directoryPrefix (id : InodeId) : Bytes :=
  namespacePrefix ++ (ascii "entry/" ++ (id.val ++ ascii "/"))

/-- The key of a directory entry. -/
def entryKey (id : InodeId) (name : Bytes) : Bytes := directoryPrefix id ++ name

/-- The records of a World. -/
inductive Field
  /-- The identity of the root directory. -/
  | root
  /-- An inode. -/
  | inode (id : InodeId)
  /-- The mark of an identity that was given out. -/
  | allocated (id : InodeId)
  /-- The bytes of a file or the target of a symbolic link. -/
  | content (id : InodeId)
  /-- The inode of a name in a directory. -/
  | entry (directory : InodeId) (name : Bytes)
deriving DecidableEq

/-- The key of a record. -/
def Field.key : Field → Bytes
  | .root => namespaceRoot
  | .inode id => inodeKey id
  | .allocated id => allocatedKey id
  | .content id => contentKey id
  | .entry directory name => entryKey directory name

/-- The roots that the filesystem uses. -/
inductive RootName
  /-- A record of the flat World. -/
  | record (field : Field)
  /-- The registry entry of an object. -/
  | object (id : Hash)
  /-- The registry entry of an inode identity. -/
  | allocated (id : InodeId)
  /-- The head of a World. -/
  | world (name : Bytes)
  /-- A revision. -/
  | revision (name : Bytes)
  /-- The revision that a World last was or came from. -/
  | base (name : Bytes)
  /-- The inode of an open file without entries. -/
  | orphanInode (view : Bytes) (id : InodeId)
  /-- The content of an open file without entries. -/
  | orphanContent (view : Bytes) (id : InodeId)

/-- What the orphan keys of an inode start with. -/
def orphanPrefix (world : Bytes) (id : InodeId) : Bytes :=
  history ++ (ascii "orphan/" ++ (world ++ (ascii "/" ++ (id.val ++ ascii "/"))))

/-- The key of a root. -/
def RootName.key : RootName → Bytes
  | .record field => field.key
  | .object id => history ++ (ascii "object/" ++ hexId id)
  | .allocated id => history ++ (ascii "allocated/" ++ id.val)
  | .world name => history ++ (ascii "world/" ++ name)
  | .revision name => history ++ (ascii "revision/" ++ name)
  | .base name => history ++ (ascii "base/" ++ name)
  | .orphanInode view id => orphanPrefix view id ++ ascii "inode"
  | .orphanContent view id => orphanPrefix view id ++ ascii "content"

/-- The byte of a record key that tells the kinds of records apart. -/
def Field.mark : Field → ℕ
  | .root => 114
  | .inode _ => 105
  | .allocated _ => 97
  | .content _ => 99
  | .entry _ _ => 101

theorem Field.mark_eq (f : Field) : f.mark = ((f.key.drop 8).headD 0).toNat := by
  cases f <;> rfl

theorem Field.namespacePrefix_prefix (f : Field) : namespacePrefix <+: f.key := by
  cases f with
  | entry d name => exact (List.prefix_append _ _).trans (List.prefix_append _ _)
  | _ => exact List.prefix_append _ _

theorem Field.key_injective : Function.Injective Field.key := by
  intro f g h
  have hmark : f.mark = g.mark := by
    rw [f.mark_eq, g.mark_eq, h]
  cases f with
  | root => cases g <;> first | rfl | cases hmark
  | inode id =>
    cases g <;> try cases hmark
    rw [Subtype.ext (List.append_cancel_left (List.append_cancel_left h))]
  | allocated id =>
    cases g <;> try cases hmark
    rw [Subtype.ext (List.append_cancel_left (List.append_cancel_left h))]
  | content id =>
    cases g <;> try cases hmark
    rw [Subtype.ext (List.append_cancel_left (List.append_cancel_left h))]
  | entry d name =>
    cases g <;> try cases hmark
    rename_i d' name'
    have hlength : (directoryPrefix d).length = (directoryPrefix d').length := by
      simp only [directoryPrefix, List.length_append, d.property.1, d'.property.1]
    obtain ⟨hdirectory, rfl⟩ := List.append_inj h hlength
    have hid := List.append_cancel_left (List.append_cancel_left hdirectory)
    rw [Subtype.ext (List.append_cancel_right hid)]

/-- The byte of a root key that tells the kinds of roots apart, zero for records. -/
def RootName.mark : RootName → ℕ
  | .record _ => 0
  | .object _ => 98
  | .allocated _ => 108
  | .world _ => 111
  | .revision _ => 101
  | .base _ => 97
  | .orphanInode _ _ => 114
  | .orphanContent _ _ => 114

theorem RootName.mark_eq (n : RootName) :
    n.mark = if (n.key.drop 7).headD 0 = 47 then 0 else ((n.key.drop 17).headD 0).toNat := by
  cases n with
  | record f => cases f <;> rfl
  | _ => rfl

/-- Orphan keys are read from their end, since World names have no fixed length. -/
theorem orphanPrefix_inj {v w x : Bytes} {i k : InodeId}
    (h : orphanPrefix v i ++ x = orphanPrefix w k ++ x) : v = w ∧ i = k := by
  have hrest := List.append_cancel_left (List.append_cancel_left (List.append_cancel_right h))
  have hid : (ascii "/" ++ (i.val ++ ascii "/")).length =
      (ascii "/" ++ (k.val ++ ascii "/")).length := by
    simp only [List.length_append, i.property.1, k.property.1]
  obtain ⟨hview, htail⟩ := List.append_inj' hrest hid
  exact ⟨hview, Subtype.ext (List.append_cancel_right (List.append_cancel_left htail))⟩

theorem orphanInode_ne_orphanContent (v w : Bytes) (i k : InodeId) :
    (RootName.orphanInode v i).key ≠ (RootName.orphanContent w k).key := by
  intro h
  have hlast := congrArg List.getLast? h
  simp only [RootName.key] at hlast
  rw [List.getLast?_append_of_ne_nil _ (by decide),
    List.getLast?_append_of_ne_nil _ (by decide)] at hlast
  exact absurd hlast (by decide)

theorem RootName.key_injective : Function.Injective RootName.key := by
  intro m n h
  have hmark : m.mark = n.mark := by
    rw [m.mark_eq, n.mark_eq, h]
  cases m with
  | record f =>
    cases n <;> try cases hmark
    rw [Field.key_injective h]
  | object id =>
    cases n <;> try cases hmark
    rw [hexId_injective (List.append_cancel_left (List.append_cancel_left h))]
  | allocated id =>
    cases n <;> try cases hmark
    rw [Subtype.ext (List.append_cancel_left (List.append_cancel_left h))]
  | world name =>
    cases n <;> try cases hmark
    rw [List.append_cancel_left (List.append_cancel_left h)]
  | revision name =>
    cases n <;> try cases hmark
    rw [List.append_cancel_left (List.append_cancel_left h)]
  | base name =>
    cases n <;> try cases hmark
    rw [List.append_cancel_left (List.append_cancel_left h)]
  | orphanInode view id =>
    cases n <;> try cases hmark
    · obtain ⟨rfl, rfl⟩ := orphanPrefix_inj h
      rfl
    · exact absurd h (orphanInode_ne_orphanContent _ _ _ _)
  | orphanContent view id =>
    cases n <;> try cases hmark
    · exact absurd h.symm (orphanInode_ne_orphanContent _ _ _ _)
    · obtain ⟨rfl, rfl⟩ := orphanPrefix_inj h
      rfl

@[simp] theorem RootName.key_inj {m n : RootName} : m.key = n.key ↔ m = n :=
  RootName.key_injective.eq_iff

@[simp] theorem Field.key_inj {f g : Field} : f.key = g.key ↔ f = g :=
  Field.key_injective.eq_iff

end Keys

end ForkFs
