import ForkFs.Lib.Hierarchy
import ForkFs.Namespace.Path

/-!
# File systems

The records of a World as a typed value: a root, inodes with their contents, and directory entries.
A file system is consistent if its directories form a tree below the root that holds every inode,
its link counts are right, and its contents are those of its inodes.
-/

namespace ForkFs

open Bytes Hierarchy

/-- The records of a World. -/
@[ext]
structure Filesystem where
  /-- The root directory, if there is one. -/
  root : Option InodeId
  /-- The inodes. -/
  inode : InodeId → Option InodeInfo
  /-- The bytes of files and the targets of symbolic links. -/
  content : InodeId → Option Bytes
  /-- The entries of directories. -/
  entry : InodeId × Bytes → Option InodeId
  /-- The identities that were given out. -/
  allocated : InodeId → Bool

/-- A name that an entry can have. -/
def EntryName (name : Bytes) : Prop := checkComponent name = .ok () ∧ 47 ∉ name

/-- The content that an inode can have. -/
def InodeInfo.Holds (n : InodeInfo) (content : Option Bytes) : Prop :=
  match n.kind with
  | .directory => content = none
  | .file => ∃ b, content = some b ∧ b.length = n.size ∧ n.size ≤ 256 * 1024
  | .symlink => ∃ b names, content = some b ∧ b.length = n.size ∧ targetComponents b = .ok names

/-- It depends on the kind and the size. -/
theorem InodeInfo.Holds.congr {n n' : InodeInfo} {content : Option Bytes} (h : n.Holds content)
    (hkind : n'.kind = n.kind) (hsize : n'.size = n.size) : n'.Holds content := by
  rw [InodeInfo.Holds, hkind, hsize]
  exact h

namespace Filesystem

variable {fs : Filesystem}

section Edits

/-- A file system after an assignment. Orphans are kept elsewhere. -/
def apply (fs : Filesystem) : Edit → Filesystem
  | .root id => { fs with root := some id }
  | .inode id n => { fs with inode := Function.update fs.inode id n }
  | .content id data => { fs with content := Function.update fs.content id data }
  | .entry directory name child =>
    { fs with entry := Function.update fs.entry (directory, name) child }
  | .allocated id => { fs with allocated := Function.update fs.allocated id true }
  | .orphanInode _ _ _ => fs
  | .orphanContent _ _ _ => fs

/-- A file system after a list of assignments. -/
def applyAll (fs : Filesystem) (edits : List Edit) : Filesystem := edits.foldl apply fs

@[simp] theorem applyAll_nil (fs : Filesystem) : fs.applyAll [] = fs := rfl

@[simp] theorem applyAll_cons (fs : Filesystem) (e : Edit) (edits : List Edit) :
    fs.applyAll (e :: edits) = (fs.apply e).applyAll edits := rfl

theorem applyAll_append (fs : Filesystem) (edits edits' : List Edit) :
    fs.applyAll (edits ++ edits') = (fs.applyAll edits).applyAll edits' :=
  List.foldl_append

/-- The bytes of a record. -/
def record (fs : Filesystem) : Field → Option Bytes
  | .root => fs.root.map Subtype.val
  | .inode id => (fs.inode id).map InodeInfo.encode
  | .allocated id => if fs.allocated id then some [] else none
  | .content id => fs.content id
  | .entry directory name => (fs.entry (directory, name)).map Subtype.val

/-- An assignment sets its record. -/
theorem record_apply_self {e : Edit} {f : Field} (h : e.name = .record f) :
    (fs.apply e).record f = e.value := by
  cases e with
  | orphanInode | orphanContent => cases h
  | _ =>
    cases h
    simp [apply, record, Edit.value]

/-- It leaves the others as they are. -/
theorem record_apply_of_ne {e : Edit} {f : Field} (h : e.name ≠ .record f) :
    (fs.apply e).record f = fs.record f := by
  cases e with
  | orphanInode | orphanContent => rfl
  | root id =>
    cases f with
    | root => exact absurd rfl h
    | _ => rfl
  | inode id n =>
    cases f with
    | inode id' =>
      have hne : id' ≠ id := fun heq => h (heq ▸ rfl)
      simp only [apply, record, Function.update_of_ne hne]
    | _ => rfl
  | content id data =>
    cases f with
    | content id' =>
      have hne : id' ≠ id := fun heq => h (heq ▸ rfl)
      simp only [apply, record, Function.update_of_ne hne]
    | _ => rfl
  | entry directory name child =>
    cases f with
    | entry directory' name' =>
      have hne : (directory', name') ≠ (directory, name) := by
        rintro ⟨⟩
        exact h rfl
      simp only [apply, record, Function.update_of_ne hne]
    | _ => rfl
  | allocated id =>
    cases f with
    | allocated id' =>
      have hne : id' ≠ id := fun heq => h (heq ▸ rfl)
      simp only [apply, record, Function.update_of_ne hne]
    | _ => rfl

end Edits

end Filesystem

section Orphans

/-- The files of a World without entries that are still open. -/
@[ext]
structure Orphans where
  /-- Their inodes. -/
  inode : InodeId → Option InodeInfo
  /-- Their bytes. -/
  content : InodeId → Option Bytes

namespace Orphans

/-- There are none. -/
def empty : Orphans := ⟨fun _ => none, fun _ => none⟩

/-- The orphans of a World after an assignment. -/
def apply (world : Bytes) (o : Orphans) : Edit → Orphans
  | .orphanInode view id n =>
    if view = world then { o with inode := Function.update o.inode id (some n) } else o
  | .orphanContent view id data =>
    if view = world then { o with content := Function.update o.content id (some data) } else o
  | _ => o

/-- The orphans of a World after a list of assignments. -/
def applyAll (world : Bytes) (o : Orphans) (edits : List Edit) : Orphans :=
  edits.foldl (apply world) o

theorem applyAll_append (world : Bytes) (o : Orphans) (edits edits' : List Edit) :
    o.applyAll world (edits ++ edits') = (o.applyAll world edits).applyAll world edits' :=
  List.foldl_append

end Orphans

end Orphans

namespace Filesystem

variable {fs : Filesystem}

section Consistency

/-- An inode that is a directory. -/
def IsDirectory (fs : Filesystem) (id : InodeId) : Prop :=
  ∃ n, fs.inode id = some n ∧ n.kind = .directory

/-- A way down from the root. -/
def Chain (fs : Filesystem) (id : InodeId) (above : List InodeId) : Prop :=
  ∃ r, fs.root = some r ∧ Hierarchy.Chain r fs.entry id above

/-- The entries that name an inode. -/
def namings (fs : Filesystem) (id : InodeId) : Set (InodeId × Bytes) := { p | fs.entry p = some id }

/-- The entries of a directory that name directories. -/
def subdirectories (fs : Filesystem) (id : InodeId) : Set (InodeId × Bytes) :=
  { p | p.1 = id ∧ ∃ c, fs.entry p = some c ∧ fs.IsDirectory c }

/-- The right link count of an inode. -/
noncomputable def linkCount (fs : Filesystem) (id : InodeId) (kind : Kind) : ℕ :=
  if kind = .directory then 2 + (fs.subdirectories id).ncard else (fs.namings id).ncard

/-- An identity with an inode. -/
def Present (fs : Filesystem) (id : InodeId) : Prop := ∃ n, fs.inode id = some n

/-- What holds of the record of every inode. -/
structure Sound (fs : Filesystem) (id : InodeId) (n : InodeInfo) : Prop where
  /-- It fits its fields. -/
  valid : n.Valid false
  /-- The identity was given out. -/
  allocated : fs.allocated id = true
  /-- The content is that of the inode. -/
  content : n.Holds (fs.content id)
  /-- The link count is right. -/
  links : n.links = fs.linkCount id n.kind

/-- What holds of the records of every World. -/
structure Consistent (fs : Filesystem) : Prop where
  /-- The directories form a tree below the root, in which all inodes are. -/
  tree : Tree fs.root fs.entry fs.Present fs.IsDirectory
  /-- The names of entries are valid. -/
  name : ∀ p c, fs.entry p = some c → EntryName p.2
  /-- Inodes are sound. -/
  inode : ∀ id n, fs.inode id = some n → fs.Sound id n
  /-- There is no content of other inodes. -/
  owned : ∀ id, fs.inode id = none → fs.content id = none

namespace Consistent

variable {r x d c : InodeId} {above above' : List InodeId}

/-- Everything above an inode is a directory. -/
theorem isDirectory_of_mem (h : fs.Consistent) (hx : fs.Chain x above) (hd : d ∈ above) :
    fs.IsDirectory d := by
  obtain ⟨r, hr, hx⟩ := hx
  exact h.tree.inner_of_mem hx hd

/-- The way down to a directory is unique. -/
theorem chain_unique (h : fs.Consistent) (hx : fs.IsDirectory x) (hchain : fs.Chain x above)
    (hchain' : fs.Chain x above') : above = above' := by
  obtain ⟨r, hr, hchain⟩ := hchain
  obtain ⟨r', hr', hchain'⟩ := hchain'
  obtain rfl : r = r' := Option.some.inj (hr.symm.trans hr')
  exact h.tree.unique hr hx hchain hchain'

theorem chain_nodup (h : fs.Consistent) (hchain : fs.Chain x above) : (x :: above).Nodup := by
  obtain ⟨r, hr, hchain⟩ := hchain
  exact h.tree.nodup hr hchain

theorem exists_inode (h : fs.Consistent) {p : InodeId × Bytes} (hentry : fs.entry p = some c) :
    ∃ n, fs.inode c = some n :=
  h.tree.target p c hentry

theorem exists_chain (h : fs.Consistent) (hx : fs.Present x) : ∃ above, fs.Chain x above := by
  obtain ⟨r, above, hr, hchain⟩ := h.tree.reachable x hx
  exact ⟨above, r, hr, hchain⟩

end Consistent

end Consistency

end Filesystem

end ForkFs
