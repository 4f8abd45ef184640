import ForkFs.Namespace.Path

/-!
# Namespace operations

Each operation reads a view and returns the edits it wants committed, in the order of the
source's assignments, together with the identity of the inode it creates, if it creates one.
No edits means that nothing is committed. `Env` is what an operation takes from outside:
successive clock readings and random inode identities.
-/

namespace ForkFs

open Bytes

/-- Time and entropy of one operation. -/
structure Env where
  /-- Successive readings of the clock. -/
  clock : ℕ → UInt64
  /-- Identities from the entropy source, in the order they are drawn. -/
  draws : List InodeId

/-- What an operation wants committed, and its result. -/
structure Effect (α : Type) where
  /-- The assignments, in order. -/
  edits : List Edit
  /-- The identity of the new inode. -/
  created : Option InodeId
  /-- The result of the call. -/
  value : α

/-- Optional new attributes. -/
structure Attributes where
  /-- Permission bits. -/
  mode : Option ℕ
  /-- The time of the last modification. -/
  modifiedNs : Option UInt64
  /-- The number of content bytes. -/
  size : Option ℕ

/-- Set both times. -/
def InodeInfo.touch (n : InodeInfo) (now : UInt64) : InodeInfo :=
  { n with modifiedNs := now, changedNs := now }

/-- Cut a string or extend it with zeros. -/
def resize (data : Bytes) (size : ℕ) : Bytes :=
  data.take size ++ List.replicate (size - data.length) 0

/-- Write a value over a string, which grows as needed. -/
def overwrite (data : Bytes) (offset : ℕ) (value : Bytes) : Bytes :=
  patch (resize data (max data.length (offset + value.length))) offset value

/-- An edit of content: new bytes, or none if nothing changes. -/
abbrev ContentEdit := Bytes → Except String (Option Bytes)

section ContentEdits

/-- Write at an offset. -/
def writeAtEdit (offset : ℕ) (value : Bytes) : ContentEdit := fun data =>
  .ok (if value = [] then none else some (overwrite data offset value))

/-- Write at the end. -/
def appendEdit (value : Bytes) : ContentEdit := fun data => do
  need (data.length ≤ 256 * 1024 ∧ value.length ≤ 256 * 1024 - data.length)
    "prototype files are limited to 256 KiB"
  return if value = [] then none else some (data ++ value)

/-- Set the size. -/
def truncateEdit (size : ℕ) : ContentEdit := fun data =>
  .ok (if data.length = size then none else some (resize data size))

/-- Write through a handle, at the end in append mode. -/
def handleWriteEdit (offset : ℕ) (value : Bytes) (append : Bool) : ContentEdit := fun data =>
  if value = [] then .ok none
  else do
    let actual := if append then data.length else offset
    need (actual ≤ 256 * 1024 ∧ value.length ≤ 256 * 1024 - actual)
      "prototype files are limited to 256 KiB"
    return some (overwrite data actual value)

end ContentEdits

section Attributes

/-- Check new attributes. -/
def checkAttributes (a : Attributes) : Except String Unit := do
  need (∀ mode ∈ a.mode, mode ≤ 0o777) "unsupported mode bits"
  need (∀ size ∈ a.size, size ≤ 256 * 1024) "prototype files are limited to 256 KiB"
  need (∀ time ∈ a.modifiedNs, time.toNat ≤ 2 ^ 63 - 1) "mtime exceeds supported nanosecond range"

/-- Set the mode and the times. -/
def InodeInfo.apply (n : InodeInfo) (a : Attributes) (now : UInt64) : InodeInfo :=
  { n with mode := a.mode.getD n.mode, modifiedNs := a.modifiedNs.getD n.modifiedNs, changedNs := now }

/-- Whether new attributes leave an inode as it is. -/
def Attributes.idle (a : Attributes) (n : InodeInfo) : Prop :=
  a.mode = none ∧ a.modifiedNs = none ∧ (a.size = none ∨ a.size = some n.size)

instance (a : Attributes) (n : InodeInfo) : Decidable (a.idle n) :=
  inferInstanceAs (Decidable (_ ∧ _ ∧ _))

/-- The inode with new attributes and the content of a new size, which reads the old content. -/
def InodeInfo.update (n : InodeInfo) (a : Attributes) (clock : ℕ → UInt64)
    (content : Except String Bytes) : Except String (InodeInfo × Option Bytes) :=
  match a.size with
  | none => .ok (n.apply a (clock 0), none)
  | some size => do
    let data ← content
    need (data.length = n.size) "inode size mismatch"
    if n.size ≠ size then
      return (({ n with size := size }.touch (clock 0)).apply a (clock 1), some (resize data size))
    else return (n.apply a (clock 0), none)

end Attributes

namespace NamespaceView

variable [Digest] (j : NamespaceView) (env : Env)

/-- Create the root directory. -/
def fsInit : Except String (Effect Unit) := do
  let found ← j.contains namespaceRoot
  need (¬ found) "filesystem already initialized"
  let records ← j.keys namespacePrefix
  need (records = []) "orphan filesystem records prevent initialization"
  let (id, _) ← j.newId 8 env.draws
  let n : InodeInfo := ⟨.directory, 0o755, 2, 0, env.clock 0, env.clock 1⟩
  return ⟨[.root id, .inode id (some n), .allocated id], some id, ()⟩

/-- Create a directory. -/
def mkdir (path : Bytes) (mode : ℕ) : Except String (Effect Unit) := do
  let (p, _) ← j.parent path
  let found ← j.contains (entryKey p.id p.name)
  need (¬ found) "path already exists"
  let (id, _) ← j.newId 8 env.draws
  let pn ← j.inode p.id
  need (pn.links < 2 ^ 64 - 1) "directory link count exhausted"
  let n : InodeInfo := ⟨.directory, mode, 2, 0, env.clock 0, env.clock 1⟩
  return ⟨[.entry p.id p.name (some id), .inode id (some n),
    .inode p.id (some ({ pn with links := pn.links + 1 }.touch (env.clock 2))), .allocated id],
    some id, ()⟩

/-- Create a regular file or a symbolic link at a free name. -/
def createAt (p : Parent) (kind : Kind) (mode : ℕ) (data : Bytes) (modified changed : UInt64) :
    Except String (InodeId × List InodeId × List Edit) := do
  let (id, draws) ← j.newId 8 env.draws
  let pn ← j.inode p.id
  let n : InodeInfo := ⟨kind, mode, 1, data.length, modified, changed⟩
  return (id, draws, [.inode id (some n), .content id (some data), .allocated id,
    .entry p.id p.name (some id), .inode p.id (some (pn.touch (env.clock 2)))])

/-- Replace the content of a regular file, or create it. A symbolic link is followed, also to a
file that does not exist yet. -/
def write (path : Bytes) (value : Bytes) : Except String (Effect Unit) := do
  let (p, _) ← j.parent path
  let found ← j.contains (entryKey p.id p.name)
  let target ← if found then do
      let id ← j.child p.id p.name
      let n ← j.inode id
      if n.kind = .symlink then j.resolveOrMissing path else pure (.found id [])
    else pure (.missing p)
  match target with
  | .found id _ =>
    let n ← j.inode id
    need (n.kind = .file) "cannot write non-regular file"
    return ⟨[.inode id (some ({ n with size := value.length }.touch (env.clock 0))),
      .content id (some value)], none, ()⟩
  | .missing p =>
    let (id, _, edits) ← j.createAt env p .file 0o644 value (env.clock 0) (env.clock 0)
    return ⟨edits, some id, ()⟩

/-- Edit the content of a file. The result is the size before. -/
def editContent (path : Bytes) (edit : ContentEdit) : Except String (Effect ℕ) := do
  let id ← j.resolve path true
  let n ← j.inode id
  need (n.kind ≠ .directory) "cannot modify directory content"
  let data ← j.get (contentKey id)
  need (data.length = n.size) "inode size mismatch"
  match ← edit data with
  | none => return ⟨[], none, data.length⟩
  | some value =>
    need (value.length ≤ 256 * 1024) "prototype files are limited to 256 KiB"
    return ⟨[.inode id (some ({ n with size := value.length }.touch (env.clock 0))),
      .content id (some value)], none, data.length⟩

/-- Change attributes by path. -/
def setAttributes (path : Bytes) (a : Attributes) : Except String (Effect Unit) := do
  let id ← j.resolve path true
  let n ← j.inode id
  if a.idle n then return ⟨[], none, ()⟩
  else
    need (a.size = none ∨ n.kind = .file) "only regular files support size changes"
    let (n, data) ← n.update a env.clock (j.get (contentKey id))
    return ⟨(data.toList.map fun data => .content id (some data)) ++ [.inode id (some n)], none, ()⟩

/-- Create a symbolic link. -/
def symlink (target path : Bytes) : Except String (Effect Unit) := do
  let (p, _) ← j.parent path
  let found ← j.contains (entryKey p.id p.name)
  need (¬ found) "path already exists"
  let (id, _, edits) ← j.createAt env p .symlink 0o777 target (env.clock 0) (env.clock 1)
  return ⟨edits, some id, ()⟩

/-- Create a hard link. -/
def link (source target : Bytes) : Except String (Effect Unit) := do
  let id ← j.resolve source false
  let n ← j.inode id
  need (n.kind ≠ .directory) "directory hard links are forbidden"
  let (p, _) ← j.parent target
  let found ← j.contains (entryKey p.id p.name)
  need (¬ found) "target already exists"
  need (n.links < 2 ^ 64 - 1) "link count exhausted"
  let pn ← j.inode p.id
  return ⟨[.entry p.id p.name (some id),
    .inode id (some { n with links := n.links + 1, changedNs := env.clock 0 }),
    .inode p.id (some (pn.touch (env.clock 1))), .allocated id], none, ()⟩

section Unlink

variable (view : Bytes) (opened : InodeId → Bool)

/-- Delete an inode. The records of an open file are kept as an orphan. -/
def retire (id : InodeId) (n : InodeInfo) : Except String (List Edit) := do
  if n.kind = .directory then return [.inode id none]
  else if opened id then
    let data ← j.get (contentKey id)
    return [.inode id none, .content id none,
      .orphanInode view id { n with links := 0, changedNs := env.clock 3 },
      .orphanContent view id data]
  else return [.inode id none, .content id none]

/-- Take one entry away from an inode. -/
def unlink (id : InodeId) (n : InodeInfo) : Except String (List Edit) :=
  if n.kind = .directory ∨ n.links = 1 then j.retire env view opened id n
  else .ok [.inode id (some { n with links := n.links - 1, changedNs := env.clock 3 })]

/-- Save a new file under a name, which may be in use by another file. -/
def replaceFile (path value : Bytes) : Except String (Effect Unit) := do
  let (p, _) ← j.parent path
  let found ← j.contains (entryKey p.id p.name)
  let (mode, old) ← if found then do
      let id ← j.child p.id p.name
      let n ← j.inode id
      need (n.kind ≠ .directory) "cannot replace directory with a file"
      let edits ← j.unlink env view opened id n
      pure (if n.kind = .symlink then 0o644 else n.mode, edits)
    else pure (0o644, [])
  let (id, _, edits) ← j.createAt env p .file mode value (env.clock 0) (env.clock 1)
  return ⟨old ++ edits, some id, ()⟩

/-- Remove a file, or an empty directory. -/
def remove (path : Bytes) (directory : Bool) : Except String (Effect Unit) := do
  let (p, _) ← j.parent path
  let found ← j.contains (entryKey p.id p.name)
  need found "path not found"
  let id ← j.child p.id p.name
  let n ← j.inode id
  let pn ← j.inode p.id
  need (n.kind = .directory ↔ directory) "wrong removal operation for inode type"
  let entries ← if directory then j.keys (directoryPrefix id) else pure []
  need (entries = []) "directory is not empty"
  let pn := if directory then { pn with links := pn.links - 1 } else pn
  let edits ← j.unlink env view opened id n
  return ⟨.entry p.id p.name none :: edits ++ [.inode p.id (some (pn.touch (env.clock 0)))], none, ()⟩

/-- The edits of the file or directory that a rename replaces. -/
def replaced (id : InodeId) (n : InodeInfo) (kind : Kind) : Except String (List Edit) := do
  need (n.kind = .directory ↔ kind = .directory) "rename inode types differ"
  let entries ← if n.kind = .directory then j.keys (directoryPrefix id) else pure []
  need (entries = []) "target directory is not empty"
  j.unlink env view opened id n

/-- Move a file or directory, replacing a file or an empty directory. -/
def rename (source target : Bytes) : Except String (Effect Unit) := do
  let (src, _) ← j.parent source
  let found ← j.contains (entryKey src.id src.name)
  need found "source not found"
  let id ← j.child src.id src.name
  let n ← j.inode id
  let (dst, ancestry) ← j.parent target
  if src.id = dst.id ∧ src.name = dst.name then return ⟨[], none, ()⟩
  else
    need (n.kind = .directory → id ∉ ancestry) "cannot move directory into itself"
    let sn ← j.inode src.id
    let dn ← j.inode dst.id
    let taken ← j.contains (entryKey dst.id dst.name)
    let other ← if taken then do
        let other ← j.child dst.id dst.name
        pure (some other)
      else pure none
    if other = some id then return ⟨[], none, ()⟩
    else
      let (old, lost) ← match other with
        | none => pure ([], 0)
        | some other => do
          let on ← j.inode other
          let edits ← j.replaced env view opened other on n.kind
          pure (edits, if on.kind = .directory then 1 else 0)
      let moved := if n.kind = .directory ∧ src.id ≠ dst.id then 1 else 0
      need (moved = 0 ∨ dn.links - lost < 2 ^ 64 - 1) "directory link count exhausted"
      let parents : List Edit :=
        if src.id = dst.id then
          [.inode dst.id (some ({ dn with links := dn.links - lost }.touch (env.clock 0)))]
        else
          [.inode src.id (some ({ sn with links := sn.links - moved }.touch (env.clock 0))),
            .inode dst.id (some ({ dn with links := dn.links - lost + moved }.touch (env.clock 1)))]
      return ⟨old ++ [.entry src.id src.name none, .entry dst.id dst.name (some id),
        .inode id (some { n with changedNs := env.clock 2 })] ++ parents, none, ()⟩

end Unlink

end NamespaceView

end ForkFs
