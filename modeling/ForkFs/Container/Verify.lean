import ForkFs.Container.Effects
import Mathlib.Data.Finset.Insert

/-!
# Verification of a World or revision

`fs-check` reads the whole tree of a version, then visits its directories from the root. It collects
the keys that belong to the version and the number of entries that name each inode, and checks link
counts, contents and allocation records on the way. Afterwards every key must have been collected.
The orphans of a World must be files that are open and have no inode.
-/

namespace ForkFs

open Bytes

instance InodeId.transCmp : Std.TransCmp (@compare InodeId LinearOrder.toOrd) :=
  StdMap.instTransCmp

/-- What a traversal has met. -/
structure Census where
  /-- The keys that belong to the version. -/
  expected : Finset Bytes
  /-- The number of entries that name an inode. -/
  references : StdMap InodeId ℕ
  /-- The directories. -/
  directories : Finset InodeId

namespace Census

/-- Collect a key. -/
def expect (s : Census) (key : Bytes) : Census := { s with expected := insert key s.expected }

/-- Count an entry. -/
def refer (s : Census) (id : InodeId) : Census :=
  { s with references := s.references.insert id ((s.references[id]?).getD 0 + 1) }

/-- Enter a directory. -/
def enter (s : Census) (id : InodeId) : Census := { s with directories := insert id s.directories }

end Census

namespace NamespaceView

variable (j : NamespaceView)

/-- Whether an inode has an allocation record. -/
def hasAllocation (id : InodeId) : Except String Bool := do
  let found ← j.contains (allocatedKey id)
  if found then
    let b ← j.get (allocatedKey id)
    return b = []
  else return false

/-- Visit a file or a symbolic link. -/
def visitContent (id : InodeId) (n : InodeInfo) (s : Census) : Except String Census := do
  let data ← j.get (contentKey id)
  need (data.length = n.size) "inode content size mismatch"
  if n.kind = .symlink then
    let _ ← targetComponents data
    return s.expect (contentKey id)
  else return s.expect (contentKey id)

/-- Visit an entry of a directory. The number of subdirectories is counted. -/
def visitEntry (visit : InodeId → Census → Except String Census) (id : InodeId) (s : Census × ℕ)
    (key : Bytes) : Except String (Census × ℕ) := do
  let parsed ← components (ascii "/" ++ key.drop (directoryPrefix id).length)
  need (parsed.length = 1) "invalid directory name"
  let b ← j.get key
  let child ← decodeId b
  let n ← j.inode child
  let census ← visit child ((s.1.expect key).refer child)
  return (census, if n.kind = .directory then s.2 + 1 else s.2)

/-- Visit an inode and everything below it. Each level of directories takes a unit of the first
argument. -/
def visit : ℕ → InodeId → Census → Except String Census
  | 0, _, _ => .error "directory traversal limit"
  | fuel + 1, id, s => do
    let n ← j.inode id
    let allocated ← j.hasAllocation id
    need allocated "inode missing allocation record"
    let s := s.expect (inodeKey id)
    if n.kind = .directory then
      need (id ∉ s.directories) "directory cycle or hardlink"
      let keys ← j.keys (directoryPrefix id)
      let (s, subdirs) ← keys.foldlM (j.visitEntry (visit fuel) id) (s.enter id, 0)
      need (n.links = 2 + subdirs) "directory link count mismatch"
      return s
    else j.visitContent id n s

/-- Check the number of entries that name an inode. -/
def checkReferences (id : InodeId) (count : ℕ) : Except String Unit := do
  let n ← j.inode id
  if n.kind = .directory then return ()
  else need (n.links = count) "file link count mismatch"

/-- Check an allocation record. -/
def checkAllocation (key : Bytes) : Except String Unit := do
  let b ← if validId (key.drop allocations.length) then some <$> j.get key else pure none
  need (b = some []) "invalid allocation record"

/-- Check the tree and the records of a version. -/
def verify [Digest] : Except String Unit := do
  let records ← j.references
  let root ← j.root
  let n ← j.inode root
  need (n.kind = .directory) "root inode is not a directory"
  let s ← j.visit (records.size + 1) root ⟨{namespaceRoot}, ∅, ∅⟩
  s.references.toList.forM fun r => j.checkReferences r.1 r.2
  let allocated ← j.keys allocations
  allocated.forM j.checkAllocation
  let expected := s.expected ∪ allocated.toFinset
  let actual ← j.keys namespacePrefix
  need (actual.length = expected.card) "orphan namespace records"
  actual.forM fun key => need (key ∈ expected) "unexpected namespace record"

end NamespaceView

section Orphans

variable [Digest]

/-- Check an orphan root, unless its file was checked before. -/
def Container.checkRetained (c : Container) (world : Bytes) (v : NamespaceView)
    (checked : Finset InodeId) (key : Bytes) : Except String (Finset InodeId) := do
  let relative := key.drop (orphans ++ (world ++ ascii "/")).length
  need (33 ≤ relative.length ∧ validId (relative.take 32) ∧ relative[32]? = some (47 : UInt8))
    "invalid orphan root"
  let id ← decodeId (relative.take 32)
  need (relative.drop 33 = ascii "inode" ∨ relative.drop 33 = ascii "content") "invalid orphan field"
  if id ∈ checked then return checked
  else
    need (0 < (c.table.openCounts[toLex (world, id)]?).getD 0) "orphan lacks an open handle"
    let linked ← v.contains (inodeKey id)
    need (linked = false) "orphan also appears in World tree"
    let b ← c.store.catalog.get (RootName.orphanInode world id).key
    let n ← InodeInfo.decode b true
    let data ← c.store.catalog.get (RootName.orphanContent world id).key
    need (data.length = n.size) "orphan content size mismatch"
    return insert id checked

/-- Check a World with its orphans, or a revision. -/
def Namespace.verify (ns : Namespace) (c : Container) : Except String Unit := do
  let v ← c.view ns
  v.verify
  if ns.revision then return ()
  else
    let keys := c.store.catalog.keys (orphans ++ (ns.view ++ ascii "/"))
    let _ ← keys.foldlM (c.checkRetained ns.view v) ∅
    return ()

end Orphans

end ForkFs
