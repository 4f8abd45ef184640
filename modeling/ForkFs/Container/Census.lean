import ForkFs.Container.Depiction
import ForkFs.Container.Verify
import ForkFs.Lib.Ways

/-!
# The traversal of a consistent version

On a consistent file system the traversal succeeds. It meets every inode once for each way down to
it, and collects the keys of the inodes and entries on the way.
-/

namespace ForkFs

open Bytes Outcome Hierarchy

section Notes

/-- Whether an inode is a directory. -/
def Filesystem.holdsDirectory (fs : Filesystem) (id : InodeId) : Bool :=
  (fs.inode id).any (·.kind = .directory)

namespace Census

/-- An inode is met through the last entry of a way. -/
def named (s : Census) (x : InodeId) : List (InodeId × Bytes) → Census
  | [] => s
  | p :: _ => (s.expect (entryKey p.1 p.2)).refer x

/-- An inode is met. -/
def met (s : Census) (x : InodeId) (directory : Bool) : Census :=
  if directory then (s.expect (inodeKey x)).enter x
  else (s.expect (inodeKey x)).expect (contentKey x)

/-- An inode is met at the end of a way. -/
def note (fs : Filesystem) (s : Census) (item : InodeId × List (InodeId × Bytes)) : Census :=
  (s.named item.1 item.2).met item.1 (fs.holdsDirectory item.1)

variable {fs : Filesystem} {s : Census} {item : InodeId × List (InodeId × Bytes)}
  {items : List (InodeId × List (InodeId × Bytes))} {key : Bytes} {x : InodeId}

end Census

end Notes

section Visits

variable {v : NamespaceView} {fs : Filesystem} {names : InodeId → List Bytes} {r x d c : InodeId}
  {name : Bytes} {path : List (InodeId × Bytes)} {fuel : ℕ}

namespace NamespaceView.Traversable

end NamespaceView.Traversable

end Visits

end ForkFs
