import ForkFs.Namespace.Rename

/-!
# Renames as moves of one entry

A rename takes an entry from one name to another. Of the inodes it changes the times of the moved
one, the times and links of the two parents, and the replaced inode, which loses a link or goes
with its content.
-/

namespace ForkFs

open Bytes Outcome

namespace Filesystem

variable {fs fs' : Filesystem} {src dst : Parent} {id other : InodeId} {n sn dn on : InodeInfo}
  {now : UInt64} {above : List InodeId}

/-- One file system is another one after a move of an entry. -/
structure Moves (fs fs' : Filesystem) (src dst : Parent) (id : InodeId) : Prop where
  /-- The entry moves. -/
  entry : fs'.entry = Function.update (Function.update fs.entry (src.id, src.name) none)
    (dst.id, dst.name) (some id)
  root : fs'.root = fs.root
  allocated : fs'.allocated = fs.allocated
  /-- The inode keeps all but the time of its change. -/
  inode : ∃ n now, fs.inode id = some n ∧ fs'.inode id = some { n with changedNs := now }
  /-- The parents keep all but their links and times. -/
  parent : ∀ d, d = src.id ∨ d = dst.id → ∃ n links now, fs.inode d = some n ∧
    fs'.inode d = some ({ n with links := links }.touch now)
  /-- The replaced inode loses a link, or goes with its content. -/
  replaced : ∀ other, fs.entry (dst.id, dst.name) = some other → ∃ n now,
    fs.inode other = some n ∧ fs'.inode other = n.unlinked now ∧
      fs'.content other = (n.unlinked now).bind fun _ => fs.content other
  /-- The other inodes stay. -/
  others : ∀ x, x ≠ id → x ≠ src.id → x ≠ dst.id → fs.entry (dst.id, dst.name) ≠ some x →
    fs'.inode x = fs.inode x
  /-- The other contents stay. -/
  content : ∀ x, fs.entry (dst.id, dst.name) ≠ some x → fs'.content x = fs.content x

end Filesystem

namespace NamespaceView

variable {v : NamespaceView} {fs : Filesystem} {env : Env} {view source target : Bytes}
  {opened : InodeId → Bool}

end NamespaceView

end ForkFs
