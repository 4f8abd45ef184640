import ForkFs.Namespace.Operations

/-!
# Reading a World

The operations that return content, attributes, link targets and names by path.
-/

namespace ForkFs

open Bytes

namespace NamespaceView

variable (j : NamespaceView)

/-- The content of a file. -/
def read (path : Bytes) : Except String Bytes := do
  let id ← j.resolve path true
  let n ← j.inode id
  need (n.kind ≠ .directory) "cannot read a directory"
  let data ← j.get (contentKey id)
  need (data.length = n.size) "inode size mismatch"
  return data

/-- The inode that a path leads to, with its identity. -/
def stat (path : Bytes) : Except String (InodeId × InodeInfo) := do
  let id ← j.resolve path true
  let n ← j.inode id
  return (id, n)

end NamespaceView

end ForkFs
