import ForkFs.Container.Verified

/-!
# The path of an inode

A mount that knows an inode by its identity asks for a path to it. The tree is searched depth first
from the root. A directory whose path exceeds the limit of the mount protocol is searched too, since
what is below it may have a short path elsewhere, but the path is not kept.
-/

namespace ForkFs

open Bytes Outcome Hierarchy

section Model

/-- An inode to search, with its path. -/
structure PendingPath where
  /-- The inode. -/
  inode : InodeId
  /-- Its path, unless that is too long. -/
  path : Bytes
  /-- Whether the path is too long. -/
  tooLong : Bool

namespace NamespaceView

variable (j : NamespaceView)

end NamespaceView

end Model

section Texts

variable {names : List Bytes} {name : Bytes}

/-- The text of a path. -/
def pathText (names : List Bytes) : Bytes :=
  if names = [] then ascii "/" else names.flatMap (ascii "/" ++ ·)

/-- The text of the path along a way. -/
def wayText (way : List (InodeId × Bytes)) : Bytes := pathText (way.map Prod.snd).reverse

end Texts

section Search

variable {v : NamespaceView} {fs : Filesystem} {names : InodeId → List Bytes} {r x d c : InodeId}
  {name : Bytes} {way : List (InodeId × Bytes)}

/-- The pending inode at the end of a way. -/
def PendingPath.at (item : InodeId × List (InodeId × Bytes)) : PendingPath :=
  if 4096 < (wayText item.2).length then ⟨item.1, [], true⟩ else ⟨item.1, wayText item.2, false⟩

namespace NamespaceView.Traversable

end NamespaceView.Traversable

namespace NamespaceView.Traversable

end NamespaceView.Traversable

end Search

end ForkFs
