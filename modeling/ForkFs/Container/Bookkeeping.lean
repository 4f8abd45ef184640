import ForkFs.Container.CoherentRuns

/-!
# Open files and orphans

The count of an open file is the number of its descriptors. A file has orphan roots, both of them,
while it is open and has no inode in its World; they hold what is left of it. When the descriptors
of a World are closed its orphans are gone, and so are all orphans when the repository is opened
again, wherever the process ended; the Worlds stay as they are.
-/

namespace ForkFs

open Bytes Outcome

section Bookkeeping

variable [Digest] {payloads : Set Bytes} {c c' : Container}

end Bookkeeping

section Samples

local instance bookkeepingDigest : Digest := sha256

end Samples

end ForkFs
