import ForkFs.Container.Streams
import ForkFs.Rpc.Client
import Mathlib.Data.Nat.Digits.Defs

/-!
# Replies with directory pages

The server turns a page of a directory into a text of quoted names, with the attributes of the
inodes if they were asked for. Names, numbers and pages are bounded, so that the text always fits
the frame of a reply: a cursor is never advanced past a page that cannot be sent.
-/

namespace ForkFs.Rpc

open Bytes Outcome

section Texts

end Texts

section Lengths

end Lengths

section Pages

variable {fs : Filesystem} {d : InodeId} {entries : List DirectoryEntry}

end Pages

section Runs

variable [Digest] {c : Container}

end Runs

section Samples

local instance repliesDigest : Digest := sha256

end Samples

end ForkFs.Rpc
