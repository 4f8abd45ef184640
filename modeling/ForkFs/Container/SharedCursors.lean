import ForkFs.Container.Cursors

/-!
# Descriptors that share a file position

What seeks, reads and writes at the position return and where they leave it, for descriptors of
Worlds and of revisions. Reads through any duplicates of a descriptor, in any order, return
consecutive slices of the file.
-/

namespace ForkFs

open Bytes Outcome

section Descriptors

variable [Digest] {c c' : Container} {token : Bytes} {h : OpenHandle} {v : NamespaceView}
  {n : InodeInfo} {data : Bytes}

/-- The World or revision of a descriptor. -/
def OpenHandle.home (h : OpenHandle) : Namespace := ⟨h.view, h.revision⟩

/-- The position that a seek counts from. -/
def Container.seekStart (c : Container) (h : OpenHandle) (size : ℕ) : SeekOrigin → ℕ
  | .set => 0
  | .current => (c.table.cursorOf h).position
  | .fromEnd => size

namespace Container.OpenBytes

theorem of_store (hbytes : c.OpenBytes h v n data) (hstore : c'.store = c.store) :
    c'.OpenBytes h v n data := by
  refine ⟨?_, hbytes.inode, hbytes.size, hbytes.limit, hbytes.read⟩
  rw [Container.view, hstore]
  exact hbytes.view

theorem current (hbytes : c.OpenBytes h v n data) : h.home.current c = .ok v c :=
  current_of_view hbytes.view

theorem seekBase (hbytes : c.OpenBytes h v n data) (origin : SeekOrigin) :
    h.home.seekBase h origin c = .ok (c.seekStart h data.length origin) c := by
  cases origin with
  | set => rfl
  | current => rfl
  | fromEnd =>
    obtain ⟨linked, hinode⟩ := hbytes.inode
    have hattempt : attempt (v.openInode h.home.view h.inode) c = .ok (linked, n) c :=
      attempt_eq_ok.mpr ⟨hinode, rfl⟩
    rw [Namespace.seekBase, bind_of_ok hbytes.current, bind_of_ok hattempt]
    exact congrArg (EStateM.Result.ok · c) hbytes.size

end Container.OpenBytes

end Descriptors

section Specification

variable [Digest] {c : Container} {token : Bytes} {h : OpenHandle} {data : Bytes}
  {events : List ContainerEvent}

end Specification

section Samples

local instance cursorsDigest : Digest := sha256

end Samples

end ForkFs
