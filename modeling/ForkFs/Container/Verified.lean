import ForkFs.Container.Census

/-!
# Consistent versions pass verification

What the traversal has collected are the records of the file system, and what it has counted are the
entries that name each inode. So every check on a version of a consistent file system succeeds.
-/

namespace ForkFs

open Bytes Outcome Hierarchy

section Contents

variable {n : InodeInfo} {content : Option Bytes}

/-- Files and symbolic links have content. -/
theorem InodeInfo.Holds.isSome (h : n.Holds content) (hkind : n.kind ≠ .directory) :
    content.isSome := by
  rw [Holds] at h
  cases hk : n.kind with
  | directory => exact absurd hk hkind
  | file =>
    rw [hk] at h
    obtain ⟨b, rfl, -⟩ := h
    rfl
  | symlink =>
    rw [hk] at h
    obtain ⟨b, -, rfl, -⟩ := h
    rfl

end Contents

namespace NamespaceView.Traversable

variable {v : NamespaceView} {fs : Filesystem} {names : InodeId → List Bytes} {r x : InodeId}
  {fuel : ℕ}

end NamespaceView.Traversable

section Versions

variable [Digest] {s : LevelStore} {v : NamespaceView} {m : StdMap Bytes Hash} {fs : Filesystem}
  {r : InodeId}

/-- Identities that were given out have their record. -/
theorem Depicts.hasAllocation (h : Depicts s.objects m fs) (hshows : Shows s v m) {id : InodeId}
    (hid : fs.allocated id = true) : v.hasAllocation id = .ok true := by
  have hrecord : fs.record (.allocated id) = some [] := by rw [Filesystem.record, if_pos hid]
  have hcontains : v.contains (allocatedKey id) = .ok true := by
    unfold NamespaceView.contains
    dsimp only
    split
    · rfl
    · have hlookup : v.lookup (allocatedKey id) = .ok m[(Field.allocated id).key]? :=
        hshows.lookup _ (Field.namespacePrefix_prefix (.allocated id))
      rw [hlookup, ok_bind, h.getElem?_eq, hrecord]
      rfl
  have hget : v.get (allocatedKey id) = found (fs.record (.allocated id)) :=
    h.get hshows (.allocated id)
  rw [NamespaceView.hasAllocation, hcontains, ok_bind, if_pos rfl, hget, hrecord]
  rfl

end Versions

end ForkFs
