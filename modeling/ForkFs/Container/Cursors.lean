import ForkFs.Container.FileIo

/-!
# File positions

Descriptors that are duplicates of each other share a file position. Seeks set it to what they return,
reads and writes at the position move it by what was transferred, and nothing else moves it. It always
is a nonnegative signed 64-bit number, so that none of the arithmetic on it overflows.
-/

namespace ForkFs

open Bytes Outcome

section Arithmetic

end Arithmetic

section Exact

variable [Digest] {c c' : Container} {ns : Namespace} {env : Env} {token : Bytes}

end Exact

namespace HandleTable

variable {t : HandleTable} {token : Bytes} {h h' : OpenHandle}

/-- All file positions are nonnegative signed 64-bit numbers. -/
def PositionsFit (t : HandleTable) : Prop :=
  ∀ (a : ℕ) (cursor : Cursor), t.cursors[a]? = some cursor → cursor.position ≤ 2 ^ 63 - 1

theorem PositionsFit.cursorOf (ht : t.PositionsFit) (h : OpenHandle) :
    (t.cursorOf h).position ≤ 2 ^ 63 - 1 := by
  unfold HandleTable.cursorOf
  cases hcursor : t.cursors[h.cursor]? with
  | none => exact Nat.zero_le _
  | some cursor => exact ht _ _ hcursor

theorem PositionsFit.setCursor (ht : t.PositionsFit) {cursor : Cursor}
    (hcursor : cursor.position ≤ 2 ^ 63 - 1) : (t.setCursor h cursor).PositionsFit := by
  intro a cursor' ha
  change (t.cursors.insert h.cursor cursor)[a]? = _ at ha
  rw [StdMap.getElem?_insert] at ha
  split at ha
  · cases ha
    exact hcursor
  · exact ht a cursor' ha

theorem PositionsFit.congr {t' : HandleTable} (ht : t.PositionsFit) (hcursors : t'.cursors = t.cursors) :
    t'.PositionsFit := by
  intro a cursor ha
  rw [hcursors] at ha
  exact ht a cursor ha

theorem PositionsFit.erase (ht : t.PositionsFit) (token : Bytes) : (t.erase token).PositionsFit := by
  intro a cursor ha
  unfold HandleTable.erase at ha
  split at ha
  · exact ht a cursor ha
  · simp only at ha
    split at ha
    · rw [StdMap.getElem?_erase] at ha
      split at ha
      · cases ha
      · exact ht a cursor ha
    · exact ht a cursor ha

end HandleTable

section Positions

variable [Digest] {c c' : Container} {ns : Namespace} {env : Env} {op : NamespaceCall}
  {token : Bytes} {h : OpenHandle}

/-- The bytes that a descriptor of a World or revision reads. -/
structure Container.OpenBytes (c : Container) (h : OpenHandle) (v : NamespaceView) (n : InodeInfo)
    (data : Bytes) : Prop where
  view : c.view ⟨h.view, h.revision⟩ = .ok v
  inode : ∃ linked, v.openInode h.view h.inode = .ok (linked, n)
  size : n.size = data.length
  limit : data.length ≤ 256 * 1024
  read : ∀ offset count,
    v.readHandle h.view h.revision h offset count = .ok (slice data offset count)

end Positions

section Runs

variable [Digest] {c c' : Container} {ns : Namespace} {env : Env} {op : NamespaceCall}
  {token : Bytes} {h : OpenHandle} {event : ContainerEvent} {events : List ContainerEvent}

end Runs

end ForkFs
