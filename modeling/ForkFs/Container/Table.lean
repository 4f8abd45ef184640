import ForkFs.Lib.Ranges
import ForkFs.Lib.StdMap
import ForkFs.Namespace.Records
import Mathlib.Data.Prod.Lex

/-!
# The table of open files

Descriptors name open descriptions, which hold the file position and the advisory locks and are
shared between a descriptor and its duplicates. A description lives as long as a descriptor
names it. Files of Worlds also have a count of their descriptors.
-/

namespace ForkFs

open Bytes

/-- How a range is locked. -/
inductive LockMode
  | shared
  | exclusive
deriving DecidableEq, Repr

/-- An open description. -/
structure Cursor where
  /-- The file position. -/
  position : ℕ
  /-- The locked ranges. -/
  locks : List (Span LockMode)
deriving DecidableEq

/-- A file descriptor. -/
structure OpenHandle where
  /-- The World or revision it was opened in. -/
  view : Bytes
  /-- The file. -/
  inode : InodeId
  /-- Whether `view` is a revision. -/
  revision : Bool
  /-- Whether reads are allowed. -/
  readable : Bool
  /-- Whether writes are allowed. -/
  writable : Bool
  /-- Whether writes go to the end. -/
  append : Bool
  /-- The open description. -/
  cursor : ℕ
deriving DecidableEq

/-- A file in a World. -/
abbrev OpenFile := Bytes ×ₗ InodeId

instance OpenFile.transCmp : Std.TransCmp (@compare OpenFile LinearOrder.toOrd) :=
  StdMap.instTransCmp

/-- The file of a descriptor. -/
def OpenHandle.file (h : OpenHandle) : OpenFile := toLex (h.view, h.inode)

/-- The open files of a repository. -/
structure HandleTable where
  /-- The descriptors. -/
  handles : StdMap Bytes OpenHandle
  /-- How many descriptors the files of Worlds have. -/
  openCounts : StdMap OpenFile ℕ
  /-- The open descriptions. -/
  cursors : StdMap ℕ Cursor

namespace HandleTable

variable (t : HandleTable)

/-- No open files. -/
def empty : HandleTable := ⟨∅, ∅, ∅⟩

/-- An address without an open description. -/
def freshCursor : ℕ := t.cursors.toList.foldl (fun address e => max address (e.1 + 1)) 0

/-- Add a descriptor. -/
def add (token : Bytes) (h : OpenHandle) : HandleTable :=
  { t with handles := t.handles.insert token h }

/-- Remove a descriptor. The open description goes with its last descriptor. -/
def erase (token : Bytes) : HandleTable :=
  match t.handles[token]? with
  | none => t
  | some h =>
    let handles := t.handles.erase token
    { t with
      handles := handles
      cursors := if ∀ e ∈ handles.toList, e.2.cursor ≠ h.cursor then t.cursors.erase h.cursor
        else t.cursors }

/-- Count one more descriptor of a file. -/
def count (file : OpenFile) : HandleTable :=
  { t with openCounts := t.openCounts.insert file (t.openCounts[file]?.getD 0 + 1) }

/-- Count one descriptor of a file less. -/
def uncount (file : OpenFile) : HandleTable :=
  match t.openCounts[file]? with
  | none => t
  | some count =>
    if count - 1 = 0 then { t with openCounts := t.openCounts.erase file }
    else { t with openCounts := t.openCounts.insert file (count - 1) }

/-- The open description of a descriptor. -/
def cursorOf (h : OpenHandle) : Cursor := t.cursors[h.cursor]?.getD ⟨0, []⟩

/-- Replace an open description. -/
def setCursor (h : OpenHandle) (cursor : Cursor) : HandleTable :=
  { t with cursors := t.cursors.insert h.cursor cursor }

/-- Move a file position. -/
def moveTo (h : OpenHandle) (position : ℕ) : HandleTable :=
  t.setCursor h { t.cursorOf h with position := position }

/-- Lock a range, or unlock it. -/
def relock (h : OpenHandle) (start stop : ℕ) (mode : Option LockMode) : HandleTable :=
  t.setCursor h { t.cursorOf h with locks := Span.assign start stop mode (t.cursorOf h).locks }

/-- Whether a file of a World has descriptors. -/
def isOpen (view : Bytes) (id : InodeId) : Bool :=
  match t.openCounts[(toLex (view, id) : OpenFile)]? with
  | some count => count ≠ 0
  | none => false

section Locks

/-- The end of the offset space. -/
def offsetLimit : ℕ := 2 ^ 63

/-- Whether a range of another open description excludes a request. -/
def conflicts (start stop : ℕ) (mode : LockMode) (r : Span LockMode) : Prop :=
  start < r.stop ∧ r.start < stop ∧ (mode = .exclusive ∨ r.mode = .exclusive)

instance (start stop : ℕ) (mode : LockMode) (r : Span LockMode) :
    Decidable (conflicts start stop mode r) :=
  inferInstanceAs (Decidable (_ ∧ _ ∧ _))

/-- Whether two descriptors compete for locks: the same file through different open
descriptions. -/
def competes (h other : OpenHandle) : Prop :=
  other.cursor ≠ h.cursor ∧ other.view = h.view ∧ other.revision = h.revision ∧ other.inode = h.inode

instance (h other : OpenHandle) : Decidable (competes h other) :=
  inferInstanceAs (Decidable (_ ∧ _))

/-- Whether some other open description excludes a request. -/
def blocked (h : OpenHandle) (start stop : ℕ) (mode : LockMode) : Prop :=
  ∃ e ∈ t.handles.toList, competes h e.2 ∧ ∃ r ∈ (t.cursorOf e.2).locks, conflicts start stop mode r

instance (h : OpenHandle) (start stop : ℕ) (mode : LockMode) :
    Decidable (t.blocked h start stop mode) :=
  inferInstanceAs (Decidable (∃ e ∈ t.handles.toList, _))

end Locks

end HandleTable

end ForkFs
