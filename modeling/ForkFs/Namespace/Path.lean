import ForkFs.Namespace.Inode
import ForkFs.NamespaceView.View

/-!
# Paths

A path is resolved component by component from the root. The walk keeps the stack of directories
it is in, replaces symbolic links by their targets, at most 40 of them, and may report the
parent and name of a missing last component.
-/

namespace ForkFs

open Bytes

section Names

/-- Check one name of a path. -/
def checkComponent (name : Bytes) : Except String Unit := do
  need (name ≠ [] ∧ name ≠ ascii "." ∧ name ≠ ascii ".." ∧ name.length ≤ 255)
    "invalid path component"
  need (∀ c ∈ name, 32 ≤ c ∧ c ≤ 126) "prototype names must be printable ASCII"

/-- Check the names of a path in order. -/
def checkComponents : List Bytes → Except String Unit
  | [] => .ok ()
  | [name] => checkComponent name
  | name :: next :: rest => do
    checkComponent name
    need (next ≠ [] ∨ rest ≠ []) "trailing slash is unsupported"
    checkComponents (next :: rest)

/-- The names of an absolute path. -/
def components (path : Bytes) : Except String (List Bytes) := do
  need (path.head? = some 47 ∧ path.length ≤ 4096) "path must be absolute and at most 4096 bytes"
  if path = ascii "/" then return []
  else
    let names := pieces 47 (path.drop 1)
    checkComponents names
    return names

/-- The names of a symbolic link's target. A trailing slash asks for a directory. -/
def targetComponents (target : Bytes) : Except String (List Bytes) := do
  need (target ≠ [] ∧ target.length ≤ 4096) "invalid symlink target length"
  need (∀ c ∈ target, 32 ≤ c ∧ c ≤ 126) "prototype symlink targets must be printable ASCII"
  let names := (pieces 47 target).filter (· ≠ [])
  need (∀ name ∈ names, name.length ≤ 255) "invalid symlink component"
  return if target.getLast? = some 47 ∧ names ≠ [] then names ++ [ascii "."] else names

end Names

/-- A directory and a name in it. -/
structure Parent where
  /-- The directory. -/
  id : InodeId
  /-- The name. -/
  name : Bytes

/-- The end of a walk. -/
inductive Destination
  /-- An inode and the directories above it, the root last. -/
  | found (id : InodeId) (above : List InodeId)
  /-- A missing last component. -/
  | missing (parent : Parent)

namespace NamespaceView

variable [Digest] (j : NamespaceView)

/-- The root directory. -/
def root : Except String InodeId := do
  let found ← j.contains namespaceRoot
  need found "filesystem not initialized; use fs-init"
  let b ← j.get namespaceRoot
  decodeId b

/-- The attributes of an inode. -/
def inode (id : InodeId) : Except String InodeInfo := do
  let b ← j.get (inodeKey id)
  InodeInfo.decode b false

/-- The inode of a directory entry. -/
def child (directory : InodeId) (name : Bytes) : Except String InodeId := do
  let b ← j.get (entryKey directory name)
  decodeId b

/-- The continuation of a walk: pending names, current inode, directories above it and the number
of bytes taken from symbolic links. -/
abbrev Walk := List Bytes → InodeId → List InodeId → ℕ → Except String Destination

/-- Walk up to the next symbolic link that is followed, where `next` continues. -/
def walkPart (followFinal create : Bool) (next : Option Walk) : Walk
  | [], id, above, _ => .ok (.found id above)
  | name :: pending, id, above, expanded => do
    let n ← j.inode id
    need (n.kind = .directory) "path component is not a directory"
    if name = ascii "." then walkPart followFinal create next pending id above expanded
    else if name = ascii ".." then
      match above with
      | [] => walkPart followFinal create next pending id [] expanded
      | up :: above => walkPart followFinal create next pending up above expanded
    else
      let found ← j.contains (entryKey id name)
      if found then
        let child ← j.child id name
        let n ← j.inode child
        if n.kind = .symlink ∧ (followFinal ∨ pending ≠ []) then
          match next with
          | none => .error "too many symbolic links"
          | some next =>
            let b ← j.get (contentKey child)
            need (b.length = n.size) "symlink size mismatch"
            let parts ← targetComponents b
            need (expanded + b.length ≤ 65536) "symlink expansion limit"
            if b.head? = some 47 then
              next (parts ++ pending) (above.getLastD id) [] (expanded + b.length)
            else next (parts ++ pending) id above (expanded + b.length)
        else walkPart followFinal create next pending child (id :: above) expanded
      else
        need (create ∧ pending = []) "path not found"
        return .missing ⟨id, name⟩

/-- Walk with a limit on the symbolic links to follow. -/
def walkLinks (followFinal create : Bool) : ℕ → Walk
  | 0 => walkPart j followFinal create none
  | links + 1 => walkPart j followFinal create (some (walkLinks followFinal create links))

/-- Walk from the root. -/
def walk (names : List Bytes) (followFinal create : Bool) : Except String Destination := do
  let id ← j.root
  walkLinks j followFinal create 40 names id [] 0

/-- Walk to an inode that must exist. -/
def walkTo (names : List Bytes) (followFinal : Bool) : Except String (InodeId × List InodeId) := do
  match ← walk j names followFinal false with
  | .found id above => return (id, above)
  | .missing _ => .error "path not found"

/-- The directory of a path's last component, with the directories above it. -/
def parent (path : Bytes) : Except String (Parent × List InodeId) := do
  let names ← components path
  need (names ≠ []) "cannot modify filesystem root"
  let (id, above) ← walkTo j names.dropLast true
  let n ← j.inode id
  need (n.kind = .directory) "parent is not a directory"
  return (⟨id, names.getLastD []⟩, id :: above)

/-- The inode of a path. -/
def resolve (path : Bytes) (follow : Bool) : Except String InodeId := do
  let names ← components path
  let (id, _) ← walkTo j names follow
  return id

/-- The inode of a path, or the place where a file would be created. -/
def resolveOrMissing (path : Bytes) : Except String Destination := do
  let names ← components path
  walk j names true true

/-- A fresh inode identity among the first `attempts` draws. -/
def newId : ℕ → List InodeId → Except String (InodeId × List InodeId)
  | 0, _ => .error "inode identity collision"
  | _ + 1, [] => .error "inode entropy"
  | attempts + 1, id :: draws => do
    let allocated ← j.contains (allocatedKey id)
    if allocated then newId attempts draws
    else
      let used ← j.contains (inodeKey id)
      if used then newId attempts draws else return (id, draws)

variable {j}

omit [Digest] in
/-- A drawn identity is neither marked nor in use, whatever the entropy source proposes. -/
theorem contains_of_newId {attempts : ℕ} {draws rest : List InodeId} {id : InodeId}
    (h : j.newId attempts draws = .ok (id, rest)) :
    j.contains (allocatedKey id) = .ok false ∧ j.contains (inodeKey id) = .ok false := by
  induction attempts generalizing draws with
  | zero => cases h
  | succ attempts ih =>
    cases draws with
    | nil => cases h
    | cons draw draws =>
      unfold newId at h
      obtain ⟨allocated, hallocated, h⟩ := Outcome.bind_eq_ok.mp h
      cases allocated with
      | true => exact ih h
      | false =>
        obtain ⟨used, hused, h⟩ := Outcome.bind_eq_ok.mp h
        cases used with
        | true => exact ih h
        | false =>
          cases h
          exact ⟨hallocated, hused⟩

end NamespaceView

end ForkFs
