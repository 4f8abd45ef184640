import ForkFs.Container.Worlds

/-!
# Open files

Descriptors, the open descriptions they share, advisory locks, and file operations through a
descriptor. A file that has lost its last entry is read and written through the orphan roots of
its World.
-/

namespace ForkFs

open Bytes

variable [Digest]

/-- The requested access. -/
inductive Access
  | read
  | write
  | readWrite
deriving DecidableEq

/-- The options of `open`. -/
structure OpenOptions where
  /-- Create the file if it is missing. -/
  create : Bool
  /-- Fail if the file exists. -/
  exclusive : Bool
  /-- Cut the file to size zero. -/
  truncate : Bool
  /-- The mode of a new file. -/
  mode : ℕ
  /-- Write at the end. -/
  append : Bool
  /-- Do not follow a final symbolic link. -/
  nofollow : Bool

/-- Where a position is counted from. -/
inductive SeekOrigin
  | set
  | current
  | fromEnd
deriving DecidableEq

section Opening

/-- The file that `open` found or is about to create, and the entropy that is left. -/
structure Opening where
  /-- The file. -/
  id : InodeId
  /-- The identities not drawn yet. -/
  draws : List InodeId
  /-- The edits to commit. -/
  effect : Effect Unit

namespace NamespaceView

variable (j : NamespaceView) (env : Env)

/-- Find the file of `open`, or plan its creation. -/
def openTarget (path : Bytes) (o : OpenOptions) : Except String Opening :=
  if o.create then do
    let (p, _) ← j.parent path
    let found ← j.contains (entryKey p.id p.name)
    need (¬ (found ∧ o.exclusive)) "path already exists"
    let target ← if found then do
        let raw ← j.child p.id p.name
        let n ← j.inode raw
        need (¬ (o.nofollow ∧ n.kind = .symlink)) "final symbolic link is forbidden"
        j.resolveOrMissing path
      else pure (.missing p)
    match target with
    | .found id _ => return ⟨id, env.draws, [], none, ()⟩
    | .missing p =>
      let (id, draws, edits) ← j.createAt env p .file o.mode [] (env.clock 0) (env.clock 1)
      return ⟨id, draws, edits, some id, ()⟩
  else do
    let id ← j.resolve path (!o.nofollow)
    if o.nofollow then
      let n ← j.inode id
      need (n.kind ≠ .symlink) "final symbolic link is forbidden"
      return ⟨id, env.draws, [], none, ()⟩
    else return ⟨id, env.draws, [], none, ()⟩

/-- The file of `open`, with the edits of its creation or truncation. -/
def openFile (path : Bytes) (o : OpenOptions) : Except String Opening := do
  let opening ← j.openTarget env path o
  if opening.effect.edits = [] then
    let n ← j.inode opening.id
    need (n.kind = .file) "only regular file handles are implemented"
    if o.truncate ∧ n.size ≠ 0 then
      return { opening with effect.edits :=
        [.inode opening.id (some ({ n with size := 0 }.touch (env.clock 3))),
          .content opening.id (some [])] }
    else return opening
  else return opening

/-- Draw identities until one is not taken. -/
def newToken (taken : InodeId → Prop) [DecidablePred taken] :
    ℕ → List InodeId → Except String InodeId
  | 0, _ => .error "inode entropy"
  | fuel + 1, draws => do
    let (token, draws) ← j.newId 8 draws
    if taken token then newToken taken fuel draws else return token

end NamespaceView

end Opening

section Records

/-- The assignment of an open file's inode: in its World, or as an orphan. -/
def Edit.openInode (linked : Bool) (view : Bytes) (id : InodeId) (n : InodeInfo) : Edit :=
  if linked then .inode id (some n) else .orphanInode view id n

/-- The assignment of an open file's content. -/
def Edit.openContent (linked : Bool) (view : Bytes) (id : InodeId) (data : Bytes) : Edit :=
  if linked then .content id (some data) else .orphanContent view id data

namespace NamespaceView

variable (j : NamespaceView) (env : Env) (view : Bytes)

/-- The attributes of an open file, and whether it has entries. -/
def openInode (id : InodeId) : Except String (Bool × InodeInfo) := do
  let linked ← j.contains (inodeKey id)
  if linked then
    let n ← j.inode id
    return (true, n)
  else
    let b ← j.journal.get (RootName.orphanInode view id).key
    let n ← InodeInfo.decode b true
    return (false, n)

/-- The content of an open file. -/
def openContent (linked : Bool) (id : InodeId) : Except String Bytes :=
  if linked then j.get (contentKey id)
  else j.journal.get (RootName.orphanContent view id).key

/-- Edit the content of an open file. The result is the size before. -/
def editHandle (h : OpenHandle) (edit : ContentEdit) : Except String (Effect ℕ) := do
  need h.writable "handle is not writable"
  let (linked, n) ← j.openInode view h.inode
  let data ← j.openContent view linked h.inode
  need (data.length = n.size) "inode size mismatch"
  match ← edit data with
  | none => return ⟨[], none, data.length⟩
  | some value =>
    need (value.length ≤ 256 * 1024) "prototype files are limited to 256 KiB"
    let n := { n with size := value.length }.touch (env.clock 0)
    return ⟨[.openInode linked view h.inode n, .openContent linked view h.inode value], none,
      data.length⟩

/-- Change the attributes of an open file. -/
def handleSetAttributes (h : OpenHandle) (a : Attributes) : Except String (Effect Unit) := do
  let (linked, n) ← j.openInode view h.inode
  need (a.size = none ∨ h.writable) "handle is not writable"
  if a.idle n then return ⟨[], none, ()⟩
  else
    let (n, data) ← n.update a env.clock (j.openContent view linked h.inode)
    return ⟨(data.toList.map fun data => .openContent linked view h.inode data) ++
      [.openInode linked view h.inode n], none, ()⟩

/-- Read an open file. -/
def readHandle (revision : Bool) (h : OpenHandle) (offset count : ℕ) : Except String Bytes := do
  let linked ← j.contains (inodeKey h.inode)
  need (linked ∨ revision = false) "revision inode missing"
  let (_, n) ← j.openInode view h.inode
  let data ← j.openContent view linked h.inode
  need (data.length = n.size) "inode size mismatch"
  return slice data offset count

end NamespaceView

end Records

/-- Change the table of open files. -/
def onTable (f : HandleTable → HandleTable) : Method Unit :=
  modify fun c => { c with table := f c.table }

namespace Namespace

variable (ns : Namespace) (env : Env)

section Descriptors

/-- The checks of `open` that need no repository. -/
def checkOpen (access : Access) (o : OpenOptions) : Except String Unit := do
  need (o.exclusive → o.create) "exclusive open requires create"
  need (o.truncate → access ≠ .read) "truncate open requires writable access"
  need (o.append → access ≠ .read) "append open requires writable access"
  need (o.mode ≤ 0o777) "invalid creation mode"
  need (ns.revision → access = .read ∧ o.create = false ∧ o.truncate = false)
    "revision view is read-only"

/-- The descriptor of a token. -/
def findHandle (token : Bytes) : Method OpenHandle := do
  let c ← get
  match c.table.handles[token]? with
  | none => throw "invalid or expired file handle"
  | some h =>
    attempt (need (h.view = ns.view ∧ h.revision = ns.revision) "file handle belongs to another view")
    return h

/-- Change the open count of a file, which revisions do not have. -/
def recount (f : HandleTable → HandleTable) : Method Unit :=
  if ns.revision then pure () else onTable f

/-- Register a descriptor, then commit. Both are undone if the commit fails. -/
def publishHandle (v : NamespaceView) (token : Bytes) (h : OpenHandle) (effect : Effect Unit) :
    Method Unit := do
  onTable fun t => (t.add token h).setCursor h ⟨0, []⟩
  tryCatch
    (do
      ns.recount fun t => t.count h.file
      ns.commitChanges v effect)
    fun e => do
      ns.recount fun t => t.uncount h.file
      onTable fun t => t.erase token
      throw e

/-- Open a file. -/
def openHandle (path : Bytes) (access : Access) (o : OpenOptions) : Method Bytes := do
  attempt (ns.checkOpen access o)
  let c ← get
  attempt (need (c.table.handles.size < 4096) "file handle limit reached")
  let v ← ns.current
  let opening ← attempt (v.openFile env path o)
  let token ← attempt (v.newToken (fun t => t = opening.id ∨ t.val ∈ c.table.handles)
    (opening.draws.length + 1) opening.draws)
  let h : OpenHandle := ⟨ns.view, opening.id, ns.revision, access ≠ .write, access ≠ .read, o.append,
    c.table.freshCursor⟩
  ns.publishHandle v token.val h opening.effect
  return token.val

/-- Duplicate a descriptor. Both share the open description. -/
def dup (token : Bytes) : Method Bytes := do
  let h ← ns.findHandle token
  let c ← get
  attempt (need (c.table.handles.size < 4096) "file handle limit reached")
  let v ← ns.current
  let token ← attempt (v.newToken (fun t => t.val ∈ c.table.handles) (env.draws.length + 1) env.draws)
  onTable fun t => t.add token.val h
  ns.recount fun t => t.count h.file
  return token.val

/-- Delete the orphan roots of a file, if it has any. -/
def dropOrphan (h : OpenHandle) : Method Unit := do
  let c ← get
  if (RootName.orphanInode h.view h.inode).key ∈ c.store.roots then
    transact ⟨[.assign (RootName.orphanInode h.view h.inode).key none,
      .assign (RootName.orphanContent h.view h.inode).key none], []⟩ none
  else pure ()

/-- Close a descriptor. With the last one of a file without entries its orphan goes. -/
def close (token : Bytes) : Method Unit := do
  let h ← ns.findHandle token
  if h.revision then onTable fun t => t.erase token
  else do
    let c ← get
    let count := c.table.openCounts[h.file]?.getD 0
    attempt (need (0 < count) "invalid open count")
    if count = 1 then do
      dropOrphan h
      onTable fun t => { t with openCounts := t.openCounts.erase h.file }
      onTable fun t => t.erase token
    else do
      onTable fun t => { t with openCounts := t.openCounts.insert h.file (count - 1) }
      onTable fun t => t.erase token

end Descriptors

section Locks

/-- The end of a requested range, of which zero bytes reach to the end of the offset space. -/
def lockEnd (start length : ℕ) : ℕ := if length = 0 then HandleTable.offsetLimit else start + length

/-- Lock or unlock a range without waiting. No mode means unlock. -/
def tryLockRange (token : Bytes) (mode : Option LockMode) (start length : ℕ) : Method Bool := do
  attempt (need (start ≤ HandleTable.offsetLimit - 1 ∧ (length = 0 ∨ length ≤ HandleTable.offsetLimit - start))
    "lock range exceeds signed offset space")
  let h ← ns.findHandle token
  let c ← get
  if ∃ m ∈ mode, c.table.blocked h start (lockEnd start length) m then return false
  else
    attempt (need ((Span.assign start (lockEnd start length) mode (c.table.cursorOf h).locks).length
      ≤ 128) "open description lock range limit reached")
    onTable fun t => t.relock h start (lockEnd start length) mode
    return true

/-- Lock or unlock a whole file. -/
def tryLock (token : Bytes) (mode : Option LockMode) : Method Bool :=
  ns.tryLockRange token mode 0 0

end Locks

section Positions

/-- The position that a seek counts from. -/
def seekBase (h : OpenHandle) : SeekOrigin → Method ℕ
  | .set => pure 0
  | .current => do
    let c ← get
    return (c.table.cursorOf h).position
  | .fromEnd => do
    let v ← ns.current
    let (_, n) ← attempt (v.openInode ns.view h.inode)
    return n.size

/-- Move the file position. -/
def seek (token : Bytes) (offset : ℤ) (origin : SeekOrigin) : Method ℕ := do
  let h ← ns.findHandle token
  let base ← ns.seekBase h origin
  attempt (need (base ≤ 2 ^ 63 - 1) "file position overflow")
  attempt (need (0 ≤ (base : ℤ) + offset) "negative file position")
  attempt (need ((base : ℤ) + offset ≤ 2 ^ 63 - 1) "file position overflow")
  onTable fun t => t.moveTo h ((base : ℤ) + offset).toNat
  return ((base : ℤ) + offset).toNat

/-- The attributes of an open file. -/
def handleStat (token : Bytes) : Method InodeInfo := do
  let h ← ns.findHandle token
  let v ← ns.current
  let linked ← attempt (v.contains (inodeKey h.inode))
  attempt (need (linked ∨ ns.revision = false) "revision inode missing")
  let (_, n) ← attempt (v.openInode ns.view h.inode)
  return n

/-- Read an open file at an offset. -/
def handleRead (token : Bytes) (offset count : ℕ) : Method Bytes := do
  attempt (need (offset ≤ 2 ^ 63 - 1) "file offset exceeds signed 64-bit range")
  let h ← ns.findHandle token
  attempt (need h.readable "handle is not readable")
  let v ← ns.current
  attempt (v.readHandle ns.view ns.revision h offset count)

/-- Read an open file at its position. -/
def handleReadNext (token : Bytes) (count : ℕ) : Method Bytes := do
  let h ← ns.findHandle token
  attempt (need h.readable "handle is not readable")
  let v ← ns.current
  let c ← get
  let position := (c.table.cursorOf h).position
  let data ← attempt (v.readHandle ns.view ns.revision h position count)
  onTable fun t => t.moveTo h (position + data.length)
  return data

end Positions

section Writes

/-- Edit the content of an open file and commit. -/
def editHandle (token : Bytes) (edit : OpenHandle → Container → ContentEdit) :
    Method (OpenHandle × ℕ) := do
  ns.needWorld
  let v ← ns.current
  let h ← ns.findHandle token
  let c ← get
  let effect ← attempt (v.editHandle env ns.view h (edit h c))
  ns.commitChanges v effect
  return (h, effect.value)

/-- Write an open file at an offset, or at the end in append mode. -/
def handleWrite (token : Bytes) (offset : ℕ) (value : Bytes) : Method Unit := do
  attempt (need (offset ≤ 2 ^ 63 - 1) "file offset exceeds signed 64-bit range")
  attempt (need (value.length ≤ fileLimit) fileLimitMessage)
  discard (ns.editHandle env token fun h _ => handleWriteEdit offset value h.append)

/-- Write an open file at its end. The result is the offset of the write. -/
def handleAppend (token value : Bytes) : Method ℕ := do
  attempt (need (value.length ≤ fileLimit) fileLimitMessage)
  let (_, size) ← ns.editHandle env token fun _ _ => appendEdit value
  return size

/-- Set the size of an open file. -/
def handleTruncate (token : Bytes) (size : ℕ) : Method Unit := do
  attempt (need (size ≤ fileLimit) fileLimitMessage)
  discard (ns.editHandle env token fun _ _ => truncateEdit size)

/-- Write an open file at its position, which moves once the write is committed. -/
def handleWriteNext (token value : Bytes) : Method ℕ := do
  attempt (need (value.length ≤ fileLimit) fileLimitMessage)
  let (h, size) ← ns.editHandle env token fun h c =>
    handleWriteEdit (c.table.cursorOf h).position value h.append
  onTable fun t =>
    let position := (t.cursorOf h).position
    t.moveTo h (if value = [] then position
      else (if h.append then size else position) + value.length)
  return value.length

/-- Change the attributes of an open file. -/
def handleSetAttributes (token : Bytes) (a : Attributes) : Method Unit := do
  attempt (checkAttributes a)
  ns.needWorld
  let h ← ns.findHandle token
  let v ← ns.current
  let effect ← attempt (v.handleSetAttributes env ns.view h a)
  ns.commitChanges v effect

end Writes

end Namespace

end ForkFs
