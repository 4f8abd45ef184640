import ForkFs.Container.Worlds

/-!
# Directory streams

A directory cursor pins the manifest of the version it was opened on and remembers the last key
it returned. Pages are read from that version, whatever happens to the World in between.
-/

namespace ForkFs

open Bytes

variable [Digest]

/-- A position in a directory of one version. -/
structure DirectoryCursor where
  /-- The World or revision. -/
  view : Bytes
  /-- Whether `view` is a revision. -/
  revision : Bool
  /-- What the keys of the directory start with. -/
  pre : Bytes
  /-- The last key of the last page, empty at the start. -/
  after : Bytes
  /-- Whether the end was reached. -/
  done : Bool
  /-- The version, zero for an empty directory of a flat World. -/
  manifest : Hash
  /-- The pin that keeps the version from being collected. -/
  pin : ℕ

/-- An entry with its attributes. -/
structure DirectoryEntry where
  /-- The name. -/
  name : Bytes
  /-- The inode. -/
  id : InodeId
  /-- Its attributes. -/
  inode : InodeInfo

/-- A page of a directory. -/
structure DirectoryPage where
  /-- The names, in order. -/
  names : List Bytes
  /-- Whether the page reaches the end. -/
  eof : Bool
  /-- The entries with attributes, if they were asked for. -/
  entries : List DirectoryEntry

namespace NamespaceView

/-- The first keys that start with `pre` and follow `after`. -/
def page (v : NamespaceView) (pre after : Bytes) (limit : ℕ) : Except String (List Bytes) :=
  match v.layout with
  | .tree root => (MetadataTree.new root).page v.journal.getObject pre after limit
  | _ => .error "paged directory enumeration requires a CoW tree"

/-- The entry of a key with its attributes. -/
def entry (v : NamespaceView) (pre key : Bytes) : Except String DirectoryEntry := do
  let b ← v.get key
  let id ← decodeId b
  let n ← v.inode id
  return ⟨key.drop pre.length, id, n⟩

end NamespaceView

namespace Namespace

variable (ns : Namespace)

/-- The manifest of a World or revision. -/
def headManifest (j : Catalog) : Except String Hash :=
  if ns.revision then do
    let record ← j.get (RootName.revision ns.view).key
    NamespaceView.descriptorManifest record
  else j.rootObject (RootName.world ns.view).key

/-- The version that a cursor on a directory pins. -/
def planDirectory (s : LevelStore) (v : NamespaceView) (id : InodeId) :
    Except String (Hash × Bool) :=
  if v.legacy then do
    let keys ← v.keys (directoryPrefix id)
    need (keys = []) "flat namespace directory is not empty"
    return (Hash.zero, true)
  else do
    let manifest ← ns.headManifest s.catalog
    return (manifest, false)

/-- Open a directory. -/
def openDirectory (path : Bytes) : Method DirectoryCursor := do
  let v ← ns.current
  let id ← attempt (v.resolve path true)
  let n ← attempt (v.inode id)
  attempt (need (n.kind = .directory) "path is not a directory")
  let c ← get
  let (manifest, done) ← attempt (ns.planDirectory c.store v id)
  let pin := c.directoryPins.foldl (fun pin p => max pin (p + 1)) 0
  set { c with directoryPins := pin :: c.directoryPins }
  return ⟨ns.view, ns.revision, directoryPrefix id, [], done, manifest, pin⟩

/-- The message for a cursor of another World. -/
def foreignCursor : String := "directory cursor belongs to another repository/view"

/-- Read the next page of a directory. -/
def readPage (j : Catalog) (cursor : DirectoryCursor) (limit : ℕ) (attributes : Bool) :
    Except String (DirectoryPage × DirectoryCursor) := do
  need (1 ≤ limit ∧ limit ≤ 1024) "directory page limit must be 1..1024"
  need (cursor.view = ns.view ∧ cursor.revision = ns.revision) foreignCursor
  if cursor.done then return (⟨[], true, []⟩, cursor)
  else
    let snapshot ← NamespaceView.load j cursor.manifest true
    let keys ← snapshot.page cursor.pre cursor.after (limit + 1)
    let eof : Bool := keys.length ≤ limit
    let keys := if eof then keys else keys.take limit
    let entries ← if attributes then keys.mapM (snapshot.entry cursor.pre) else pure []
    let after := keys.getLast?.getD cursor.after
    return (⟨keys.map (·.drop cursor.pre.length), eof, entries⟩,
      { cursor with after := after, done := eof })

/-- Read the next page of a directory. -/
def readDirectory (cursor : DirectoryCursor) (limit : ℕ) (attributes : Bool) :
    Method (DirectoryPage × DirectoryCursor) := do
  let c ← get
  attempt (ns.readPage c.store.catalog cursor limit attributes)

/-- Start again. -/
def rewindDirectory (cursor : DirectoryCursor) : Except String DirectoryCursor := do
  need (cursor.view = ns.view ∧ cursor.revision = ns.revision) foreignCursor
  return { cursor with after := [], done := cursor.manifest = Hash.zero }

end Namespace

namespace Container

/-- Destroy a directory cursor. -/
def closeDirectory (cursor : DirectoryCursor) : Method Unit :=
  modify fun c => { c with directoryPins := c.directoryPins.filter (· ≠ cursor.pin) }

end Container

end ForkFs
