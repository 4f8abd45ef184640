import ForkFs.Container.State
import ForkFs.Namespace.Reads

/-!
# Operations on Worlds

The methods that change a World by path, make revisions of it and fork new Worlds from them,
and the transactions on keys that the filesystem does not reserve. Each runs its checks on the
current version and commits at most one batch.
-/

namespace ForkFs

open Bytes

variable [Digest]

/-- The largest file. -/
def fileLimit : ℕ := 256 * 1024

/-- The message for content above the limit. -/
def fileLimitMessage : String := "prototype files are limited to 256 KiB"

namespace Namespace

variable (ns : Namespace) (env : Env)

section Paths

/-- Create the root directory of the first World. -/
def fsInit : Method Unit := do
  attempt (need (ns.view = ascii "main" ∧ ns.revision = false) "fs-init initializes main only")
  ns.update fun v => v.fsInit env

/-- Create a directory. -/
def mkdir (path : Bytes) (mode : ℕ) : Method Unit := do
  attempt (need (mode ≤ 0o777) "invalid creation mode")
  ns.update fun v => v.mkdir env path mode

/-- Write a whole file. -/
def write (path value : Bytes) : Method Unit := do
  attempt (need (value.length ≤ fileLimit) fileLimitMessage)
  ns.update fun v => v.write env path value

/-- Save a new file in the place of another. -/
def replaceFile (path value : Bytes) : Method Unit := do
  attempt (need (value.length ≤ fileLimit) fileLimitMessage)
  let c ← get
  ns.update fun v => v.replaceFile env ns.view (c.table.isOpen ns.view) path value

/-- Write at an offset. -/
def writeAt (path : Bytes) (offset : ℕ) (value : Bytes) : Method Unit := do
  attempt (need (offset ≤ 2 ^ 63 - 1) "file offset exceeds signed 64-bit range")
  attempt (need (value = [] ∨ offset ≤ fileLimit ∧ value.length ≤ fileLimit - offset) fileLimitMessage)
  discard (ns.update fun v => v.editContent env path (writeAtEdit offset value))

/-- Write at the end. The result is the offset of the write. -/
def append (path value : Bytes) : Method ℕ := do
  attempt (need (value.length ≤ fileLimit) fileLimitMessage)
  ns.update fun v => v.editContent env path (appendEdit value)

/-- Set the size of a file. -/
def truncate (path : Bytes) (size : ℕ) : Method Unit := do
  attempt (need (size ≤ fileLimit) fileLimitMessage)
  discard (ns.update fun v => v.editContent env path (truncateEdit size))

/-- Change attributes. -/
def setAttributes (path : Bytes) (a : Attributes) : Method Unit := do
  attempt (checkAttributes a)
  ns.update fun v => v.setAttributes env path a

/-- Read a whole file. -/
def read (path : Bytes) : Method Bytes := do
  let v ← ns.current
  attempt (v.read path)

/-- Create a symbolic link. -/
def symlink (target path : Bytes) : Method Unit := do
  let _ ← attempt (targetComponents target)
  ns.update fun v => v.symlink env target path

/-- Create a hard link. -/
def link (source target : Bytes) : Method Unit :=
  ns.update fun v => v.link env source target

/-- Remove a file or an empty directory. -/
def remove (path : Bytes) (directory : Bool) : Method Unit := do
  let c ← get
  ns.update fun v => v.remove env ns.view (c.table.isOpen ns.view) path directory

/-- Move a file or directory. -/
def rename (source target : Bytes) : Method Unit := do
  let c ← get
  ns.update fun v => v.rename env ns.view (c.table.isOpen ns.view) source target

end Paths

section Revisions

/-- The manifest of a version: the head, or for a flat World a staged one. -/
def stageManifest (j : Catalog) (v : NamespaceView) : Except String (Hash × Commit) :=
  if v.legacy then do
    let plan ← v.plan ∅ false
    let staged := plan.objects.flatMap j.registry ++ j.registry plan.manifest
    return (objectHash plan.manifest, ⟨staged.map fun e => .assign e.1 (some e.2),
      plan.hashed ++ plan.objects ++ [plan.manifest]⟩)
  else do
    let head ← j.rootObject (RootName.world ns.view).key
    return (head, ⟨[], []⟩)

/-- The revision a World last was or came from. -/
def parentRevision (j : Catalog) : Except String Hash :=
  let base := (RootName.base ns.view).key
  if base ∈ j.roots then do
    let parent ← j.get base
    need (parent.length = 32) "invalid revision ancestry"
    let descriptor ← j.getObject (Hash.ofBytes parent)
    need (descriptor.length = 80 ∧ slice descriptor 0 8 = NamespaceView.revisionMagic)
      "invalid parent revision"
    return Hash.ofBytes parent
  else .ok Hash.zero

/-- A revision record. -/
def descriptor (manifest parent : Hash) (sequence : ℕ) : Bytes :=
  NamespaceView.revisionMagic ++ (manifest.val ++ (parent.val ++ Bytes.store sequence 8))

/-- The batch of a snapshot, and the identity of the revision. -/
def planSnapshot (s : LevelStore) (name : Bytes) : Except String (Hash × Commit) := do
  let j := s.catalog
  need ((RootName.revision name).key ∉ j.roots) "revision name already exists"
  let v ← NamespaceView.open_ j ns.view false true
  let _ ← v.root
  let (manifest, staged) ← ns.stageManifest j v
  let parent ← ns.parentRevision j
  let record := descriptor manifest parent s.sequence
  let id := objectHash record
  return (id, ⟨staged.mutations ++ [.assign (RootName.revision name).key (some record),
    .assign (RootName.base ns.view).key (some id.val)], staged.hashed ++ [record, id.val]⟩)

/-- Make a revision of a World. -/
def snapshot (name : Bytes) : Method Hash := do
  attempt (NamespaceView.checkName name)
  ns.needWorld
  let c ← get
  let (id, batch) ← attempt (ns.planSnapshot c.store name)
  transact batch none
  return id

/-- The batch that forks a World from a revision. -/
def planFork (j : Catalog) (revision world : Bytes) : Except String Commit := do
  need ((RootName.world world).key ∉ j.roots ∧ (RootName.base world).key ∉ j.roots)
    "World already exists"
  let record ← j.get (RootName.revision revision).key
  let manifest ← NamespaceView.descriptorManifest record
  let v ← NamespaceView.open_ j revision true true
  let _ ← v.root
  let id ← j.rootObject (RootName.revision revision).key
  return ⟨[⟨(RootName.world world).key, none, some manifest⟩,
    .assign (RootName.base world).key (some id.val)], [id.val]⟩

/-- Make a new World from a revision. -/
def fork (revision world : Bytes) : Method Unit := do
  attempt (NamespaceView.checkName revision)
  attempt (NamespaceView.checkName world)
  attempt (need (world ≠ ascii "main") "main World already exists")
  ns.needWorld
  let c ← get
  let batch ← attempt (planFork c.store.catalog revision world)
  transact batch none

end Revisions

end Namespace

namespace Container

/-- Whether the filesystem reserves a key. -/
def reserved (key : Bytes) : Prop := namespacePrefix <+: key ∨ history <+: key

instance (key : Bytes) : Decidable (reserved key) := inferInstanceAs (Decidable (_ ∨ _))

/-- Store a value under a key of the user. -/
def put (key value : Bytes) : Method Unit := do
  attempt (need (¬ reserved key) "reserved filesystem key")
  ForkFs.transact ⟨[.assign key (some value)], [value]⟩ none

/-- Commit mutations of keys of the user. -/
def transact (expected : ℕ) (mutations : List Mutation) : Method Unit := do
  attempt (need (∀ m ∈ mutations, ¬ reserved m.key) "reserved filesystem key")
  let c ← get
  let store ← attempt (c.store.transact expected mutations)
  set { c with store := store, hashed := c.hashed ++ mutations.filterMap Mutation.value }

end Container

end ForkFs
