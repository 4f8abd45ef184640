import ForkFs.Container.Worlds

/-!
# Garbage collection and recovery

Collection marks the objects of all roots outside the registry and everything that World heads,
revisions and base references lead to, then deletes the other objects and the registry entries
that named them, in one batch. Recovery runs when a repository is opened: it deletes the orphan
roots of files that were open in an earlier process.
-/

namespace ForkFs

open Bytes

variable [Digest]

section Mark

/-- What a marked object is read as. -/
inductive Trace
  /-- A revision record. -/
  | revision
  /-- The manifest of a version. -/
  | manifest
  /-- A node of a metadata tree. -/
  | node
deriving DecidableEq

/-- A reference inside a payload. -/
def extract (b : Bytes) (start : ℕ) : Except String Hash := do
  need (start ≤ b.length ∧ 32 ≤ b.length - start) "truncated GC reference"
  return Hash.ofBytes (slice b start 32)

/-- The work for a reference, none if it is zero. -/
def trace (id : Hash) (kind : Trace) : List (Hash × Trace) :=
  if id = Hash.zero then [] else [(id, kind)]

/-- The objects that a payload marks directly, and the references to follow, the last one
first. -/
def expand (kind : Trace) (b : Bytes) : Except String (List Hash × List (Hash × Trace)) :=
  match kind with
  | .revision => do
    need (b.length = 80 ∧ slice b 0 8 = NamespaceView.revisionMagic) "invalid GC revision"
    let manifest ← extract b 8
    let parent ← extract b 40
    return ([], trace parent .revision ++ trace manifest .manifest)
  | .manifest => do
    need (b.length = 40 ∧ slice b 0 8 = MetadataTree.manifestMagic) "GC requires CoW tree manifests"
    let root ← extract b 8
    return ([], trace root .node)
  | .node => do
    need (108 ≤ b.length ∧ slice b 0 8 = ascii "FFTRNO01" ∧ load (slice b 8 4) = b.length - 108)
      "invalid GC tree node"
    let value ← extract b 12
    let left ← extract b 44
    let right ← extract b 76
    return ([value], trace right .node ++ trace left .node)

/-- The marked objects, the references already followed and those still to follow. -/
structure Marking where
  /-- The marked objects. -/
  live : Finset Hash
  /-- The references already followed. -/
  expanded : Finset (Hash × Trace)
  /-- The references to follow. -/
  pending : List (Hash × Trace)

/-- Read an object and mark it. -/
def mark (j : Catalog) (live : Finset Hash) (id : Hash) : Except String (Bytes × Finset Hash) := do
  let b ← j.getObject id
  return (b, insert id live)

/-- Mark the object of one root and note what to follow from it. -/
def markRoot (j : Catalog) (m : Marking) (key : Bytes) : Except String Marking := do
  if history ++ ascii "object/" <+: key then return m
  else
    let id ← j.rootObject key
    let (b, live) ← mark j m.live id
    if history ++ ascii "world/" <+: key then
      return { m with live := live, pending := trace id .manifest ++ m.pending }
    else if history ++ ascii "revision/" <+: key then
      return { m with live := live, pending := trace id .revision ++ m.pending }
    else if history ++ ascii "base/" <+: key then
      need (b.length = 32) "invalid GC base"
      let base ← extract b 0
      return { m with live := live, pending := trace base .revision ++ m.pending }
    else return { m with live := live }

/-- Follow one reference. -/
def markStep (j : Catalog) (m : Marking) (next : Hash × Trace) (pending : List (Hash × Trace)) :
    Except String Marking :=
  if next ∈ m.expanded then .ok { m with pending := pending }
  else do
    let (b, live) ← mark j m.live next.1
    let (marked, more) ← expand next.2 b
    let live ← marked.foldlM (fun live id => Prod.snd <$> mark j live id) live
    return ⟨live, insert next m.expanded, more ++ pending⟩

/-- Follow references until none is left. -/
def markAll (j : Catalog) : ℕ → Marking → Except String (Finset Hash)
  | 0, m => if m.pending = [] then .ok m.live else .error "GC work limit"
  | fuel + 1, m =>
    match m.pending with
    | [] => .ok m.live
    | next :: pending => do
      let m ← markStep j m next pending
      markAll j fuel m

end Mark

namespace ObjectStore

/-- The objects among a set of identities. -/
def retain (s : ObjectStore) (live : Finset Hash) : ObjectStore where
  payloads := s.payloads.filter fun id _ => id ∈ live
  checked id b hb := by
    rw [StdMap.getElem?_filterKeys] at hb
    split at hb
    · exact s.checked id b hb
    · cases hb

end ObjectStore

namespace LevelStore

/-- Delete all objects but the live ones, and obsolete roots, in one batch. The result is the
number of deleted objects. -/
def collect (s : LevelStore) (expected : ℕ) (live : Finset Hash) (obsolete : List Bytes) :
    Except String (ℕ × LevelStore) := do
  need (s.sequence = expected ∧ expected ≠ 2 ^ 64 - 1) "GC sequence conflict"
  need (∀ id ∈ live, id ∈ s.objects.payloads) "GC live object missing"
  let objects := s.objects.retain live
  let removed := s.objects.payloads.size - objects.payloads.size
  need (∀ key ∈ obsolete, key ∈ s.roots) "GC root disappeared"
  need (removed ≤ s.objectCount ∧ obsolete.length ≤ s.rootCount) "invalid GC counters"
  return (removed, ⟨objects, obsolete.foldl (fun roots key => roots.erase key) s.roots,
    expected + 1, s.objectCount - removed, s.rootCount - obsolete.length⟩)

end LevelStore

namespace Container

section Collect

/-- The live objects of a repository. -/
def liveObjects (s : LevelStore) : Except String (Finset Hash) := do
  let j := s.catalog
  let m ← (j.keys []).foldlM (markRoot j) ⟨∅, ∅, []⟩
  -- Every step shortens the list of references or follows a new one, which adds at most two.
  markAll j (m.pending.length + 6 * s.objects.payloads.size + 1) m

/-- Collect garbage in a store. -/
def planCollect (s : LevelStore) : Except String (ℕ × LevelStore) := do
  s.verify
  let live ← liveObjects s
  let registry := s.catalog.keys (history ++ ascii "object/")
  let obsolete := registry.filter fun key => ∀ id ∈ s.roots[key]?, id ∉ live
  s.collect s.sequence live obsolete

/-- Delete the objects that nothing leads to. -/
def collectGarbage : Method ℕ := do
  let c ← get
  attempt (need (c.table.handles.size = 0) "GC requires an idle offline repository")
  attempt (need (c.directoryPins = []) "GC requires closed directory cursors")
  let (removed, store) ← attempt (planCollect c.store)
  set { c with store := store }
  -- The database is compacted and verified again after the batch.
  attempt store.verify
  return removed

end Collect

section Recovery

/-- Check the key of an orphan root. -/
def checkOrphan (key : Bytes) : Except String Unit := do
  let relative := key.drop orphans.length
  need ((47 : UInt8) ∈ relative) "invalid orphan root"
  NamespaceView.checkName (relative.takeWhile (· ≠ 47))
  let rest := (relative.dropWhile (· ≠ 47)).drop 1
  need (33 ≤ rest.length ∧ validId (rest.take 32) ∧ rest[32]? = some (47 : UInt8) ∧
    (rest.drop 33 = ascii "inode" ∨ rest.drop 33 = ascii "content")) "invalid orphan root"

/-- Delete roots in batches. -/
def deleteAll : List Bytes → List Mutation → Method Unit
  | [], batch => if batch = [] then pure () else ForkFs.transact ⟨batch, []⟩ none
  | key :: keys, batch => do
    attempt (checkOrphan key)
    let batch := batch ++ [.assign key none]
    if batch.length = 4096 then
      ForkFs.transact ⟨batch, []⟩ none
      deleteAll keys []
    else deleteAll keys batch

/-- Delete the orphan roots of an earlier process. -/
def recoverOrphans : Method Unit := do
  let c ← get
  deleteAll (c.store.catalog.keys orphans) []

/-- What is left of a container when its process ends. -/
def exit (c : Container) : Container :=
  { c with table := .empty, directoryPins := [] }

/-- An opening that ends after a number of batches of its recovery. -/
def interruptedOpen (c : Container) (batches : ℕ) : Container :=
  Outcome.after (deleteAll ((c.store.catalog.keys orphans).take (4096 * batches)) []) c.exit

/-- The process ends, some attempts to open the repository are interrupted, and one completes. -/
def restart (c : Container) (interrupted : List ℕ) : Except String Container :=
  match recoverOrphans (interrupted.foldl interruptedOpen c.exit) with
  | .ok _ c => .ok c
  | .error e _ => .error e

end Recovery

end Container

end ForkFs
