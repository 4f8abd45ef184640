import ForkFs.Catalog
import ForkFs.MetadataTree.Editor
import ForkFs.Namespace.Records

/-!
# Views of the namespace

A view is one version of a World: a metadata tree, a list of immutable sorted runs, or the flat
roots of a World that has no manifest yet. `plan` computes the objects and the manifest of the
next version. On LevelDB this is always a tree; the single-file engine writes runs.

The run cache of the source is left out, since runs are immutable.
-/

namespace ForkFs

open Bytes

/-- A change of a view: keys with the object to bind, or none to delete. -/
abbrev Delta := StdMap Bytes (Option Hash)

/-- How a view stores its map. -/
inductive Layout
  /-- Roots of the repository. -/
  | flat
  /-- A metadata tree. -/
  | tree (root : Hash)
  /-- Sorted runs, the most recent first. -/
  | runs (ids : List Hash)

/-- One version of a World. -/
structure NamespaceView where
  /-- The repository. -/
  journal : Catalog
  /-- The form of the version. -/
  layout : Layout

namespace NamespaceView

section Runs

/-- Whether a payload starts with a format tag. -/
def magic (b : Bytes) (text : String) : Prop := 12 ≤ b.length ∧ slice b 0 8 = ascii text

instance (b : Bytes) (text : String) : Decidable (magic b text) :=
  inferInstanceAs (Decidable (_ ∧ _))

/-- The integer at the start of a string. -/
def u32 (b : Bytes) : Except String ℕ := do
  need (4 ≤ b.length) "truncated metadata integer"
  return load (b.take 4)

/-- A run while it is read. -/
structure RunReader where
  /-- The rest of the payload. -/
  rest : Bytes
  /-- The last key. -/
  previous : Option Bytes
  /-- The entries so far. -/
  result : Delta

/-- Read one entry of a run. Old full maps have no operation codes. -/
def decodeEntry (full : Bool) (r : RunReader) : Except String RunReader := do
  let op ← if full then pure 1 else u32 r.rest
  let rest := if full then r.rest else r.rest.drop 4
  let n ← u32 rest
  let rest := rest.drop 4
  need ((op = 1 ∨ op = 2) ∧ 8 ≤ n ∧ n ≤ 1024 ∧ n + 32 ≤ rest.length) "invalid run entry"
  let key := rest.take n
  let target := Hash.ofBytes (slice rest n 32)
  need (namespacePrefix <+: key ∧ ∀ previous ∈ r.previous, previous < key) "unordered run keys"
  if op = 1 then
    need (target ≠ Hash.zero) "zero PUT reference"
    return ⟨rest.drop (n + 32), some key, r.result.insert key (some target)⟩
  else
    need (target = Hash.zero) "nonzero tombstone reference"
    return ⟨rest.drop (n + 32), some key, r.result.insert key none⟩

/-- Read a number of entries. -/
def decodeEntries (full : Bool) : ℕ → RunReader → Except String RunReader
  | 0, r => .ok r
  | count + 1, r => do
    let r ← decodeEntry full r
    decodeEntries full count r

/-- Read a sorted run. -/
def decodeRun (b : Bytes) : Except String Delta := do
  let full : Bool := magic b "FFMAN001"
  need (full ∨ magic b "FFRUN001") "unsupported sorted run"
  let count ← u32 (b.drop 8)
  need (0 < count ∧ count ≤ (b.length - 12) / (if full then 44 else 48)) "invalid sorted run count"
  let r ← decodeEntries full count ⟨b.drop 12, none, ∅⟩
  need (r.rest = []) "unexpected sorted run suffix"
  return r.result

/-- The bytes of a run entry. -/
def encodeEntry (e : Bytes × Option Hash) : Bytes :=
  [store (if e.2.isSome then 1 else 2) 4, store e.1.length 4, e.1, (e.2.getD Hash.zero).val].flatten

/-- Write a sorted run. -/
def encodeRun (changes : Delta) : Except String Bytes := do
  need (changes.toList ≠ []) "cannot encode empty run"
  changes.toList.forM fun e =>
    need (namespacePrefix <+: e.1 ∧ e.1.length ≤ 1024) "invalid run key"
  let b := ascii "FFRUN001" ++ (store changes.size 4 ++ changes.toList.flatMap encodeEntry)
  need (b.length ≤ 256 * 1024) "sorted run exceeds 256 KiB"
  return b

/-- Write a manifest. -/
def encodeManifest (runs : List Hash) : Except String Bytes := do
  need (runs ≠ [] ∧ runs.length ≤ 32) "manifest run count exceeds prototype limit"
  return ascii "FFMAN002" ++ (store runs.length 4 ++ runs.flatMap Subtype.val)

/-- Cut a complete map into parts of at most 64 KiB. -/
def splitImage : List (Bytes × Hash) → List (Bytes × Hash) → ℕ → List (List (Bytes × Hash))
  | [], part, _ => if part = [] then [] else [part]
  | e :: image, part, bytes =>
    if 64 * 1024 < bytes + 40 + e.1.length ∧ part ≠ [] then
      part :: splitImage image [e] (12 + 40 + e.1.length)
    else splitImage image (part ++ [e]) (bytes + 40 + e.1.length)

/-- The runs of a complete map. -/
def encodeImage (image : StdMap Bytes Hash) : Except String (List Bytes) :=
  (splitImage image.toList [] 12).mapM fun part =>
    encodeRun (StdMap.insertAll ∅ (part.map fun e => (e.1, some e.2)))

end Runs

section Read

variable [Digest]

/-- The test of a World or revision name. -/
def validName (name : Bytes) : Prop :=
  name ≠ [] ∧ name.length ≤ 64 ∧ name ≠ ascii "." ∧ name ≠ ascii ".." ∧
    ∀ c ∈ name, (97 ≤ c ∧ c ≤ 122) ∨ (65 ≤ c ∧ c ≤ 90) ∨ (48 ≤ c ∧ c ≤ 57) ∨ c = 95 ∨ c = 45 ∨ c = 46

instance (name : Bytes) : Decidable (validName name) := inferInstanceAs (Decidable (_ ∧ _))

/-- Fail unless a name is valid. -/
def checkName (name : Bytes) : Except String Unit :=
  need (validName name) "invalid World/revision name"

/-- The format tag of a revision. -/
def revisionMagic : Bytes := ascii "FFREV001"

/-- The manifest of a revision descriptor. -/
def descriptorManifest (descriptor : Bytes) : Except String Hash := do
  need (descriptor.length = 80 ∧ slice descriptor 0 8 = revisionMagic) "invalid revision record"
  return Hash.ofBytes (slice descriptor 8 32)

/-- The layout that a manifest describes. -/
def readManifest (j : Catalog) (manifest : Hash) : Except String Layout := do
  let b ← j.getObject manifest
  if b.length = 40 ∧ slice b 0 8 = MetadataTree.manifestMagic then
    let root := Hash.ofBytes (slice b 8 32)
    need (root ≠ Hash.zero) "empty metadata tree root"
    return .tree root
  else if magic b "FFMAN001" then return .runs [manifest]
  else
    need (magic b "FFMAN002") "unsupported namespace manifest"
    let n ← u32 (b.drop 8)
    need (0 < n ∧ n ≤ 32 ∧ b.length = 12 + n * 32) "invalid manifest run count"
    let ids := (List.range n).map fun i => Hash.ofBytes (slice b (12 + i * 32) 32)
    need (Hash.zero ∉ ids ∧ ids.Nodup) "duplicate or zero run reference"
    return .runs ids

/-- The entries of a run. -/
def run (j : Catalog) (id : Hash) : Except String Delta := do
  let b ← j.getObject id
  decodeRun b

/-- The first run that mentions a key decides. -/
def lookupRuns (j : Catalog) (key : Bytes) : List Hash → Except String (Option Hash)
  | [] => .ok none
  | id :: ids => do
    let entries ← run j id
    match entries[key]? with
    | some target => return target
    | none => lookupRuns j key ids

/-- The object bound to a key. -/
def lookup (v : NamespaceView) (key : Bytes) : Except String (Option Hash) :=
  match v.layout with
  | .tree root => (MetadataTree.new root).lookup v.journal.getObject key
  | .flat => .ok v.journal.roots[key]?
  | .runs ids => lookupRuns v.journal key ids

/-- Load the version of a manifest. -/
def load (j : Catalog) (manifest : Hash) (validateRoot : Bool) : Except String NamespaceView := do
  let layout ← readManifest j manifest
  let v : NamespaceView := ⟨j, layout⟩
  if validateRoot then
    let root ← v.lookup namespaceRoot
    need root.isSome "manifest missing namespace root"
    return v
  else return v

/-- The current version of a World, or a revision. -/
def open_ (j : Catalog) (name : Bytes) (revision : Bool) (validateRoot : Bool) :
    Except String NamespaceView := do
  checkName name
  if name = ascii "main" ∧ revision = false ∧ (RootName.world (ascii "main")).key ∉ j.roots then
    return ⟨j, .flat⟩
  else if revision then
    let descriptor ← j.get (RootName.revision name).key
    let manifest ← descriptorManifest descriptor
    load j manifest validateRoot
  else
    let manifest ← j.rootObject (RootName.world name).key
    load j manifest validateRoot

/-- Whether the view has a key. Allocated inodes are known in every World. -/
def contains (v : NamespaceView) (key : Bytes) : Except String Bool :=
  let allocations := namespacePrefix ++ ascii "allocated/"
  if allocations <+: key ∧ (key ∈ v.journal.roots ∨
      history ++ (ascii "allocated/" ++ key.drop allocations.length) ∈ v.journal.roots) then .ok true
  else do
    let found ← v.lookup key
    return found.isSome

/-- The payload bound to a key. -/
def get (v : NamespaceView) (key : Bytes) : Except String Bytes := do
  match ← v.lookup key with
  | none => .error "namespace key not found"
  | some id => v.journal.getObject id

/-- The entries of each run in the order of the list. -/
def allRuns (j : Catalog) (ids : List Hash) : Except String (List Delta) := ids.mapM (run j)

/-- All keys that start with `pre`. -/
def keys (v : NamespaceView) (pre : Bytes) : Except String (List Bytes) :=
  match v.layout with
  | .tree root => (MetadataTree.new root).keys v.journal.getObject pre
  | .flat => .ok (v.journal.keys pre)
  | .runs ids => do
    let runs ← allRuns v.journal ids
    -- The first occurrence of a key wins, also if it is a deletion.
    let selected := runs.foldl
      (fun selected entries => StdMap.emplaceAll selected (entries.toList.filter (pre <+: ·.1))) ∅
    return (selected.toList.filter (·.2.isSome)).map Prod.fst

/-- Merge runs, the oldest last in the list. -/
def mergeRuns (flat : StdMap Bytes Hash) (runs : List Delta) : StdMap Bytes Hash :=
  runs.reverse.foldl StdMap.override flat

/-- The whole map of the view. -/
def references (v : NamespaceView) : Except String (StdMap Bytes Hash) :=
  match v.layout with
  | .tree root => (MetadataTree.new root).entries v.journal.getObject metadataPriority
  | .flat => .ok (StdMap.insertAll ∅ (v.journal.roots.toList.filter (namespacePrefix <+: ·.1)))
  | .runs ids => do
    let runs ← allRuns v.journal ids
    return mergeRuns ∅ runs

end Read

section Plan

variable [Digest]

/-- A new version. -/
structure Plan where
  /-- Its new objects. -/
  objects : List Bytes
  /-- Its manifest. -/
  manifest : Bytes
  /-- All payloads that were hashed to compute it, also those that are not objects of it. -/
  hashed : List Bytes

/-- Plan a tree. The first tree of a flat World takes over its roots. -/
def planTree (v : NamespaceView) (changes : Delta) : Except String Plan := do
  let (root, all) ← match v.layout with
    | .tree root => pure (root, changes)
    | _ => do
      let references ← v.references
      pure (Hash.zero, changes.emplaceAll (references.toList.map fun e => (e.1, some e.2)))
  match MetadataTree.apply v.journal.getObject metadataPriority all (MetadataTree.new root) with
  | .error e _ => .error e
  | .ok plan edited => .ok ⟨plan.objects, plan.manifest, edited.pending⟩

/-- The plan whose runs are the image of a complete map. -/
def planImage (complete : StdMap Bytes Hash) : Except String Plan := do
  need (namespaceRoot ∈ complete) "compaction would lose namespace root"
  let objects ← encodeImage complete
  let manifest ← encodeManifest (objects.map objectHash)
  return ⟨objects, manifest, objects⟩

/-- The runs of a view. -/
def runIds (v : NamespaceView) : List Hash :=
  match v.layout with
  | .runs ids => ids
  | _ => []

/-- Whether a view is flat. -/
def legacy (v : NamespaceView) : Bool :=
  match v.layout with
  | .flat => true
  | _ => false

/-- Plan runs: an image for a flat World, otherwise one more run in front. -/
def planRuns (v : NamespaceView) (changes : Delta) (compact : Bool) : Except String Plan := do
  if v.legacy ∨ compact then
    let references ← v.references
    planImage (references.override changes)
  else if changes.toList = [] then
    let manifest ← encodeManifest v.runIds
    return ⟨[], manifest, []⟩
  else
    let b ← encodeRun changes
    -- An identical delta in front is already represented.
    if v.runIds.head? = some (objectHash b) then
      let manifest ← encodeManifest v.runIds
      return ⟨[], manifest, [b]⟩
    else
      let manifest ← encodeManifest (objectHash b :: v.runIds.filter (· ≠ objectHash b))
      return ⟨[b], manifest, [b]⟩

/-- Plan the next version. -/
def plan (v : NamespaceView) (changes : Delta) (compact : Bool) : Except String Plan :=
  if v.journal.leveldb then planTree v changes else planRuns v changes compact

/-- The immutable input of a compaction. -/
structure Frozen where
  /-- The references of a flat World. -/
  flat : StdMap Bytes Hash
  /-- The payloads of the runs. -/
  runs : List Bytes

/-- Take the input of a compaction. -/
def freeze (v : NamespaceView) : Except String Frozen :=
  match v.layout with
  | .flat => do
    let references ← v.references
    return ⟨references, []⟩
  | .tree _ => .ok ⟨∅, []⟩
  | .runs ids => do
    let runs ← ids.mapM v.journal.getObject
    return ⟨∅, runs⟩

/-- Merge the frozen input into an image. -/
def compactFrozen (input : Frozen) : Except String Plan := do
  let runs ← input.runs.mapM decodeRun
  planImage (mergeRuns input.flat runs)

end Plan

end NamespaceView

end ForkFs
