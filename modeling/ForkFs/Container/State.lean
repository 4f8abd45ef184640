import ForkFs.Container.Table
import ForkFs.LevelStore.Store
import ForkFs.Namespace.Operations

/-!
# The open repository

A container owns a store, the table of open files and the number of live directory cursors.
Its methods run one after the other under one mutex. A method is a computation that keeps what
it changed before an exception, so that the order of the source's assignments matters.

`hashed` and `created` record, for the statements about whole runs, which payloads were given an
identity by the committed batches and which inodes these batches created. Nothing reads them.
-/

namespace ForkFs

open Bytes

variable [Digest]

/-- An open repository. -/
structure Container where
  /-- The database. -/
  store : LevelStore
  /-- The open files. -/
  table : HandleTable
  /-- The pins of live directory cursors. -/
  directoryPins : List ℕ
  /-- The payloads that committed batches gave an identity. -/
  hashed : List Bytes
  /-- The inodes that committed batches created. -/
  created : List InodeId

/-- A method of the container. -/
abbrev Method (α : Type) := EStateM String Container α

/-- A World or revision of a container. -/
structure Namespace where
  /-- Its name. -/
  view : Bytes
  /-- Whether it is a revision. -/
  revision : Bool
deriving DecidableEq

namespace Container

/-- A container on a store, without open files. -/
def opened (store : LevelStore) : Container := ⟨store, .empty, [], [], []⟩

/-- A new repository. -/
def create : Container := opened LevelStore.create

end Container

section Commit

/-- A batch of mutations, with the payloads that were hashed to build it. -/
structure Commit where
  /-- The mutations. -/
  mutations : List Mutation
  /-- The payloads that were given an identity. -/
  hashed : List Bytes

/-- Store a value under a root, or delete the root. -/
def Mutation.assign (key : Bytes) (value : Option Bytes) : Mutation := ⟨key, value, none⟩

/-- What the keys of orphans start with. -/
def orphans : Bytes := history ++ ascii "orphan/"

/-- What the keys of allocation records start with. -/
def allocations : Bytes := namespacePrefix ++ ascii "allocated/"

/-- The registry entry of a payload, unless the journal has it. -/
def Catalog.registry (j : Catalog) (payload : Bytes) : List (Bytes × Bytes) :=
  let key := (RootName.object (objectHash payload)).key
  if key ∈ j.roots then [] else [(key, payload)]

/-- The registry entries of one changed record. -/
def Catalog.newObjects (j : Catalog) (e : Bytes × Option Bytes) : List (Bytes × Bytes) :=
  match e.2 with
  | none => []
  | some value => j.registry value ++
      if allocations <+: e.1 then
        [(history ++ (ascii "allocated/" ++ e.1.drop allocations.length), [])]
      else []

/-- The batch that commits changes to a World: assignments of flat records when it is
initialised, otherwise a new version of the World with its registry entries. -/
def planCommit (world : Bytes) (v : NamespaceView) (changes : StdMap Bytes (Option Bytes)) :
    Except String Commit := do
  let flat ← if v.legacy then do
      let found ← v.contains namespaceRoot
      pure (!found)
    else pure false
  let all := changes.toList
  let values := all.filterMap Prod.snd
  if flat then return ⟨all.map fun e => .assign e.1 e.2, values⟩
  else
    let retained := (all.filter (orphans <+: ·.1)).map fun e => Mutation.assign e.1 e.2
    let records := all.filter (¬ orphans <+: ·.1)
    if records = [] then return ⟨retained, values⟩
    else
      let delta : Delta := StdMap.insertAll ∅ (records.map fun e => (e.1, e.2.map objectHash))
      let plan ← v.plan delta false
      let newObjects : StdMap Bytes Bytes := StdMap.emplaceAll ∅
        (records.flatMap v.journal.newObjects ++ plan.objects.flatMap v.journal.registry)
      return ⟨retained ++ newObjects.toList.map (fun e => .assign e.1 (some e.2)) ++
          [.assign (RootName.world world).key (some plan.manifest)],
        values ++ plan.hashed ++ plan.objects ++ [plan.manifest]⟩

section PlanCommit

/-- The changes of orphans, which are roots of their own. -/
def retainedChanges (changes : StdMap Bytes (Option Bytes)) : List (Bytes × Option Bytes) :=
  changes.toList.filter (orphans <+: ·.1)

/-- The changes of records of a World. -/
def recordChanges (changes : StdMap Bytes (Option Bytes)) : List (Bytes × Option Bytes) :=
  changes.toList.filter (¬ orphans <+: ·.1)

/-- The changes of references of a World. -/
def recordDelta (changes : StdMap Bytes (Option Bytes)) : Delta :=
  StdMap.insertAll ∅ ((recordChanges changes).map fun e => (e.1, e.2.map objectHash))

/-- The registry entries of a new version. -/
def versionObjects (v : NamespaceView) (changes : StdMap Bytes (Option Bytes))
    (plan : NamespaceView.Plan) : StdMap Bytes Bytes :=
  StdMap.emplaceAll ∅ ((recordChanges changes).flatMap v.journal.newObjects ++
    plan.objects.flatMap v.journal.registry)

/-- The batch that commits a new version. -/
def versionCommit (world : Bytes) (v : NamespaceView) (changes : StdMap Bytes (Option Bytes))
    (plan : NamespaceView.Plan) : Commit :=
  ⟨((retainedChanges changes).map fun e => .assign e.1 e.2) ++
    ((versionObjects v changes plan).toList.map fun e => .assign e.1 (some e.2)) ++
    [.assign (RootName.world world).key (some plan.manifest)],
    changes.toList.filterMap Prod.snd ++ plan.hashed ++ plan.objects ++ [plan.manifest]⟩

/-- The batches that commit changes to a World. -/
inductive CommitPlanned (world : Bytes) (v : NamespaceView)
    (changes : StdMap Bytes (Option Bytes)) : Commit → Prop
  /-- The World is initialised. -/
  | flat (hlegacy : v.legacy) (hroot : v.contains namespaceRoot = .ok false) :
      CommitPlanned world v changes
        ⟨changes.toList.map fun e => .assign e.1 e.2, changes.toList.filterMap Prod.snd⟩
  /-- Only orphans change. -/
  | retained (hinit : v.legacy → v.contains namespaceRoot = .ok true)
      (hrecords : recordChanges changes = []) :
      CommitPlanned world v changes
        ⟨(retainedChanges changes).map fun e => .assign e.1 e.2, changes.toList.filterMap Prod.snd⟩
  /-- The World gets a new version. -/
  | version (hinit : v.legacy → v.contains namespaceRoot = .ok true)
      (hrecords : recordChanges changes ≠ []) (plan : NamespaceView.Plan)
      (hplan : v.plan (recordDelta changes) false = .ok plan) :
      CommitPlanned world v changes (versionCommit world v changes plan)

variable {world : Bytes} {v : NamespaceView} {changes : StdMap Bytes (Option Bytes)} {b : Commit}

theorem mem_versionCommit_mutations {plan : NamespaceView.Plan} {m : Mutation} :
    m ∈ (versionCommit world v changes plan).mutations ↔
      (∃ e ∈ retainedChanges changes, m = .assign e.1 e.2) ∨
      (∃ e ∈ (versionObjects v changes plan).toList, m = .assign e.1 (some e.2)) ∨
      m = .assign (RootName.world world).key (some plan.manifest) := by
  simp [versionCommit, eq_comm]

theorem mem_versionCommit_hashed {plan : NamespaceView.Plan} {x : Bytes} :
    x ∈ (versionCommit world v changes plan).hashed ↔ x ∈ changes.toList.filterMap Prod.snd ∨
      x ∈ plan.hashed ∨ x ∈ plan.objects ∨ x = plan.manifest := by
  simp [versionCommit]

theorem planCommit_eq_ok (h : planCommit world v changes = .ok b) :
    CommitPlanned world v changes b := by
  have hversion (hinit : v.legacy → v.contains namespaceRoot = .ok true)
      (h : (if recordChanges changes = [] then
          (.ok ⟨(retainedChanges changes).map fun e => .assign e.1 e.2,
            changes.toList.filterMap Prod.snd⟩ : Except String Commit)
        else do
          let plan ← v.plan (recordDelta changes) false
          return versionCommit world v changes plan) = .ok b) : CommitPlanned world v changes b := by
    split at h
    · rename_i hrecords
      cases h
      exact .retained hinit hrecords
    · rename_i hrecords
      obtain ⟨plan, hplan, h⟩ := Outcome.bind_eq_ok.mp h
      cases h
      exact .version hinit hrecords plan hplan
  unfold planCommit at h
  cases hlegacy : v.legacy with
  | false =>
    rw [hlegacy] at h
    exact hversion (fun h => by rw [hlegacy] at h; cases h) h
  | true =>
    rw [hlegacy] at h
    obtain ⟨found, hfound, h⟩ := Outcome.bind_eq_ok.mp h
    cases found with
    | true => exact hversion (fun _ => hfound) h
    | false =>
      cases h
      exact .flat hlegacy hfound

end PlanCommit

/-- Commit a batch at the current sequence. -/
def transact (commit : Commit) (created : Option InodeId) : Method Unit := do
  let c ← get
  let store ← attempt (c.store.transact c.store.sequence commit.mutations)
  set { c with
    store := store, hashed := c.hashed ++ commit.hashed, created := c.created ++ created.toList }

namespace Namespace

variable (ns : Namespace)

/-- The current version. -/
def current : Method NamespaceView := do
  let c ← get
  attempt (NamespaceView.open_ c.store.catalog ns.view ns.revision true)

/-- Fail on a revision. -/
def needWorld : Method Unit :=
  attempt (need (ns.revision = false) "revision view is read-only")

/-- Commit the edits of an operation on a version, if there are any. -/
def commitChanges {α : Type} (v : NamespaceView) (effect : Effect α) : Method Unit :=
  if effect.edits = [] then pure ()
  else do
    let batch ← attempt (planCommit ns.view v (Edit.changes effect.edits))
    transact batch effect.created

/-- Run an operation on the current version and commit its edits. -/
def update {α : Type} (operation : NamespaceView → Except String (Effect α)) : Method α := do
  ns.needWorld
  let v ← ns.current
  let effect ← attempt (operation v)
  ns.commitChanges v effect
  return effect.value

end Namespace

end Commit

end ForkFs
