import ForkFs.Container.Events

/-!
# Reachable containers

The table of open files is consistent in every reachable container. Therefore the operations on
Worlds are atomic there: one that throws changes nothing, and one that returns has committed at
most one batch.
-/

namespace ForkFs

open Bytes Outcome

section Runs

variable [Digest]

section Tables

/-- The invariants of the table of open files. -/
structure HandleTable.Consistent (t : HandleTable) : Prop where
  /-- Descriptions live as long as descriptors. -/
  described : t.Described
  /-- The counts are right. -/
  counts : t.CountsRight
  /-- The locks do not conflict. -/
  locks : t.LocksRight

omit [Digest] in
theorem HandleTable.Consistent.step {t t' : HandleTable} (h : t.Consistent) (hstep : t.Step t') :
    t'.Consistent :=
  ⟨h.described.step hstep, h.counts.step hstep, h.locks.step h.described hstep⟩

omit [Digest] in
theorem HandleTable.consistent_empty : HandleTable.Consistent .empty :=
  ⟨described_empty, countsRight_empty, locksRight_empty⟩

variable {ns : Namespace} {op : NamespaceCall} {c c' : Container}

theorem Commits.table {world : Bytes} {v : NamespaceView} {edits : List Edit}
    {created : Option InodeId} (h : Commits c world v edits created c') : c'.table = c.table := by
  cases h <;> rfl

theorem Performed.step (h : Performed ns op c c') : c.table.Step c'.table := by
  cases h with
  | unchanged => exact .same
  | updated v edits created _ hworld hv hplanned hcommit =>
    rw [hcommit.table]
    exact .same
  | wroteNext v edits created c₁ token h position hworld hv hplanned hcommit htoken =>
    change c.table.Step (c₁.table.moveTo h position)
    rw [hcommit.table]
    exact .moved token h htoken position
  | snapshot | forked => exact .same
  | opened v env path o opening token h _ hworld hmode hlimit hv hopening hfresh hhandle hcommit =>
    rw [hcommit.table]
    exact .opened token h hfresh hhandle.2.2.2
  | duplicated source token h hsource hview hrevision hlimit hfresh =>
    exact .duplicated source token h hsource hfresh
  | closed token h hop htoken hview hrevision hkept => exact .closed token h htoken
  | dropped token h store hop htoken hview hrevision hworld hcount horphan hstore => exact .closed token h htoken
  | moved token h position htoken => exact .moved token h htoken position
  | locked token h mode start stop length hop hend htoken hview hrevision hlt hstop hfree hlength =>
    exact .locked token h htoken mode start stop hlt hstop hfree hlength

/-- What an event can do to the table. -/
theorem Container.step_table {event : ContainerEvent} (hc : c.table.Consistent)
    (h : c.step event = .ok c') : c.table.Step c'.table := by
  cases step_happened hc.described hc.counts h with
  | performed ns env op _ hperformed => exact hperformed.step
  | refused | user | pinned | collected => exact .same
  | restarted interrupted _ hdrops =>
    obtain ⟨store, rfl⟩ := dropsAll_frame hdrops
    exact .reset

/-- The table of every reachable container is consistent. -/
theorem Container.run_table {events : List ContainerEvent} (h : Container.run events = .ok c) :
    c.table.Consistent :=
  Container.run_induction (P := fun c => c.table.Consistent) HandleTable.consistent_empty
    (fun _ _ _ hc hstep => hc.step (step_table hc hstep)) h

/-- What holds of a new repository and survives every event holds of every reachable one. -/
theorem Container.run_invariant {P : Container → Prop} (hcreate : P Container.create)
    (hstep : ∀ c event c', c.table.Consistent → P c → c.Happened event c' → P c')
    {events : List ContainerEvent} (h : Container.run events = .ok c) : P c := by
  have hboth : c.table.Consistent ∧ P c := by
    refine Container.run_induction (P := fun c => c.table.Consistent ∧ P c)
      ⟨HandleTable.consistent_empty, hcreate⟩ ?_ h
    rintro c event c' ⟨ht, hc⟩ hevent
    exact ⟨ht.step (step_table ht hevent),
      hstep c event c' ht hc (step_happened ht.described ht.counts hevent)⟩
  exact hboth.2

end Tables

section Atomicity

variable {ns : Namespace} {op : NamespaceCall} {c c' : Container}

/-- At most one batch was committed. -/
def OneBatch (s s' : LevelStore) : Prop :=
  s' = s ∨ ∃ expected mutations, s.transact expected mutations = .ok s'

theorem Commits.oneBatch {world : Bytes} {v : NamespaceView} {edits : List Edit}
    {created : Option InodeId} (h : Commits c world v edits created c') :
    OneBatch c.store c'.store := by
  cases h with
  | nothing => exact Or.inl rfl
  | batch b store hedits hplan hstore => exact Or.inr ⟨_, _, hstore⟩

theorem Performed.oneBatch (h : Performed ns op c c') : OneBatch c.store c'.store := by
  cases h with
  | unchanged | duplicated | closed | moved | locked => exact Or.inl rfl
  | updated v edits created _ hworld hv hplanned hcommit => exact hcommit.oneBatch
  | wroteNext v edits created c₁ token h position hworld hv hplanned hcommit htoken =>
    exact hcommit.oneBatch
  | snapshot name id b store hname hworld hplan hstore => exact Or.inr ⟨_, _, hstore⟩
  | forked revision world b store hrevision hname hmain hworld hplan hstore =>
    exact Or.inr ⟨_, _, hstore⟩
  | opened v env path o opening token h _ hworld hmode hlimit hv hopening hfresh hhandle hcommit =>
    exact hcommit.oneBatch
  | dropped token h store hop htoken hview hrevision hworld hcount horphan hstore => exact Or.inr ⟨_, _, hstore⟩

/-- An operation on a World or revision of a reachable container that throws changes nothing, and
one that returns has committed at most one batch. -/
theorem namespaceCall_atomic {events : List ContainerEvent} (h : Container.run events = .ok c)
    (ns : Namespace) (env : Env) (op : NamespaceCall) :
    (∀ message c', op.method ns env c = .error message c' → c' = c) ∧
      ∀ c', op.method ns env c = .ok () c' → OneBatch c.store c'.store := by
  have htable := Container.run_table h
  have hattains := op.attains htable.described htable.counts ns env
  exact ⟨fun message c' herror => hattains.error_eq herror,
    fun c' hok => (hattains.of_ok hok).oneBatch⟩

end Atomicity

end Runs

section Samples

local instance reachableDigest : Digest := sha256

/-- An inode identity. -/
def sampleId : InodeId := ⟨List.replicate 32 48, by decide +kernel⟩

/-- The first World. -/
def sampleMain : Namespace := ⟨ascii "main", false⟩

/-- An entropy source that repeats itself. -/
def sampleEnv : Env := ⟨fun _ => 0, List.replicate 8 sampleId⟩

/-- The initialisation of the first World. -/
def sampleInit : ContainerEvent := .call (.onView sampleMain sampleEnv .fsInit)

/-- In a new World with a root directory, a directory cannot be created from the entropy that gave
the root its identity. -/
theorem namespaceCall_atomic_sample : ∃ c, Container.run [sampleInit] = .ok c ∧
    c.created = [sampleId] ∧
    ((NamespaceCall.mkdir (ascii "/a") 0o755).method sampleMain sampleEnv c =
      .error "inode identity collision" c) ∧
    (∀ message c', (NamespaceCall.mkdir (ascii "/a") 0o755).method sampleMain sampleEnv c =
      .error message c' → c' = c) ∧
    ∀ c', (NamespaceCall.mkdir (ascii "/a") 0o755).method sampleMain sampleEnv c = .ok () c' →
      OneBatch c.store c'.store := by
  have hrun : Container.run [sampleInit] =
      .ok (after (NamespaceCall.fsInit.method sampleMain sampleEnv) .create) := rfl
  have hatomic := namespaceCall_atomic hrun sampleMain sampleEnv (.mkdir (ascii "/a") 0o755)
  refine ⟨_, hrun, by decide +kernel, ?_, hatomic⟩
  have hmessage : (match (NamespaceCall.mkdir (ascii "/a") 0o755).method sampleMain sampleEnv
      (after (NamespaceCall.fsInit.method sampleMain sampleEnv) .create) with
    | .ok _ _ => none
    | .error message _ => some message) = some "inode identity collision" := by decide +kernel
  cases hmkdir : (NamespaceCall.mkdir (ascii "/a") 0o755).method sampleMain sampleEnv
      (after (NamespaceCall.fsInit.method sampleMain sampleEnv) .create) with
  | ok u c' =>
    rw [hmkdir] at hmessage
    cases hmessage
  | error message c' =>
    rw [hmkdir] at hmessage
    cases hmessage
    rw [hatomic.1 _ c' hmkdir]

end Samples

end ForkFs
