import ForkFs.Container.CoherentRuns

/-!
# The roots of the filesystem are labelled

Every root in the reserved part of the key space is one of those that the filesystem uses. This
holds along every run: batches of the filesystem bind no other reserved keys, and those of the user
bind none. Worlds and revisions have valid names.
-/

namespace ForkFs

open Bytes Outcome

section Batches

variable [Digest] {s s' : LevelStore} {mutations : List Mutation} {world : Bytes}
  {v : NamespaceView} {edits : List Edit} {b : Commit} {ns : Namespace}

/-- A root of the filesystem that can be given a name has a valid one. -/
def RootName.Valid : RootName → Prop
  | .world name => NamespaceView.validName name
  | .revision name => NamespaceView.validName name
  | .base name => NamespaceView.validName name
  | _ => True

/-- The reserved roots are roots of the filesystem. -/
def LevelStore.Labelled (s : LevelStore) : Prop :=
  ∀ key ∈ s.roots, Container.reserved key → ∃ n : RootName, n.Valid ∧ key = n.key

/-- A batch that binds only such roots keeps that. -/
theorem LevelStore.Labelled.transacted (h : s.Labelled) (hstore : LevelStore.Transacted s mutations s')
    (hkeys : ∀ m ∈ mutations, m.target ≠ none → Container.reserved m.key →
      ∃ n : RootName, n.Valid ∧ m.key = n.key) : s'.Labelled := by
  intro key hkey hreserved
  obtain ⟨id, hid⟩ := StdMap.mem_iff.mp hkey
  rcases hstore.root_cases hid with ⟨m, hm, rfl, htarget⟩ | hold
  · exact hkeys m hm (by simp [htarget]) hreserved
  · exact h key (StdMap.mem_iff.mpr ⟨id, hold⟩) hreserved

/-- Fewer roots are labelled as well. -/
theorem LevelStore.Labelled.subset (h : s.Labelled)
    (hroots : ∀ (key : Bytes) id, s'.roots[key]? = some id → s.roots[key]? = some id) :
    s'.Labelled := by
  intro key hkey hreserved
  obtain ⟨id, hid⟩ := StdMap.mem_iff.mp hkey
  exact h key (StdMap.mem_iff.mpr ⟨id, hroots key id hid⟩) hreserved

theorem CommitPlanned.labelled (h : CommitPlanned world v (Edit.changes edits) b) {m : Mutation}
    (hworld : NamespaceView.validName world) (hm : m ∈ b.mutations) :
    ∃ n : RootName, n.Valid ∧ m.key = n.key := by
  have hchange {e : Bytes × Option Bytes} (he : e ∈ (Edit.changes edits).toList) :
      ∃ n : RootName, n.Valid ∧ e.1 = n.key := by
    obtain ⟨edit, -, rfl⟩ := mem_changes he
    exact ⟨edit.name, by cases edit <;> trivial, rfl⟩
  cases h with
  | flat hlegacy hroot =>
    obtain ⟨e, he, rfl⟩ := List.mem_map.mp hm
    exact hchange he
  | retained hinit hrecords =>
    obtain ⟨e, he, rfl⟩ := List.mem_map.mp hm
    exact hchange (List.mem_of_mem_filter he)
  | version hinit hrecords plan hplan =>
    rcases mem_versionCommit_mutations.mp hm with ⟨e, he, rfl⟩ | ⟨e, he, rfl⟩ | rfl
    · exact hchange (List.mem_of_mem_filter he)
    · rcases mem_versionObjects he with ⟨x, -, rfl⟩ | ⟨change, hmem, hpre, -, rfl⟩
      · exact ⟨.object _, trivial, rfl⟩
      · obtain ⟨edit, -, rfl⟩ := mem_changes (List.mem_of_mem_filter hmem)
        obtain ⟨id, rfl⟩ := Edit.eq_allocated_of_isPrefix hpre
        exact ⟨.allocated id, trivial, rfl⟩
    · exact ⟨.world world, hworld, rfl⟩

theorem SnapshotPlanned.labelled {name : Bytes} {id : Hash} (h : SnapshotPlanned ns s name id b)
    (hname : NamespaceView.validName name) {m : Mutation} (hm : m ∈ b.mutations) :
    ∃ n : RootName, n.Valid ∧ m.key = n.key := by
  cases h with
  | record v manifest parent staged record hfresh hv hstaged hparent hrecord =>
    rcases List.mem_append.mp hm with hm | hm
    · obtain ⟨x, rfl, -⟩ := hstaged.registered m hm
      exact ⟨.object (objectHash x), trivial, rfl⟩
    · rcases List.mem_cons.mp hm with rfl | hm
      · exact ⟨.revision name, hname, rfl⟩
      · rw [List.mem_singleton.mp hm]
        exact ⟨.base ns.view, validName_of_open hv, rfl⟩

theorem ForkPlanned.labelled {revision : Bytes} (h : ForkPlanned s revision world b)
    (hworld : NamespaceView.validName world) {m : Mutation} (hm : m ∈ b.mutations) :
    ∃ n : RootName, n.Valid ∧ m.key = n.key := by
  cases h with
  | fork id manifest v record hfresh hbase hroot hobject hrecord hv =>
    rcases List.mem_cons.mp hm with rfl | hm
    · exact ⟨.world world, hworld, rfl⟩
    · rw [List.mem_singleton.mp hm]
      exact ⟨.base world, hworld, rfl⟩

end Batches

section Runs

variable [Digest] {payloads : Set Bytes} {c c' : Container} {ns : Namespace}
  {event : ContainerEvent}

/-- Names that can be opened are valid. -/
theorem validName_of_view {v : NamespaceView} (h : c.view ns = .ok v) :
    NamespaceView.validName ns.view := by
  unfold Container.view NamespaceView.open_ at h
  obtain ⟨_, hname, -⟩ := bind_eq_ok.mp h
  exact need_eq_ok.mp hname

theorem Commits.labelled {world : Bytes} {v : NamespaceView} {edits : List Edit}
    {created : Option InodeId} (h : Commits c world v edits created c')
    (hworld : NamespaceView.validName world) (hc : c.store.Labelled) : c'.store.Labelled := by
  cases h with
  | nothing => exact hc
  | batch b store hedits hplan hstore =>
    exact hc.transacted (LevelStore.transact_eq_ok hstore) fun m hm _ _ =>
      (planCommit_eq_ok hplan).labelled hworld hm

theorem Performed.labelled {op : NamespaceCall} (h : Performed ns op c c') (hc : c.store.Labelled) :
    c'.store.Labelled := by
  cases h with
  | unchanged | duplicated | closed | moved | locked => exact hc
  | updated v edits created _ hworld hv hplanned hcommit => exact hcommit.labelled (validName_of_view hv) hc
  | wroteNext v edits created c₁ token h position hworld hv hplanned hcommit htoken =>
    exact hcommit.labelled (validName_of_view hv) hc
  | opened v env path o opening token h _ hworld hmode hlimit hv hopening hfresh hhandle hcommit =>
    exact hcommit.labelled (validName_of_view hv) hc
  | snapshot name id b store hname hworld hplan hstore =>
    exact hc.transacted (LevelStore.transact_eq_ok hstore) fun m hm _ _ =>
      (planSnapshot_eq_ok hplan).labelled hname hm
  | forked revision world b store hname hname' hmain hworld hplan hstore =>
    exact hc.transacted (LevelStore.transact_eq_ok hstore) fun m hm _ _ =>
      (planFork_eq_ok hplan).labelled hname' hm
  | dropped token h store hop htoken hview hrev hworld hcount horphan hstore =>
    refine hc.transacted (LevelStore.transact_eq_ok hstore) fun m hm htarget _ => ?_
    rcases List.mem_cons.mp hm with rfl | hm
    · exact absurd rfl htarget
    · rw [List.mem_singleton.mp hm] at htarget
      exact absurd rfl htarget

theorem labelled_dropsAll (h : c.DropsAll c') (hc : c.store.Labelled) : c'.store.Labelled := by
  induction h with
  | refl => exact hc
  | tail _ hdrop ih =>
    obtain ⟨keys, store, -, hstore, rfl⟩ := hdrop
    refine ih.transacted (LevelStore.transact_eq_ok hstore) fun m hm htarget _ => ?_
    obtain ⟨key, -, rfl⟩ := List.mem_map.mp hm
    exact absurd rfl htarget

/-- An event binds no other reserved roots. -/
theorem Container.Happened.labelled (h : c.Happened event c') (hs : c.store.Closed)
    (hcf : CollisionFree payloads) (hknown : Known c.store payloads) (hc : c.store.Labelled) :
    c'.store.Labelled := by
  cases h with
  | refused | pinned => exact hc
  | performed world env op _ hperformed => exact hperformed.labelled hc
  | user op expected mutations store hkeys hstore =>
    exact hc.transacted (LevelStore.transact_eq_ok hstore) fun m hm _ hreserved =>
      absurd hreserved (hkeys m hm)
  | collected removed store hhandles hpins hplan =>
    have hcollected := planCollect_spec hs hcf hknown hplan
    exact hc.subset fun key id hid => ((hcollected.root key id).mp hid).1
  | restarted interrupted _ hdrops => exact labelled_dropsAll hdrops hc

end Runs

end ForkFs
