import ForkFs.Container.Coherence

/-!
# Coherence along runs

Every event keeps a repository coherent. A restart deletes all orphans with the descriptors that
kept them; a collection runs only when there are none.
-/

namespace ForkFs

open Bytes Outcome

section Coherence

variable [Digest] {payloads : Set Bytes} {c c' : Container} {ns : Namespace}

section Restart

/-- Roots that are left by a batch of deletions. -/
theorem roots_of_deletes {batch : List Mutation} (hbatch : ∀ m ∈ batch, m.target = none) {u : Unit}
    (h : transact ⟨batch, []⟩ none c = .ok u c') {key : Bytes} (hkey : key ∈ c'.store.roots) :
    key ∈ c.store.roots ∧ key ∉ batch.map Mutation.key := by
  obtain ⟨store, hstore, rfl⟩ := (attains_transact _ _ c).of_ok h
  have htransacted := LevelStore.transact_eq_ok hstore
  obtain ⟨id, hid⟩ := StdMap.mem_iff.mp hkey
  have hnot : key ∉ batch.map Mutation.key := by
    intro hmem
    obtain ⟨m, hm, rfl⟩ := List.mem_map.mp hmem
    have hnone := (htransacted.bound m hm).trans (hbatch m hm)
    cases hnone.symm.trans hid
  exact ⟨StdMap.mem_iff.mpr ⟨id, (htransacted.frame key hnot).symm.trans hid⟩, hnot⟩

/-- Roots that are left by a deletion of all roots in a list. -/
theorem roots_of_deleteAll {keys : List Bytes} {batch : List Mutation}
    (hbatch : ∀ m ∈ batch, m.target = none) {u : Unit}
    (h : Container.deleteAll keys batch c = .ok u c') {key : Bytes} (hkey : key ∈ c'.store.roots) :
    key ∈ c.store.roots ∧ key ∉ keys ∧ key ∉ batch.map Mutation.key := by
  induction keys generalizing batch c u with
  | nil =>
    unfold Container.deleteAll at h
    split at h
    · rename_i hnil
      cases h
      exact ⟨hkey, by simp, by simp [hnil]⟩
    · obtain ⟨hold, hnot⟩ := roots_of_deletes hbatch h hkey
      exact ⟨hold, by simp, hnot⟩
  | cons first keys ih =>
    unfold Container.deleteAll at h
    obtain ⟨_, c₁, hcheck, h⟩ := run_bind_eq_ok.mp h
    obtain ⟨-, rfl⟩ := attempt_eq_ok.mp hcheck
    have hnext : ∀ m ∈ batch ++ [.assign first none], m.target = none := by
      intro m hm
      rcases List.mem_append.mp hm with hm | hm
      · exact hbatch m hm
      · rw [List.mem_singleton.mp hm]
        rfl
    have hsplit (hnot : key ∉ (batch ++ [Mutation.assign first none]).map Mutation.key) :
        key ≠ first ∧ key ∉ batch.map Mutation.key := by
      rw [List.map_append, List.mem_append, not_or] at hnot
      exact ⟨fun heq => hnot.2 (by simp [heq, Mutation.assign]), hnot.1⟩
    split at h
    · obtain ⟨_, c₂, hfull, h⟩ := run_bind_eq_ok.mp h
      obtain ⟨hold, hkeys, -⟩ := ih (by simp) h
      obtain ⟨hold, hnot⟩ := roots_of_deletes hnext hfull hold
      obtain ⟨hfirst, hnot⟩ := hsplit hnot
      exact ⟨hold, by simp [hfirst, hkeys], hnot⟩
    · obtain ⟨hold, hkeys, hnot⟩ := ih hnext h
      obtain ⟨hfirst, hnot⟩ := hsplit hnot
      exact ⟨hold, by simp [hfirst, hkeys], hnot⟩

/-- A restart leaves no orphan roots. -/
theorem no_orphans_of_restart {interrupted : List ℕ} (h : c.restart interrupted = .ok c')
    {key : Bytes} (hkey : orphans <+: key) : key ∉ c'.store.roots := by
  unfold Container.restart at h
  split at h
  · rename_i c₁ hrecover
    cases h
    unfold Container.recoverOrphans at hrecover
    rw [get_bind] at hrecover
    intro hmem
    obtain ⟨hold, hnot, -⟩ := roots_of_deleteAll (by simp) hrecover hmem
    exact hnot (Catalog.mem_keys.mpr ⟨hold, hkey⟩)
  · cases h

end Restart

section Operations

/-- Orphans are untouched by batches on other roots. -/
theorem LevelStore.Orphaned.frame {s s' : LevelStore} {world : Bytes} {o : Orphans}
    {mutations : List Mutation} (h : s.Orphaned world o)
    (hstore : LevelStore.Transacted s mutations s')
    (hspare : ∀ m ∈ mutations, ∀ n : RootName, n.OrphanOf world → m.key ≠ n.key) :
    s'.Orphaned world o := by
  intro n hn
  refine h.record_of_root hn (hstore.frame _ fun hmem => ?_) hstore.extends_
  obtain ⟨m, hm, hkey⟩ := List.mem_map.mp hmem
  exact hspare m hm n hn hkey

omit [Digest] in
/-- The other roots are not those of orphans. -/
theorem RootName.OrphanOf.ne_key {world : Bytes} {n : RootName} (h : n.OrphanOf world)
    (other : RootName) (hother : ¬ other.OrphanOf world) : other.key ≠ n.key := by
  intro hkey
  rw [RootName.key_injective hkey] at hother
  exact hother h

/-- A snapshot sets no orphan root. -/
theorem SnapshotPlanned.ne_orphan {s : LevelStore} {name world : Bytes} {id : Hash} {b : Commit}
    (h : SnapshotPlanned ns s name id b) {m : Mutation} (hm : m ∈ b.mutations) {n : RootName}
    (hn : n.OrphanOf world) : m.key ≠ n.key := by
  cases h with
  | record v manifest parent staged record hfresh hv hstaged hparent hrecord =>
    rcases List.mem_append.mp hm with hm | hm
    · obtain ⟨x, rfl, -⟩ := hstaged.registered m hm
      exact hn.ne_key (.object (objectHash x)) id
    · rcases List.mem_cons.mp hm with rfl | hm
      · exact hn.ne_key (.revision name) id
      · rw [List.mem_singleton.mp hm]
        exact hn.ne_key (.base ns.view) id

/-- A fork sets no orphan root. -/
theorem ForkPlanned.ne_orphan {s : LevelStore} {revision fork world : Bytes} {b : Commit}
    (h : ForkPlanned s revision fork b) {m : Mutation} (hm : m ∈ b.mutations) {n : RootName}
    (hn : n.OrphanOf world) : m.key ≠ n.key := by
  cases h with
  | fork id manifest v record hfresh hbase hroot hobject hrecord hv =>
    rcases List.mem_cons.mp hm with rfl | hm
    · exact hn.ne_key (.world fork) fun hfalse => hfalse
    · rw [List.mem_singleton.mp hm]
      exact hn.ne_key (.base fork) fun hfalse => hfalse

/-- The file system that a version shows. -/
theorem LevelStore.Depicted.pictures {s : LevelStore} {v : NamespaceView} {fs : Filesystem}
    (h : s.Depicted ns fs) (hfs : fs.Consistent) (hv : s.view ns = .ok v) : v.Pictures fs := by
  obtain ⟨v', m, hv', hshows, hdepicts⟩ := h
  obtain rfl : v = v' := Except.ok.inj (hv.symm.trans hv')
  exact hdepicts.pictures hshows fun id n hn => (hfs.inode id n hn).valid

/-- Operations of a World keep the repository coherent. -/
theorem Container.Coherent.planned {world : Bytes} {v : NamespaceView} {edits : List Edit}
    {created : Option InodeId} (hc : c.Coherent) (ht : c.table.Consistent)
    (hsettled : Settled payloads c c') (hhashed : ∀ x ∈ c'.hashed, x ∈ payloads)
    (hv : c.store.view ⟨world, false⟩ = .ok v) (hplanned : Planned c world v edits created)
    (hcommit : Commits c world v edits created c') : c'.Coherent := by
  refine hc.commit hsettled hhashed hv hcommit fun fs o hdepicted hfs ho hright => ?_
  have hjournal : v.journal = c.store.catalog := view_journal (c := c) hv
  exact hplanned.evolves hright (hdepicted.pictures hfs hv) hfs (ho.keeps hjournal) ht.counts

/-- A commit does not depend on the table. -/
theorem Commits.retable {t : HandleTable} {world : Bytes} {v : NamespaceView} {edits : List Edit}
    {created : Option InodeId} (h : Commits { c with table := t } world v edits created c') :
    Commits c world v edits created { c' with table := c.table } := by
  cases h with
  | nothing hedits => exact .nothing hedits
  | batch b store hedits hplan hstore => exact .batch b store hedits hplan hstore

/-- Settled stores are settled with any table. -/
theorem Settled.retable (h : Settled payloads c c') (t : HandleTable) :
    Settled payloads c { c' with table := t } :=
  ⟨h.free, h.closed, h.closed', h.known, h.known'⟩

omit [Digest] in
/-- The descriptors after one was added. -/
theorem isOpen_of_add {t t' : HandleTable} {token : Bytes} {h : OpenHandle} {world : Bytes}
    {id : InodeId} (ht : t.CountsRight) (ht' : t'.CountsRight)
    (hhandles : t'.handles = t.handles.insert token h) (hopen : t'.isOpen world id = true) :
    t.isOpen world id = true ∨ h.revision = false ∧ h.view = world ∧ h.inode = id := by
  obtain ⟨x, hx, hmem, hfile⟩ := ht'.isOpen_iff.mp hopen
  rw [hhandles, StdMap.getElem?_insert] at hmem
  split at hmem
  · cases hmem
    exact .inr hfile
  · exact .inl (ht.isOpen_iff.mpr ⟨x, hx, hmem, hfile⟩)

omit [Digest] in
/-- Descriptors stay when one is added. -/
theorem isOpen_add {t t' : HandleTable} {token : Bytes} {h : OpenHandle} {world : Bytes}
    {id : InodeId} (ht : t.CountsRight) (ht' : t'.CountsRight) (hfresh : token ∉ t.handles)
    (hhandles : t'.handles = t.handles.insert token h) (hopen : t.isOpen world id = true) :
    t'.isOpen world id = true := by
  obtain ⟨x, hx, hmem, hfile⟩ := ht.isOpen_iff.mp hopen
  refine ht'.isOpen_iff.mpr ⟨x, hx, ?_, hfile⟩
  rw [hhandles, StdMap.getElem?_insert, if_neg, hmem]
  rintro rfl
  exact hfresh (StdMap.mem_iff.mpr ⟨hx, hmem⟩)

/-- A new descriptor keeps the repository coherent if its file is there. -/
theorem Container.Coherent.add {token : Bytes} {h : OpenHandle} (hc : c.Coherent)
    (ht : c.table.Consistent) (ht' : c'.table.Consistent) (hfresh : token ∉ c.table.handles)
    (hstore : c'.store = c.store) (hhandles : c'.table.handles = c.table.handles.insert token h)
    (hfile : ((∃ token' : Bytes, c.table.handles[token']? = some h)) ∨
      ∃ fs n, c.store.Depicted ⟨h.view, h.revision⟩ fs ∧ fs.Consistent ∧
        fs.inode h.inode = some n ∧ n.kind = .file) : c'.Coherent := by
  apply hc.retable hstore
  · intro world id hopen
    rcases isOpen_of_add ht.counts ht'.counts hhandles hopen with hopen | ⟨hrevision, rfl, rfl⟩
    · exact .inl hopen
    · rcases hfile with ⟨token', htoken'⟩ | hfile
      · exact .inl (ht.counts.isOpen_iff.mpr ⟨token', h, htoken', hrevision, rfl, rfl⟩)
      · rw [hrevision] at hfile
        exact .inr hfile
  · intro world id hopen
    exact .inl (isOpen_add ht.counts ht'.counts hfresh hhandles hopen)
  · intro x h' hx hrevision
    rw [hhandles, StdMap.getElem?_insert] at hx
    split at hx
    · cases hx
      rw [hrevision] at hfile
      exact hfile
    · exact .inl ⟨x, hx⟩

/-- An opened file is there. -/
theorem Container.Coherent.opened {v : NamespaceView} {env : Env} {path token : Bytes}
    {options : OpenOptions} {opening : Opening} {h : OpenHandle} {t : HandleTable} (hc : c.Coherent)
    (ht : c.table.Consistent) (ht' : c'.table.Consistent) (hsettled : Settled payloads c c')
    (hhashed : ∀ x ∈ c'.hashed, x ∈ payloads)
    (hworld : ns.revision → options.create = false ∧ options.truncate = false)
    (hmode : options.mode ≤ 0o777) (hv : c.store.view ns = .ok v)
    (hopening : v.openFile env path options = .ok opening) (hfresh : token ∉ c.table.handles)
    (hview : h.view = ns.view) (hinode : h.inode = opening.id) (hrevision : h.revision = ns.revision)
    (hcommit : Commits { c with table := t } ns.view v opening.effect.edits opening.effect.created c')
    (hhandles : c'.table.handles = c.table.handles.insert token h) : c'.Coherent := by
  have hcommitted := hcommit.retable
  have hsettled' := hsettled.retable c.table
  obtain ⟨name, _ | _⟩ := ns
  · -- A World: the edits are committed, and then the file is there.
    obtain ⟨fs, o, hdepicted, hfs, ho, hright⟩ := hc.world name v hv
    have hopened {fs : Filesystem} {o : Orphans} (hdepicted : c.store.Depicted ⟨name, false⟩ fs)
        (hfs : fs.Consistent) (hright : o.Right (c.table.isOpen name) fs) :
        Evolves name (c.table.isOpen name) fs o opening.effect.edits ∧ ∃ n,
          (fs.applyAll opening.effect.edits).inode opening.id = some n ∧ n.kind = .file :=
      Evolves.openFile hright (hdepicted.pictures hfs hv) hfs hmode hopening
    obtain ⟨hevolves, n, hn, hkind⟩ := hopened hdepicted hfs hright
    have hcoherent := hc.commit hsettled' hhashed hv hcommitted
      fun fs' o' hdepicted' hfs' _ hright' => (hopened hdepicted' hfs' hright').1
    refine hcoherent.add ht ht' hfresh rfl hhandles (.inr ⟨_, n, ?_, hevolves.consistent, ?_, hkind⟩)
    · rw [hview, hrevision]
      exact hcommitted.depicted hsettled' hhashed hv hdepicted
    · rw [hinode]
      exact hn
  · -- A revision: nothing is committed.
    obtain ⟨hcreate, htruncate⟩ := hworld rfl
    obtain ⟨fs, hdepicted, hfs⟩ := hc.revision name v hv
    obtain ⟨-, ⟨-, n, hn, hkind, hedits⟩ | hcreates⟩ :=
      (hdepicted.pictures hfs hv).openFile_eq_ok hfs hopening
    · rw [htruncate, if_neg (by simp)] at hedits
      have hstore : c'.store = c.store := by
        cases hcommit with
        | nothing => rfl
        | batch b store hne => exact absurd hedits hne
      refine hc.add ht ht' hfresh hstore hhandles (.inr ⟨fs, n, ?_, hfs, ?_, hkind⟩)
      · rw [hview, hrevision]
        exact hdepicted
      · rw [hinode]
        exact hn
    · cases hcreate.symm.trans hcreates.create

omit [Digest] in
/-- The open files after a descriptor was closed. -/
theorem isOpen_close {t t' : HandleTable} {token : Bytes} {h : OpenHandle} (ht : t.CountsRight)
    (ht' : t'.CountsRight) (htoken : t.handles[token]? = some h)
    (hhandles : t'.handles = t.handles.erase token) (world : Bytes) (id : InodeId) :
    t'.isOpen world id = if h.revision = false ∧ h.view = world ∧ h.inode = id ∧
      t.openCounts[h.file]?.getD 0 = 1 then false else t.isOpen world id := by
  have hdescriptors := HandleTable.descriptors_erase htoken (toLex (world, id))
  have hsame : (t.erase token).descriptors (toLex (world, id)) =
      t'.descriptors (toLex (world, id)) := by
    rw [HandleTable.descriptors, HandleTable.descriptors, HandleTable.handles_erase, hhandles]
  rw [hsame] at hdescriptors
  split <;> rename_i hlast
  · obtain ⟨hrevision, rfl, rfl, hcount⟩ := hlast
    rw [ht.getD, OpenHandle.file, hdescriptors, if_pos ⟨hrevision, rfl⟩] at hcount
    rw [← Bool.not_eq_true, ht'.isOpen_iff_pos]
    omega
  · rw [Bool.eq_iff_iff, ht.isOpen_iff_pos, ht'.isOpen_iff_pos]
    split at hdescriptors
    · rename_i hof
      obtain ⟨hrevision, hfile⟩ := hof
      obtain ⟨hview, hid⟩ := Prod.mk.inj (toLex.injective hfile)
      have hcount : t.descriptors (toLex (world, id)) ≠ 1 := by
        rw [← hfile, ← ht.getD]
        exact fun hcount => hlast ⟨hrevision, hview, hid, hcount⟩
      omega
    · omega

/-- A closed descriptor keeps the repository coherent unless it was the last one of an orphan. -/
theorem Container.Coherent.closed {token : Bytes} {h : OpenHandle} (hc : c.Coherent)
    (ht : c.table.Consistent) (ht' : c'.table.Consistent) (hstore : c'.store = c.store)
    (htoken : c.table.handles[token]? = some h)
    (hhandles : c'.table.handles = c.table.handles.erase token)
    (hkept : h.revision = false → c.table.openCounts[h.file]?.getD 0 = 1 →
      (RootName.orphanInode h.view h.inode).key ∉ c.store.roots) : c'.Coherent := by
  have hclose := isOpen_close ht.counts ht'.counts htoken hhandles
  apply hc.retable hstore
  · intro world id hopen
    rw [hclose world id] at hopen
    split at hopen
    · cases hopen
    · exact .inl hopen
  · intro world id hopen
    rw [hclose world id]
    split
    · rename_i hlast
      obtain ⟨hrevision, rfl, rfl, hcount⟩ := hlast
      exact .inr (hkept hrevision hcount)
    · exact .inl hopen
  · intro x h' hx _
    rw [hhandles, StdMap.getElem?_erase] at hx
    split at hx
    · cases hx
    · exact .inl ⟨x, hx⟩

/-- The roots of an orphan are no part of a view. -/
theorem spares_of_orphanRoots {s : LevelStore} (world : Bytes) (id : InodeId) :
    ∀ m ∈ [Mutation.assign (RootName.orphanInode world id).key none,
      .assign (RootName.orphanContent world id).key none], Spares s ns m.key := by
  intro m hm
  apply spares_of_orphans
  rcases List.mem_cons.mp hm with rfl | hm
  · exact (List.prefix_append _ _).trans (List.prefix_append _ _)
  · rw [List.mem_singleton.mp hm]
    exact (List.prefix_append _ _).trans (List.prefix_append _ _)

/-- The last descriptor of an orphan takes it along. -/
theorem Container.Coherent.dropped {token : Bytes} {h : OpenHandle} (hc : c.Coherent)
    (ht : c.table.Consistent) (ht' : c'.table.Consistent) (hsettled : Settled payloads c c')
    (htoken : c.table.handles[token]? = some h)
    (hhandles : c'.table.handles = c.table.handles.erase token) (hworld : h.revision = false)
    (hcount : c.table.openCounts[h.file]?.getD 0 = 1)
    (hstore : c.store.transact c.store.sequence
      [.assign (RootName.orphanInode h.view h.inode).key none,
        .assign (RootName.orphanContent h.view h.inode).key none] = .ok c'.store) :
    c'.Coherent := by
  have hclose := isOpen_close ht.counts ht'.counts htoken hhandles
  apply hc.forget hsettled (LevelStore.transact_eq_ok hstore)
  · exact fun ns => hsettled.sameView hstore (spares_of_orphanRoots h.view h.inode)
  · rw [hclose, if_pos ⟨hworld, rfl, rfl, hcount⟩]
  · intro world id hne
    rw [hclose, if_neg]
    rintro ⟨-, hview, hid, -⟩
    exact hne ⟨hview.symm, hid.symm⟩
  · intro x h' hx _
    rw [hhandles, StdMap.getElem?_erase] at hx
    split at hx
    · cases hx
    · exact ⟨x, hx⟩

/-- A snapshot is a copy. -/
theorem Container.Coherent.snapshot {name : Bytes} {id : Hash} {b : Commit} (hc : c.Coherent)
    (hsettled : Settled payloads c c') (hname : NamespaceView.validName name)
    (hrevision : ns.revision = false) (hplanned : SnapshotPlanned ns c.store name id b)
    (hstore : c.store.transact c.store.sequence b.mutations = .ok c'.store)
    (hhashed : ∀ x ∈ b.hashed, x ∈ payloads) (htable : c'.table = c.table) : c'.Coherent := by
  have htransacted := LevelStore.transact_eq_ok hstore
  obtain ⟨hcopy, -⟩ := hplanned.sameView hname hrevision hsettled.free hsettled.closed hsettled.known
    htransacted hhashed
  obtain ⟨v, hv⟩ : ∃ v, c.store.view ns = .ok v := by
    rw [LevelStore.view, hrevision]
    cases hplanned with
    | record v manifest parent staged record hfresh hv => exact ⟨v, hv⟩
  refine hc.copied hsettled hv (fun v' hv' => ?_) hcopy (fun ns' hns' => ?_) (fun world o ho => ?_) htable
  · cases hplanned with
    | record v manifest parent staged record hfresh =>
      cases viewed_of_open hsettled.closed hv' with
      | flat _ hworld => cases hworld
      | world hworld => cases hworld
      | revision _ id _ _ _ _ _ hroot => exact hfresh (StdMap.mem_iff.mpr ⟨id, hroot⟩)
  · exact hsettled.sameView hstore (hplanned.spares hns')
  · exact ho.frame htransacted fun m hm n hn => hplanned.ne_orphan hm hn

/-- A fork is a copy. -/
theorem Container.Coherent.forked {revision world : Bytes} {b : Commit} (hc : c.Coherent)
    (hsettled : Settled payloads c c') (hname : NamespaceView.validName revision)
    (hname' : NamespaceView.validName world) (hmain : world ≠ ascii "main")
    (hplanned : ForkPlanned c.store revision world b)
    (hstore : c.store.transact c.store.sequence b.mutations = .ok c'.store)
    (hhashed : ∀ x ∈ b.hashed, x ∈ payloads) (htable : c'.table = c.table) : c'.Coherent := by
  have htransacted := LevelStore.transact_eq_ok hstore
  obtain ⟨hcopy, ⟨v, hv⟩, -⟩ := hplanned.sameView hname hname' hsettled.free hsettled.closed
    hsettled.known htransacted hhashed
  refine hc.copied hsettled hv (fun v' hv' => ?_) hcopy (fun ns' hns' => ?_) (fun w o ho => ?_) htable
  · cases hplanned with
    | fork id manifest v record hfresh =>
      cases viewed_of_open hsettled.closed hv' with
      | flat hname => exact hmain hname
      | world _ id _ _ hhead => exact hfresh (StdMap.mem_iff.mpr ⟨id, hhead⟩)
      | revision hrevision => cases hrevision
  · exact hsettled.sameView hstore (hplanned.spares hns')
  · exact ho.frame htransacted fun m hm n hn => hplanned.ne_orphan hm hn

/-- Every operation keeps the repository coherent. -/
theorem Performed.coherent {op : NamespaceCall} (h : Performed ns op c c') (hc : c.Coherent)
    (ht : c.table.Consistent) (hsettled : Settled payloads c c')
    (hhashed : ∀ x ∈ c'.hashed, x ∈ payloads) : c'.Coherent := by
  have ht' := ht.step h.step
  have hworld (hrevision : ns.revision = false) {v : NamespaceView} (hv : c.view ns = .ok v) :
      c.store.view ⟨ns.view, false⟩ = .ok v := by
    rw [← hrevision]
    exact hv
  cases h with
  | unchanged => exact hc
  | updated v edits created _ hrevision hv hplanned hcommit =>
    exact hc.planned ht hsettled hhashed (hworld hrevision hv) hplanned hcommit
  | wroteNext v edits created c₁ token h position hrevision hv hplanned hcommit htoken =>
    have hcoherent : c₁.Coherent := hc.planned ht ⟨hsettled.free, hsettled.closed, hsettled.closed',
      hsettled.known, hsettled.known'⟩ hhashed (hworld hrevision hv) hplanned hcommit
    exact hcoherent.retable rfl (fun _ _ hopen => .inl hopen) (fun _ _ hopen => .inl hopen)
      fun token' h' htoken' _ => .inl ⟨token', htoken'⟩
  | snapshot name id b store hname hrevision hplan hstore =>
    exact hc.snapshot hsettled hname hrevision (planSnapshot_eq_ok hplan) hstore
      (fun x hx => hhashed x (List.mem_append_right _ hx)) rfl
  | forked revision world b store hname hname' hmain hrevision hplan hstore =>
    exact hc.forked hsettled hname hname' hmain (planFork_eq_ok hplan) hstore
      (fun x hx => hhashed x (List.mem_append_right _ hx)) rfl
  | opened v env path o opening token h _ hrevision hmode hlimit hv hopening hfresh hhandle hcommit =>
    obtain ⟨hview, hinode, hkind, -⟩ := hhandle
    refine hc.opened ht ht' hsettled hhashed hrevision hmode hv hopening hfresh hview hinode hkind
      hcommit ?_
    rw [hcommit.table]
    exact HandleTable.handles_counted _ _
  | duplicated source token h hsource hview hrevision hlimit hfresh =>
    exact hc.add ht ht' hfresh rfl (HandleTable.handles_counted _ _) (.inl ⟨source, hsource⟩)
  | closed token h hop htoken hview hrevision hkept =>
    refine hc.closed ht ht' rfl htoken ?_ hkept
    rw [HandleTable.handles_erase, HandleTable.handles_uncounted]
  | dropped token h store hop htoken hview hrevision hkind hcount horphan hstore =>
    refine hc.dropped ht ht' hsettled htoken ?_ hkind hcount hstore
    rw [HandleTable.handles_erase, HandleTable.handles_uncounted]
  | moved | locked =>
    exact hc.retable rfl (fun _ _ hopen => .inl hopen) (fun _ _ hopen => .inl hopen)
      fun token' h' htoken' _ => .inl ⟨token', htoken'⟩

end Operations

section Runs

variable {event : ContainerEvent}

/-- A collection runs without open files and keeps all views. -/
theorem Container.Coherent.collected {removed : ℕ} {store : LevelStore} (hc : c.Coherent)
    (ht : c.table.Consistent) (hsettled : Settled payloads c { c with store := store })
    (hhandles : c.table.handles.size = 0)
    (hplan : Container.planCollect c.store = .ok (removed, store)) :
    Container.Coherent { c with store := store } := by
  have hcollected := planCollect_spec hsettled.closed hsettled.free hsettled.known hplan
  have hnone (token : Bytes) : c.table.handles[token]? = none := by
    rw [Std.ExtTreeMap.eq_empty_iff_size_eq_zero.mpr hhandles]
    rfl
  have hclosed (world : Bytes) (id : InodeId) : c.table.isOpen world id = false := by
    rw [← Bool.not_eq_true, ht.counts.isOpen_iff]
    rintro ⟨token, h, htoken, -⟩
    cases (hnone token).symm.trans htoken
  apply hc.emptied hsettled
  · exact hcollected.sameView hsettled.closed hsettled.free hsettled.known
  · intro world n hn hmem
    obtain ⟨id, hid⟩ := StdMap.mem_iff.mp hmem
    exact hc.no_orphans hclosed world hn (StdMap.mem_iff.mpr ⟨id, ((hcollected.root _ _).mp hid).1⟩)
  · exact hclosed
  · exact hnone

/-- A restart closes all files, deletes all orphans and keeps all views. -/
theorem Container.Coherent.restarted {interrupted : List ℕ} (hc : c.Coherent) (hintact : c.Intact)
    (hsettled : Settled payloads c c') (hhashed : ∀ b ∈ c.hashed, b ∈ payloads)
    (h : c.restart interrupted = .ok c') : c'.Coherent := by
  have hdrops := dropsAll_restart h
  obtain ⟨store, hexit⟩ := dropsAll_frame hdrops
  have htable : c'.table = .empty := by rw [hexit, Container.exit]
  have hsame (ns : Namespace) : SameView c.store ns c'.store ns :=
    sameView_dropsAll hdrops hintact hsettled.free hhashed ns
  apply hc.emptied hsettled hsame
  · exact fun world n hn => no_orphans_of_restart h hn.orphans
  · intro world id
    rw [htable]
    rfl
  · intro token
    rw [htable]
    rfl

/-- Every event keeps the repository coherent. -/
theorem Container.Coherent.step (hc : c.Coherent) (hsound : c.Sound) (h : c.step event = .ok c')
    (hcf : CollisionFree payloads) (hhashed : ∀ b ∈ c'.hashed, b ∈ payloads) : c'.Coherent := by
  have hhappened := hsound.happened h
  have hold : ∀ b ∈ c.hashed, b ∈ payloads := fun b hb => hhashed b (hhappened.hashed.subset hb)
  obtain ⟨hs, hknown⟩ := hsound.intact payloads hcf hold
  obtain ⟨hs', hknown'⟩ := hhappened.intact hsound.intact payloads hcf hhashed
  have hsettled : Settled payloads c c' := ⟨hcf, hs, hs', hknown, hknown'⟩
  cases event with
  | restart interrupted => exact hc.restarted hsound.intact hsettled hold h
  | call op =>
    cases hhappened with
    | performed ns env op _ hperformed =>
      exact hperformed.coherent hc hsound.table hsettled hhashed
    | refused => exact hc
    | user op expected mutations store hkeys hstore =>
      apply hc.frame hsettled
      · exact fun ns => hsettled.sameView hstore fun m hm => spares_of_not_reserved (hkeys m hm)
      · intro world o ho
        refine ho.frame (LevelStore.transact_eq_ok hstore) fun m hm n _ hkey => hkeys m hm ?_
        rw [hkey]
        exact n.reserved
      · rfl
    | pinned =>
      exact hc.retable rfl (fun _ _ hopen => .inl hopen) (fun _ _ hopen => .inl hopen)
        fun token' h' htoken' _ => .inl ⟨token', htoken'⟩
    | collected removed store hhandles hpins hplan =>
      exact hc.collected hsound.table hsettled hhandles hplan

/-- A new repository has one World, which is empty. -/
theorem Container.coherent_create : Container.create.Coherent := by
  have hroot (key : Bytes) : Container.create.store.roots[key]? = none := rfl
  have hclosed (world : Bytes) (id : InodeId) : Container.create.table.isOpen world id = false := rfl
  have horphaned (world : Bytes) : Container.create.store.Orphaned world .empty := by
    intro n hn
    cases n with
    | orphanInode | orphanContent => rfl
    | _ => cases hn
  constructor
  case world =>
    intro world v hv
    have hnone (key : Bytes) : (flatMap Container.create.store)[key]? = none := by
      rw [getElem?_flatMap, hroot, ite_self]
    refine ⟨.empty, .empty, ?_, Filesystem.consistent_empty, horphaned world, ?_⟩
    · cases viewed_of_open closed_create hv with
      | flat =>
        refine ⟨_, _, hv, shows_flat closed_create, fun f => ?_, fun key hkey => ?_⟩
        · rw [hnone]
          cases f <;> rfl
        · exact absurd (hnone key) (StdMap.notMem_iff.not.mp (not_not.mpr hkey))
      | world _ id _ _ hid => cases (hroot _).symm.trans hid
      | revision hrevision => cases hrevision
    · refine ⟨fun x hx => ?_, fun x hx => ?_, fun x _ => ⟨rfl, rfl⟩⟩
      all_goals
        rw [hclosed] at hx
        cases hx
  case absent => exact fun world _ => ⟨horphaned world, hclosed world⟩
  case revision =>
    intro name v hv
    cases viewed_of_open closed_create hv with
    | flat _ hworld => cases hworld
    | world hworld => cases hworld
    | revision _ id _ _ _ _ _ hid => cases (hroot _).symm.trans hid
  case reader =>
    intro token h htoken
    cases htoken

/-- Every reachable repository is coherent. -/
theorem Container.run_coherent {events : List ContainerEvent} (h : Container.run events = .ok c)
    (hcf : CollisionFree { b | b ∈ c.hashed }) : c.Coherent := by
  have hall : c.Sound ∧ ∀ payloads, CollisionFree payloads → (∀ b ∈ c.hashed, b ∈ payloads) →
      c.Coherent := by
    refine Container.run_induction (P := fun c => c.Sound ∧ ∀ payloads, CollisionFree payloads →
      (∀ b ∈ c.hashed, b ∈ payloads) → c.Coherent) ?_ ?_ h
    · have hrun : Container.run [] = .ok .create := rfl
      exact ⟨Container.run_sound hrun, fun _ _ _ => Container.coherent_create⟩
    · rintro c event c' ⟨hsound, hc⟩ hstep
      refine ⟨hsound.step hstep, fun payloads hcf hhashed => ?_⟩
      have hcoherent := hc payloads hcf fun b hb =>
        hhashed b ((hsound.happened hstep).hashed.subset hb)
      exact hcoherent.step hsound hstep hcf hhashed
  exact hall.2 _ hcf fun _ hb => hb

end Runs

end Coherence

section Samples

local instance coherenceDigest : Digest := sha256

end Samples

end ForkFs
