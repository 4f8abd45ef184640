import ForkFs.Container.Garbage

/-!
# Isolation of Worlds and revisions

An event changes at most the view of the World that it operates on. Revisions never change, and
operations through a revision change no root. A snapshot has the view of its World, and a fork
that of its revision.
-/

namespace ForkFs

open Bytes Treap Treap.KeyTree Outcome

section Isolation

variable [Digest] {payloads : Set Bytes} {s s' : LevelStore} {ns : Namespace} {key : Bytes}

section Keys

/-- A key that a view is not read through: neither its root nor, while it is flat, a record. -/
structure Spares (s : LevelStore) (ns : Namespace) (key : Bytes) : Prop where
  root : key ≠ ns.root.key
  flat : ns = ⟨ascii "main", false⟩ → (RootName.world (ascii "main")).key ∉ s.roots →
    ¬ namespacePrefix <+: key

/-- A batch on such keys leaves the view as it was. -/
theorem sameView_of_spares {mutations : List Mutation} (h : LevelStore.Transacted s mutations s')
    (hspares : ∀ m ∈ mutations, Spares s ns m.key) (hs : s.Closed) (hs' : s'.Closed)
    (hcf : CollisionFree payloads) (hknown : Known s payloads) (hknown' : Known s' payloads) :
    SameView s ns s' ns := by
  refine sameView_of_keeps hs hs' hcf hknown hknown' (fun id b _ hb => h.extends_ id b hb)
    (h.frame _ fun hmem => ?_) fun hns hhead key hkey => h.frame _ fun hmem => ?_
  · obtain ⟨m, hm, heq⟩ := List.mem_map.mp hmem
    exact (hspares m hm).root heq
  · obtain ⟨m, hm, rfl⟩ := List.mem_map.mp hmem
    exact (hspares m hm).flat hns hhead hkey

omit [Digest] in
theorem Aside.ne_root (h : Aside key) : key ≠ ns.root.key := by
  rintro rfl
  have hmark := h ns.root rfl
  unfold Namespace.root at hmark
  split at hmark <;> simp [RootName.mark] at hmark

omit [Digest] in
theorem not_namespacePrefix_of_history (h : history <+: key) : ¬ namespacePrefix <+: key := by
  intro hkey
  have hnot : ¬ history ++ [] <+: key := not_history_of_namespacePrefix hkey
  exact hnot (by simpa using h)

theorem spares_of_history (h : history <+: key) (hroot : key ≠ ns.root.key) : Spares s ns key :=
  ⟨hroot, fun _ _ => not_namespacePrefix_of_history h⟩

theorem spares_of_orphans (h : orphans <+: key) : Spares s ns key :=
  spares_of_history ((List.prefix_append _ _).trans h) (aside_of_orphans h).ne_root

theorem spares_of_not_reserved (h : ¬ Container.reserved key) : Spares s ns key :=
  ⟨(aside_of_not_reserved h).ne_root, fun _ _ hkey => h (Or.inl hkey)⟩

theorem spares_object (id : Hash) : Spares s ns (RootName.object id).key := by
  refine spares_of_history (List.prefix_append _ _) fun hkey => ?_
  have hname := RootName.key_inj.mp hkey
  unfold Namespace.root at hname
  split at hname <;> cases hname

theorem spares_base (world : Bytes) : Spares s ns (RootName.base world).key := by
  refine spares_of_history (List.prefix_append _ _) fun hkey => ?_
  have hname := RootName.key_inj.mp hkey
  unfold Namespace.root at hname
  split at hname <;> cases hname

theorem spares_world {world : Bytes} (h : ns ≠ ⟨world, false⟩) :
    Spares s ns (RootName.world world).key := by
  refine spares_of_history (List.prefix_append _ _) fun hkey => h ?_
  have hname := RootName.key_inj.mp hkey
  obtain ⟨view, revision⟩ := ns
  cases revision with
  | true => cases hname
  | false =>
    cases hname
    rfl

theorem spares_revision {name : Bytes} (h : ns ≠ ⟨name, true⟩) :
    Spares s ns (RootName.revision name).key := by
  refine spares_of_history (List.prefix_append _ _) fun hkey => h ?_
  have hname := RootName.key_inj.mp hkey
  obtain ⟨view, revision⟩ := ns
  cases revision with
  | false => cases hname
  | true =>
    cases hname
    rfl

end Keys

section Batches

variable {v : NamespaceView} {world name revision : Bytes} {b : Commit}

/-- A commit to a World spares the other views. -/
theorem CommitPlanned.spares {edits : List Edit} (h : CommitPlanned world v (Edit.changes edits) b)
    (hv : Viewed s world false v) (hns : ns ≠ ⟨world, false⟩) :
    ∀ m ∈ b.mutations, Spares s ns m.key := by
  intro m hm
  cases h with
  | flat hlegacy hroot =>
    obtain ⟨e, he, rfl⟩ := List.mem_map.mp hm
    obtain ⟨edit, -, rfl⟩ := mem_changes he
    refine ⟨(aside_edit edit).ne_root, fun hmain _ => ?_⟩
    -- Only the first World is flat.
    cases hv with
    | flat hname hworld hhead => exact absurd (hname ▸ hmain) hns
    | world | revision => cases hlegacy
  | retained hinit hrecords =>
    obtain ⟨e, he, rfl⟩ := List.mem_map.mp hm
    exact spares_of_orphans (of_decide_eq_true (List.mem_filter.mp he).2)
  | version hinit hrecords plan hplan =>
    rcases mem_versionCommit_mutations.mp hm with ⟨e, he, rfl⟩ | ⟨e, he, rfl⟩ | rfl
    · exact spares_of_orphans (of_decide_eq_true (List.mem_filter.mp he).2)
    · rcases mem_versionObjects he with ⟨b, -, rfl⟩ | ⟨change, -, -, -, rfl⟩
      · exact spares_object _
      · exact spares_of_history (List.prefix_append _ _) (aside_allocated _).ne_root
    · exact spares_world hns

/-- A snapshot spares everything but the revision that it makes. -/
theorem SnapshotPlanned.spares {world : Namespace} {id : Hash}
    (h : SnapshotPlanned world s name id b) (hns : ns ≠ ⟨name, true⟩) :
    ∀ m ∈ b.mutations, Spares s ns m.key := by
  intro m hm
  cases h with
  | record v manifest parent staged record hfresh hv hstaged hparent hrecord =>
    rcases List.mem_append.mp hm with hm | hm
    · obtain ⟨x, rfl, -⟩ := hstaged.registered m hm
      exact spares_object _
    · rcases List.mem_cons.mp hm with rfl | hm
      · exact spares_revision hns
      · rw [List.mem_singleton.mp hm]
        exact spares_base _

/-- A fork spares everything but the World that it makes. -/
theorem ForkPlanned.spares (h : ForkPlanned s revision world b) (hns : ns ≠ ⟨world, false⟩) :
    ∀ m ∈ b.mutations, Spares s ns m.key := by
  intro m hm
  cases h with
  | fork id manifest v record hworld hbase hroot hobject hrecord hv =>
    rcases List.mem_cons.mp hm with rfl | hm
    · exact spares_world hns
    · rw [List.mem_singleton.mp hm]
      exact spares_base _

end Batches

section Events

variable {c c' : Container} {event : ContainerEvent}

omit [Digest] in
/-- Opening a file without creating or truncating it edits nothing. -/
theorem openFile_edits {v : NamespaceView} {env : Env} {path : Bytes} {o : OpenOptions}
    {opening : Opening} (hcreate : o.create = false) (htruncate : o.truncate = false)
    (h : v.openFile env path o = .ok opening) : opening.effect.edits = [] := by
  have htarget : ∀ target, v.openTarget env path o = .ok target → target.effect.edits = [] := by
    intro target htarget
    unfold NamespaceView.openTarget at htarget
    rw [hcreate] at htarget
    obtain ⟨id, -, htarget⟩ := bind_eq_ok.mp htarget
    split at htarget
    · obtain ⟨n, -, htarget⟩ := bind_eq_ok.mp htarget
      obtain ⟨-, htarget⟩ := need_bind_eq_ok.mp htarget
      cases htarget
      rfl
    · cases htarget
      rfl
  obtain ⟨target, hopened, h⟩ := bind_eq_ok.mp h
  have hnone := htarget target hopened
  dsimp only at h
  rw [if_pos hnone] at h
  obtain ⟨n, -, h⟩ := bind_eq_ok.mp h
  obtain ⟨-, h⟩ := need_bind_eq_ok.mp h
  rw [htruncate, if_neg (by simp)] at h
  cases h
  exact hnone

/-- An operation through a revision changes nothing in the store. -/
theorem Performed.store_of_revision {op : NamespaceCall} (h : Performed ns op c c')
    (hrevision : ns.revision = true) : c'.store = c.store := by
  have hnot : ns.revision ≠ false := by simp [hrevision]
  cases h with
  | unchanged | duplicated | closed | moved | locked => rfl
  | updated v edits created _ hworld hv hplanned hcommit => exact absurd hworld hnot
  | wroteNext v edits created c₁ token h position hworld hv hplanned hcommit htoken =>
    exact absurd hworld hnot
  | snapshot name id b store hname hworld hplan hstore => exact absurd hworld hnot
  | forked revision world b store hname hname' hmain hworld hplan hstore => exact absurd hworld hnot
  | opened v env path o opening token h _ hworld hmode hlimit hv hopening hfresh hhandle hcommit =>
    obtain ⟨hcreate, htruncate⟩ := hworld hrevision
    cases hcommit with
    | nothing => rfl
    | batch b store hedits hplan hstore =>
      exact absurd (openFile_edits hcreate htruncate hopening) hedits
  | dropped token h store hop htoken hview hrev hworld hcount horphan hstore =>
    exact absurd (hrev.symm.trans hworld) hnot

theorem Commits.hashed {world : Bytes} {v : NamespaceView} {edits : List Edit}
    {created : Option InodeId} (h : Commits c world v edits created c') : c.hashed <+: c'.hashed := by
  cases h with
  | nothing => exact List.prefix_rfl
  | batch => exact List.prefix_append _ _

/-- The record of hashed payloads grows. -/
theorem Container.Happened.hashed (h : c.Happened event c') : c.hashed <+: c'.hashed := by
  cases h with
  | refused | pinned | collected => exact List.prefix_rfl
  | user => exact List.prefix_append _ _
  | restarted interrupted _ hdrops =>
    obtain ⟨store, rfl⟩ := dropsAll_frame hdrops
    exact List.prefix_rfl
  | performed ns env op _ hperformed =>
    cases hperformed with
    | unchanged | duplicated | closed | dropped | moved | locked => exact List.prefix_rfl
    | snapshot | forked => exact List.prefix_append _ _
    | updated v edits created _ hworld hv hplanned hcommit => exact hcommit.hashed
    | wroteNext v edits created c₁ token h position hworld hv hplanned hcommit htoken =>
      exact hcommit.hashed
    | opened v env path o opening token h _ hworld hmode hlimit hv hopening hfresh hhandle hcommit =>
      exact hcommit.hashed

/-- The views of a repository before and after an event. -/
structure Settled (payloads : Set Bytes) (c c' : Container) : Prop where
  free : CollisionFree payloads
  closed : c.store.Closed
  closed' : c'.store.Closed
  known : Known c.store payloads
  known' : Known c'.store payloads

theorem Settled.sameView (h : Settled payloads c c') {expected : ℕ} {mutations : List Mutation}
    (hstore : c.store.transact expected mutations = .ok c'.store)
    (hspares : ∀ m ∈ mutations, Spares c.store ns m.key) : SameView c.store ns c'.store ns :=
  sameView_of_spares (LevelStore.transact_eq_ok hstore) hspares h.closed h.closed' h.free h.known
    h.known'

theorem Commits.sameView {world : Bytes} {v : NamespaceView} {edits : List Edit}
    {created : Option InodeId} (h : Commits c world v edits created c')
    (hsettled : Settled payloads c c')
    (hv : NamespaceView.open_ c.store.catalog world false true = .ok v) (hns : ns ≠ ⟨world, false⟩) :
    SameView c.store ns c'.store ns := by
  cases h with
  | nothing => exact .refl _ _
  | batch b store hedits hplan hstore =>
    exact hsettled.sameView hstore
      ((planCommit_eq_ok hplan).spares (viewed_of_open hsettled.closed hv) hns)

/-- An operation changes no view but that of its World. -/
theorem Performed.sameView {world : Namespace} {op : NamespaceCall} (h : Performed world op c c')
    (hsettled : Settled payloads c c') (hv : ∃ v, c.store.view ns = .ok v) (hns : ns ≠ world) :
    SameView c.store ns c'.store ns := by
  cases hrevision : world.revision with
  | true =>
    rw [h.store_of_revision hrevision]
    exact .refl _ _
  | false =>
    have hother : ns ≠ ⟨world.view, false⟩ := by
      rw [← hrevision]
      exact hns
    cases h with
    | unchanged | duplicated | closed | moved | locked => exact .refl _ _
    | updated v edits created _ hworld hopen hplanned hcommit =>
      exact hcommit.sameView hsettled (hrevision ▸ hopen) hother
    | wroteNext v edits created c₁ token h position hworld hopen hplanned hcommit htoken =>
      exact hcommit.sameView ⟨hsettled.free, hsettled.closed, hsettled.closed', hsettled.known,
        hsettled.known'⟩ (hrevision ▸ hopen) hother
    | opened v env path o opening token h _ hworld hmode hlimit hopen hopening hfresh hhandle
        hcommit =>
      exact hcommit.sameView ⟨hsettled.free, hsettled.closed, hsettled.closed', hsettled.known,
        hsettled.known'⟩ (hrevision ▸ hopen) hother
    | snapshot name id b store hname hworld hplan hstore =>
      have hplanned := planSnapshot_eq_ok hplan
      refine hsettled.sameView hstore (hplanned.spares ?_)
      -- The revision does not exist yet.
      rintro rfl
      obtain ⟨v, hv⟩ := hv
      cases hplanned with
      | record v' manifest parent staged record hfresh =>
        cases viewed_of_open hsettled.closed hv with
        | flat _ hworld => cases hworld
        | world hworld => cases hworld
        | revision _ id _ _ _ _ _ hroot => exact hfresh (StdMap.mem_iff.mpr ⟨id, hroot⟩)
    | forked revision fork b store hname hname' hmain hworld hplan hstore =>
      have hplanned := planFork_eq_ok hplan
      refine hsettled.sameView hstore (hplanned.spares ?_)
      rintro rfl
      obtain ⟨v, hv⟩ := hv
      cases hplanned with
      | fork id manifest v' record hfresh =>
        cases viewed_of_open hsettled.closed hv with
        | flat hname => exact hmain hname
        | world _ id _ _ hhead => exact hfresh (StdMap.mem_iff.mpr ⟨id, hhead⟩)
        | revision hrevision => cases hrevision
    | dropped token h store hop htoken hview hrev hworld hcount horphan hstore =>
      refine hsettled.sameView hstore fun m hm => spares_of_orphans ?_
      rcases List.mem_cons.mp hm with rfl | hm
      · exact (List.prefix_append _ _).trans (List.prefix_append _ _)
      · rw [List.mem_singleton.mp hm]
        exact (List.prefix_append _ _).trans (List.prefix_append _ _)

/-- A recovery changes no view. -/
theorem sameView_dropsAll (h : c.DropsAll c') (hc : c.Intact) (hcf : CollisionFree payloads)
    (hhashed : ∀ b ∈ c.hashed, b ∈ payloads) (ns : Namespace) : SameView c.store ns c'.store ns := by
  induction h with
  | refl => exact .refl _ _
  | @tail c₁ c₂ hdrops hdrop ih =>
    have hc₁ := intact_dropsAll hdrops hc
    obtain ⟨store₁, hstore₁⟩ := dropsAll_frame hdrops
    have hhashed₁ : c₁.hashed = c.hashed := by rw [hstore₁]
    obtain ⟨hs, hknown⟩ := hc₁ payloads hcf (hhashed₁ ▸ hhashed)
    obtain ⟨keys, store, hkeys, hstore, rfl⟩ := hdrop
    refine ih.trans (sameView_of_spares (LevelStore.transact_eq_ok hstore) ?_ hs
      (closed_of_deletes hs hstore) hcf hknown (known_of_deletes hknown hstore))
    intro m hm
    obtain ⟨key, hkey, rfl⟩ := List.mem_map.mp hm
    exact spares_of_orphans (hkeys key hkey).1

/-- An event that goes through a World or revision. -/
def ContainerEvent.Through (event : ContainerEvent) (ns : Namespace) : Prop :=
  (∃ env op, event = .call (.onView ns env op)) ∨ ∃ path, event = .call (.openDirectory ns path)

/-- An event changes no view but that of the World it goes through. -/
theorem Container.Happened.sameView (h : c.Happened event c') (hc : c.Intact)
    (hcf : CollisionFree { b | b ∈ c'.hashed }) (hv : ∃ v, c.store.view ns = .ok v)
    (hns : ns.revision = true ∨ ¬ event.Through ns) : SameView c.store ns c'.store ns := by
  have hold : ∀ b ∈ c.hashed, b ∈ { b | b ∈ c'.hashed } := fun b hb => h.hashed.subset hb
  obtain ⟨hs, hknown⟩ := hc _ hcf hold
  obtain ⟨hs', hknown'⟩ := h.intact hc _ hcf fun _ hb => hb
  have hsettled : Settled { b | b ∈ c'.hashed } c c' := ⟨hcf, hs, hs', hknown, hknown'⟩
  cases h with
  | refused | pinned => exact .refl _ _
  | performed world env op _ hperformed =>
    by_cases hworld : ns = world
    · rcases hns with hrevision | hthrough
      · rw [hperformed.store_of_revision (hworld ▸ hrevision)]
        exact .refl _ _
      · exact absurd (Or.inl ⟨env, op, by rw [hworld]⟩) hthrough
    · exact hperformed.sameView hsettled hv hworld
  | user op expected mutations store hkeys hstore =>
    exact hsettled.sameView hstore fun m hm => spares_of_not_reserved (hkeys m hm)
  | collected removed store hhandles hpins hplan =>
    exact (planCollect_spec hs hcf hknown hplan).sameView hs hcf hknown ns
  | restarted interrupted _ hdrops => exact sameView_dropsAll hdrops hc hcf hold ns

/-- An event through a revision changes no root, no object and no sequence number. -/
theorem Container.store_of_revision (hc : c.table.Consistent) (h : c.step event = .ok c')
    (hns : event.Through ns) (hrevision : ns.revision = true) : c'.store = c.store := by
  rcases hns with ⟨env, op, rfl⟩ | ⟨path, rfl⟩
  · cases h
    change (after (op.method ns env) c).store = c.store
    rcases (op.attains hc.described hc.counts ns env).after with ⟨_, hperformed⟩ | hsame
    · exact hperformed.store_of_revision hrevision
    · rw [hsame]
  · cases h
    change (after (discard (ns.openDirectory path)) c).store = c.store
    rw [after_discard]
    rcases (attains_openDirectory ns path c).after with ⟨_, pins, h⟩ | h <;> rw [h]

end Events

section Revisions

variable {c c' : Container} {name world : Bytes}

/-- A version that is stored under two roots has one view. -/
theorem sameView_of_version {ns ns' : Namespace} {v v' : NamespaceView} {m : StdMap Bytes Hash}
    (hv : s.view ns = .ok v) (hv' : s'.view ns' = .ok v') (hshows : Shows s v m)
    (hshows' : Shows s' v' m) (hext : s.objects.Extends s'.objects) : SameView s ns s' ns' := by
  refine sameView_of_shows hv hv' hshows hshows' fun key id hid => ?_
  obtain ⟨b, hb⟩ := hshows.stored key id hid
  rw [hb]
  exact hext id b hb

/-- A snapshot has the view of its World. -/
theorem SnapshotPlanned.sameView {id : Hash} {b : Commit} (h : SnapshotPlanned ns s name id b)
    (hname : NamespaceView.validName name) (hworld : ns.revision = false)
    (hcf : CollisionFree payloads) (hs : s.Closed) (hknown : Known s payloads)
    (hstore : LevelStore.Transacted s b.mutations s') (hhashed : ∀ x ∈ b.hashed, x ∈ payloads) :
    SameView s ns s' ⟨name, true⟩ ∧ ∃ v, s'.view ⟨name, true⟩ = .ok v := by
  have hknown' := h.known hknown hstore hhashed
  have hroot : s'.roots[(RootName.revision name).key]? = some id := by
    cases h with
    | record v manifest parent staged record hfresh hv hstaged hparent hrecord =>
      exact hstore.bound (.assign (RootName.revision name).key (some record)) (by simp)
  obtain ⟨v, hv⟩ : ∃ v, NamespaceView.open_ s.catalog ns.view false true = .ok v := by
    cases h with
    | record v manifest parent staged record hfresh hv => exact ⟨v, hv⟩
  obtain ⟨m, hshows⟩ := (viewed_of_open hs hv).shows hs hcf hknown
  obtain ⟨⟨manifest, parent, sequence, hobject, root, t, ht, rfl⟩, -⟩ :=
    h.stored hcf hs hknown hv hshows.references hstore hhashed
  have hview : s.view ns = .ok v := by
    rw [LevelStore.view, hworld]
    exact hv
  have hview' := open_revision hname hroot hobject ht hcf hknown'
  exact ⟨sameView_of_version hview hview' hshows (ht.shows hcf hknown') hstore.extends_, _, hview'⟩

theorem sameView_of_snapshot {id : Hash} (hc : c.Intact)
    (hcf : CollisionFree { b | b ∈ c'.hashed }) (h : ns.snapshot name c = .ok id c') :
    SameView c.store ns c'.store ⟨name, true⟩ ∧ ∃ v, c'.store.view ⟨name, true⟩ = .ok v := by
  obtain ⟨b, store, hname, hworld, hplan, hstore, rfl⟩ := attains_snapshot_plan.of_ok h
  obtain ⟨hs, hknown⟩ := hc _ hcf fun b hb => List.mem_append_left _ hb
  exact (planSnapshot_eq_ok hplan).sameView hname hworld hcf hs hknown
    (LevelStore.transact_eq_ok hstore) fun x hx => List.mem_append_right _ hx

/-- A fork has the view of its revision. -/
theorem ForkPlanned.sameView {revision : Bytes} {b : Commit} (h : ForkPlanned s revision world b)
    (hname : NamespaceView.validName revision) (hname' : NamespaceView.validName world)
    (hcf : CollisionFree payloads) (hs : s.Closed) (hknown : Known s payloads)
    (hstore : LevelStore.Transacted s b.mutations s') (hhashed : ∀ x ∈ b.hashed, x ∈ payloads) :
    SameView s ⟨revision, true⟩ s' ⟨world, false⟩ ∧ (∃ v, s.view ⟨revision, true⟩ = .ok v) ∧
      ∃ v, s'.view ⟨world, false⟩ = .ok v := by
  have hknown' := h.known hknown hstore hhashed
  cases h with
  | fork id manifest v record hfresh hbase hroot hobject hrecord hv =>
    obtain ⟨manifest', parent, sequence, hobject', m, root, t, ht, -⟩ :=
      Lineage.record (hs.leads (.revision revision) id hroot)
    cases hobject.symm.trans hobject'
    cases (descriptorManifest_descriptor _ _ _).symm.trans hrecord
    have hhead : s'.roots[(RootName.world world).key]? = some manifest :=
      hstore.bound ⟨(RootName.world world).key, none, some manifest⟩ (by simp)
    have ht' := ht.mono hstore.extends_
    have hview := open_revision hname hroot hobject ht hcf hknown
    have hview' := open_world hname' hhead ht' hcf hknown'
    exact ⟨sameView_of_version hview hview' (ht.shows hcf hknown) (ht'.shows hcf hknown')
      hstore.extends_, ⟨_, hview⟩, _, hview'⟩

theorem sameView_of_fork {revision : Bytes} (hc : c.Intact)
    (hcf : CollisionFree { b | b ∈ c'.hashed }) (h : ns.fork revision world c = .ok () c') :
    SameView c.store ⟨revision, true⟩ c'.store ⟨world, false⟩ ∧
      (∃ v, c.store.view ⟨revision, true⟩ = .ok v) ∧
      ∃ v, c'.store.view ⟨world, false⟩ = .ok v := by
  obtain ⟨b, store, hname, hname', -, -, hplan, hstore, rfl⟩ := attains_fork_plan.of_ok h
  obtain ⟨hs, hknown⟩ := hc _ hcf fun b hb => List.mem_append_left _ hb
  exact (planFork_eq_ok hplan).sameView hname hname' hcf hs hknown
    (LevelStore.transact_eq_ok hstore) fun x hx => List.mem_append_right _ hx

end Revisions

section Runs

variable {c c' c'' : Container} {later : List ContainerEvent}

/-- The invariants of a reachable repository that its later events need. -/
structure Container.Sound (c : Container) : Prop where
  table : c.table.Consistent
  intact : c.Intact

theorem Container.run_sound {events : List ContainerEvent} (h : Container.run events = .ok c) :
    c.Sound :=
  ⟨run_table h, run_intact h⟩

theorem Container.Sound.happened (hc : c.Sound) {event : ContainerEvent}
    (h : c.step event = .ok c') : c.Happened event c' :=
  step_happened hc.table.described hc.table.counts h

theorem Container.Sound.step (hc : c.Sound) {event : ContainerEvent} (h : c.step event = .ok c') :
    c'.Sound :=
  ⟨hc.table.step (step_table hc.table h), (hc.happened h).intact hc.intact⟩

theorem Container.Sound.hashed (hc : c.Sound) (h : later.foldlM Container.step c = .ok c') :
    c.hashed <+: c'.hashed := by
  induction later generalizing c with
  | nil =>
    cases h
    exact List.prefix_rfl
  | cons event later ih =>
    rw [List.foldlM_cons] at h
    obtain ⟨c₁, hstep, h⟩ := bind_eq_ok.mp h
    exact (hc.happened hstep).hashed.trans (ih (hc.step hstep) h)

/-- A view that has the content of another one exists if the other one does. -/
theorem SameView.exists_view {ns' : Namespace} (h : SameView s ns s' ns') (hs : s.Closed)
    (hcf : CollisionFree payloads) (hknown : Known s payloads) (hv : ∃ v, s.view ns = .ok v) :
    ∃ v, s'.view ns' = .ok v := by
  obtain ⟨v, hv⟩ := hv
  obtain ⟨m, hshows⟩ := (viewed_of_open hs hv).shows hs hcf hknown
  have hreferences := h.references
  rw [LevelStore.referencesOf, LevelStore.referencesOf, hv, ok_bind, hshows.references] at hreferences
  obtain ⟨v', hv', -⟩ := bind_eq_ok.mp hreferences
  exact ⟨v', hv'⟩

/-- A view is unchanged by later events that do not go through it. -/
theorem Container.Sound.sameView (hc : c.Sound) (h : later.foldlM Container.step c = .ok c')
    (hcf : CollisionFree { b | b ∈ c'.hashed }) (hv : ∃ v, c.store.view ns = .ok v)
    (hns : ns.revision = true ∨ ∀ event ∈ later, ¬ event.Through ns) :
    SameView c.store ns c'.store ns := by
  induction later generalizing c with
  | nil =>
    cases h
    exact .refl _ _
  | cons event later ih =>
    rw [List.foldlM_cons] at h
    obtain ⟨c₁, hstep, h⟩ := bind_eq_ok.mp h
    have hc₁ := hc.step hstep
    have hcf₁ : CollisionFree { b | b ∈ c₁.hashed } :=
      hcf.mono fun b hb => (hc₁.hashed h).subset hb
    have hfirst := (hc.happened hstep).sameView hc.intact hcf₁ hv
      (hns.imp id fun hnone => hnone event List.mem_cons_self)
    obtain ⟨hs, hknown⟩ := hc.intact _ hcf₁ fun b hb => (hc.happened hstep).hashed.subset hb
    exact hfirst.trans (ih hc₁ h (hfirst.exists_view hs hcf₁ hknown hv)
      (hns.imp id fun hnone event hevent => hnone event (List.mem_cons_of_mem _ hevent)))

/-- Isolation of the Worlds and revisions of a repository. -/
structure Container.Isolated (c : Container) : Prop where
  /-- An event leaves every existing revision, and every World that it does not go through, as it
  was. -/
  others : ∀ (event : ContainerEvent) c', c.step event = .ok c' → CollisionFree { b | b ∈ c'.hashed } →
    ∀ ns : Namespace, (∃ v, c.store.view ns = .ok v) → ns.revision = true ∨ ¬ event.Through ns →
      SameView c.store ns c'.store ns
  /-- An event through a revision leaves the whole store as it was. -/
  readOnly : ∀ (event : ContainerEvent) c' ns, c.step event = .ok c' → event.Through ns → ns.revision = true →
    c'.store = c.store
  /-- A snapshot has the view of its World, whatever happens later. -/
  snapshot : ∀ (ns : Namespace) name id c₁, ns.snapshot name c = .ok id c₁ →
    ∀ (later : List ContainerEvent) c₂, later.foldlM Container.step c₁ = .ok c₂ →
      CollisionFree { b | b ∈ c₂.hashed } →
      SameView c.store ns c₂.store ⟨name, true⟩
  /-- A fork has the view of its revision until an event goes through the fork. -/
  fork : ∀ (ns : Namespace) revision world c₁, ns.fork revision world c = .ok () c₁ →
    ∀ (later : List ContainerEvent) c₂, later.foldlM Container.step c₁ = .ok c₂ →
      CollisionFree { b | b ∈ c₂.hashed } →
      SameView c.store ⟨revision, true⟩ c₂.store ⟨revision, true⟩ ∧
        ((∀ event ∈ later, ¬ event.Through ⟨world, false⟩) →
          SameView c.store ⟨revision, true⟩ c₂.store ⟨world, false⟩)

/-- A snapshot is an event. -/
theorem Container.step_snapshot {name : Bytes} {id : Hash} (h : ns.snapshot name c = .ok id c') :
    c.step (.call (.onView ns ⟨fun _ => 0, []⟩ (.snapshot name))) = .ok c' := by
  change Except.ok (after (discard (ns.snapshot name)) c) = Except.ok c'
  rw [after_discard, after_of_ok h]

/-- A fork is an event. -/
theorem Container.step_fork {revision world : Bytes} (h : ns.fork revision world c = .ok () c') :
    c.step (.call (.onView ns ⟨fun _ => 0, []⟩ (.fork revision world))) = .ok c' := by
  change Except.ok (after (ns.fork revision world) c) = Except.ok c'
  rw [after_of_ok h]

/-- The Worlds and revisions of every reachable repository are isolated. -/
theorem isolation {events : List ContainerEvent} (h : Container.run events = .ok c) :
    c.Isolated := by
  have hc := Container.run_sound h
  refine ⟨fun event c' hstep hcf ns hv hns => (hc.happened hstep).sameView hc.intact hcf hv hns,
    fun event c' ns hstep hns hrevision => Container.store_of_revision hc.table hstep hns hrevision,
    fun ns name id c₁ hsnapshot later c₂ hlater hcf => ?_,
    fun ns revision world c₁ hfork later c₂ hlater hcf => ?_⟩
  · have hc₁ := hc.step (Container.step_snapshot hsnapshot)
    have hcf₁ := hcf.mono fun b hb => (hc₁.hashed hlater).subset hb
    obtain ⟨hfirst, hv⟩ := sameView_of_snapshot hc.intact hcf₁ hsnapshot
    exact hfirst.trans (hc₁.sameView hlater hcf hv (Or.inl rfl))
  · have hstep := Container.step_fork hfork
    have hc₁ := hc.step hstep
    have hcf₁ := hcf.mono fun b hb => (hc₁.hashed hlater).subset hb
    obtain ⟨hfirst, hrevision, hworld⟩ := sameView_of_fork hc.intact hcf₁ hfork
    have hkept := (hc.happened hstep).sameView hc.intact hcf₁ hrevision (Or.inl rfl)
    obtain ⟨hs, hknown⟩ := hc.intact _ hcf₁ fun b hb => (hc.happened hstep).hashed.subset hb
    have hrevision₁ := hkept.exists_view hs hcf₁ hknown hrevision
    exact ⟨hkept.trans (hc₁.sameView hlater hcf hrevision₁ (Or.inl rfl)),
      fun hnone => hfirst.trans (hc₁.sameView hlater hcf hworld (Or.inr hnone))⟩

end Runs

end Isolation

section Samples

local instance isolationDigest : Digest := sha256

/-- The first World before and after a value of the user is stored. -/
theorem isolation_sample : ∃ c c', Container.run [sampleInit] = .ok c ∧ c.Isolated ∧
    c.step (.call (.put (ascii "key") (ascii "value"))) = .ok c' ∧ c'.store.sequence = 2 ∧
    SameView c.store sampleMain c'.store sampleMain := by
  have hrun : Container.run [sampleInit] =
      .ok (after (NamespaceCall.fsInit.method sampleMain sampleEnv) .create) := rfl
  have hisolated := isolation hrun
  refine ⟨_, _, hrun, hisolated, rfl, by decide +kernel, ?_⟩
  refine hisolated.others (.call (.put (ascii "key") (ascii "value"))) _ rfl
    (NoCollisions.collisionFree (by decide +kernel)) sampleMain
    ⟨_, open_flat (StdMap.notMem_iff.mpr (by decide +kernel))⟩ (Or.inr ?_)
  rintro (⟨env, op, h⟩ | ⟨path, h⟩) <;> cases h

end Samples

end ForkFs
