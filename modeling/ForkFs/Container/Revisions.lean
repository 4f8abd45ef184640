import ForkFs.Container.Closure

/-!
# Revisions and forks keep the store closed

A snapshot stores a record of the current version and of the revision before it, and a fork
starts from the version of a revision. The first snapshot of the flat World stages its tree.
-/

namespace ForkFs

open Bytes Treap Treap.KeyTree Outcome

variable [Digest] {payloads : Set Bytes} {ns : Namespace} {v : NamespaceView} {s s' : LevelStore}
  {name : Bytes} {b : Commit} {id : Hash}

section Snapshots

/-- The manifest that a snapshot records. -/
inductive Staged (ns : Namespace) (s : LevelStore) (v : NamespaceView) : Hash → Commit → Prop
  /-- The flat World gets a tree, which is stored without a head. -/
  | planned (hlegacy : v.legacy) (plan : NamespaceView.Plan) (hplan : v.plan ∅ false = .ok plan) :
      Staged ns s v (objectHash plan.manifest)
        ⟨(plan.objects.flatMap s.catalog.registry ++ s.catalog.registry plan.manifest).map
          fun e => .assign e.1 (some e.2), plan.hashed ++ plan.objects ++ [plan.manifest]⟩
  /-- The head of the World. -/
  | head (hlegacy : v.legacy = false) (id : Hash)
      (hhead : s.roots[(RootName.world ns.view).key]? = some id) : Staged ns s v id ⟨[], []⟩

theorem stageManifest_eq_ok {manifest : Hash} {staged : Commit}
    (h : ns.stageManifest s.catalog v = .ok (manifest, staged)) : Staged ns s v manifest staged := by
  unfold Namespace.stageManifest at h
  split at h
  · rename_i hlegacy
    obtain ⟨plan, hplan, h⟩ := bind_eq_ok.mp h
    cases h
    exact .planned hlegacy plan hplan
  · rename_i hlegacy
    obtain ⟨head, hhead, h⟩ := bind_eq_ok.mp h
    cases h
    exact .head (by simpa using hlegacy) manifest (Catalog.rootObject_eq_ok.mp hhead)

/-- The batch of a snapshot, and the identity of its record. -/
inductive SnapshotPlanned (ns : Namespace) (s : LevelStore) (name : Bytes) : Hash → Commit → Prop
  | record (v : NamespaceView) (manifest parent : Hash) (staged : Commit) (record : Bytes)
      (hfresh : (RootName.revision name).key ∉ s.roots)
      (hv : NamespaceView.open_ s.catalog ns.view false true = .ok v)
      (hstaged : Staged ns s v manifest staged)
      (hparent : ns.parentRevision s.catalog = .ok parent)
      (hrecord : record = Namespace.descriptor manifest parent s.sequence) :
      SnapshotPlanned ns s name (objectHash record)
        ⟨staged.mutations ++ [.assign (RootName.revision name).key (some record),
          .assign (RootName.base ns.view).key (some (objectHash record).val)],
          staged.hashed ++ [record, (objectHash record).val]⟩

theorem planSnapshot_eq_ok (h : ns.planSnapshot s name = .ok (id, b)) :
    SnapshotPlanned ns s name id b := by
  unfold Namespace.planSnapshot at h
  obtain ⟨hfresh, h⟩ := need_bind_eq_ok.mp h
  obtain ⟨v, hv, h⟩ := bind_eq_ok.mp h
  obtain ⟨-, -, h⟩ := bind_eq_ok.mp h
  obtain ⟨⟨manifest, staged⟩, hstaged, h⟩ := bind_eq_ok.mp h
  obtain ⟨parent, hparent, h⟩ := bind_eq_ok.mp h
  cases h
  exact .record v manifest parent staged _ hfresh hv (stageManifest_eq_ok hstaged) hparent rfl

/-- What is staged for a snapshot are registry entries. -/
theorem Staged.registered {manifest : Hash} {staged : Commit} (h : Staged ns s v manifest staged) :
    ∀ m ∈ staged.mutations, ∃ x, m = .assign (RootName.object (objectHash x)).key (some x) ∧
      x ∈ staged.hashed := by
  intro m hm
  cases h with
  | head => cases hm
  | planned hlegacy plan hplan =>
    obtain ⟨e, he, rfl⟩ := List.mem_map.mp hm
    rcases List.mem_append.mp he with he | he
    · obtain ⟨b, hb, he⟩ := List.mem_flatMap.mp he
      rw [(mem_registry.mp he).2]
      exact ⟨b, rfl, by simp [hb]⟩
    · rw [(mem_registry.mp he).2]
      exact ⟨plan.manifest, rfl, by simp⟩

theorem Staged.hashed {manifest : Hash} {staged : Commit} (h : Staged ns s v manifest staged) :
    ∀ m ∈ staged.mutations, ∀ x, m.value = some x → x ∈ staged.hashed := by
  intro m hm x hx
  obtain ⟨b, rfl, hb⟩ := h.registered m hm
  cases hx
  exact hb

theorem Staged.closed {manifest : Hash} {staged : Commit} (h : Staged ns s v manifest staged)
    (objects : ObjectStore) : ∀ m ∈ staged.mutations, m.Closed objects := by
  intro m hm
  obtain ⟨b, rfl, -⟩ := h.registered m hm
  exact closed_registry b

/-- The version that a snapshot records is the current one. -/
theorem Staged.version {manifest : Hash} {staged : Commit} {mutations : List Mutation}
    {m : StdMap Bytes Hash} (h : Staged ns s v manifest staged) (hcf : CollisionFree payloads)
    (hs : s.Closed) (hknown : Known s payloads) (hv : Viewed s ns.view false v)
    (hrefs : v.references = .ok m) (hstore : LevelStore.Transacted s mutations s')
    (hmutations : ∀ x ∈ staged.mutations, x ∈ mutations) (hknown' : Known s' payloads)
    (hhashed : ∀ x ∈ staged.hashed, x ∈ payloads) : Version s'.objects manifest m := by
  cases h with
  | head hlegacy id hhead =>
    cases hv with
    | flat => cases hlegacy
    | world hworld id root tree hhead' hversion =>
      rw [hhead'] at hhead
      cases hhead
      rw [hversion.references hcf hknown] at hrefs
      cases hrefs
      exact ⟨root, tree, hversion.mono hstore.extends_, rfl⟩
    | revision hrevision => cases hrevision
  | planned hlegacy plan hplan =>
    have hjournal : v.journal = s.catalog := by cases hv <;> rfl
    have hread (x : Bytes) (hx : x ∈ plan.objects ∨ x = plan.manifest) :
        s'.objects.object (objectHash x) = .ok x := by
      refine object_of_registered hcf hs hstore hknown' (hhashed x (by simp [hx])) ?_
      by_cases hroot : (RootName.object (objectHash x)).key ∈ s.roots
      · exact Or.inl hroot
      · have hnew : ((RootName.object (objectHash x)).key, x) ∈ s.catalog.registry x :=
          mem_registry.mpr ⟨hroot, rfl⟩
        refine Or.inr ⟨.assign (RootName.object (objectHash x)).key (some x), hmutations _ ?_, rfl⟩
        refine List.mem_map.mpr ⟨((RootName.object (objectHash x)).key, x), ?_, rfl⟩
        rcases hx with hx | rfl
        · exact List.mem_append_left _ (List.mem_flatMap.mpr ⟨x, hx, hnew⟩)
        · exact List.mem_append_right _ hnew
    have hplan' : v.planTree ∅ = .ok plan := by
      unfold NamespaceView.plan at hplan
      rw [hjournal] at hplan
      exact hplan
    have hsame : m.override ∅ = m := StdMap.ext fun key => by simp [StdMap.getElem?_override]
    obtain ⟨m', hshows⟩ := hv.shows hs hcf hknown
    cases hrefs.symm.trans hshows.references
    rw [← hsame]
    refine version_of_plan hcf hknown hv hrefs hplan' (fun x hx => hhashed x (by simp [hx]))
      hstore.extends_ (fun x hx => hread x (Or.inl hx)) (hread _ (Or.inr rfl)) fun key id hid => ?_
    rw [hsame] at hid
    obtain ⟨x, hx⟩ := hshows.stored key id hid
    exact ⟨x, hstore.extends_ _ _ hx⟩

/-- The revision before a snapshot is that of the base. -/
theorem parentRevision_eq_ok {parent : Hash} (h : ns.parentRevision s.catalog = .ok parent) :
    parent = Hash.zero ∨ ∃ id, s.roots[(RootName.base ns.view).key]? = some id ∧
      s.objects.object id = .ok parent.val := by
  unfold Namespace.parentRevision at h
  dsimp only at h
  split at h
  · obtain ⟨bytes, hget, h⟩ := bind_eq_ok.mp h
    obtain ⟨id, hid, hobject⟩ := bind_eq_ok.mp hget
    obtain ⟨hlength, h⟩ := need_bind_eq_ok.mp h
    obtain ⟨record, -, h⟩ := bind_eq_ok.mp h
    obtain ⟨-, h⟩ := need_bind_eq_ok.mp h
    cases h
    rw [Hash.val_ofBytes hlength]
    exact Or.inr ⟨id, Catalog.rootObject_eq_ok.mp hid, hobject⟩
  · cases h
    exact Or.inl rfl

/-- It has a lineage. -/
theorem lineage_parentRevision {parent : Hash} (hs : s.Closed)
    (h : ns.parentRevision s.catalog = .ok parent) :
    parent = Hash.zero ∨ Lineage s.objects parent := by
  rcases parentRevision_eq_ok h with hzero | ⟨id, hid, hobject⟩
  · exact Or.inl hzero
  · obtain ⟨base, hbase, hlineage⟩ := hs.leads (.base ns.view) id hid
    rw [show parent = base from Subtype.ext (Except.ok.inj (hobject.symm.trans hbase))]
    exact Or.inr hlineage

theorem SnapshotPlanned.known (h : SnapshotPlanned ns s name id b) (hknown : Known s payloads)
    (hstore : LevelStore.Transacted s b.mutations s') (hhashed : ∀ x ∈ b.hashed, x ∈ payloads) :
    Known s' payloads := by
  refine hknown.transacted hstore fun m hm x hx => hhashed x ?_
  cases h with
  | record v manifest parent staged record hfresh hv hstaged hparent hrecord =>
    rcases List.mem_append.mp hm with hm | hm
    · exact List.mem_append_left _ (hstaged.hashed m hm x hx)
    · refine List.mem_append_right _ ?_
      rcases List.mem_cons.mp hm with rfl | hm
      · cases hx
        simp
      · rw [List.mem_singleton.mp hm] at hx
        cases hx
        simp

/-- What a snapshot stores: a record of the current version, with a lineage. -/
theorem SnapshotPlanned.stored (h : SnapshotPlanned ns s name id b) (hcf : CollisionFree payloads)
    (hs : s.Closed) (hknown : Known s payloads)
    (hv : NamespaceView.open_ s.catalog ns.view false true = .ok v) {m : StdMap Bytes Hash}
    (hrefs : v.references = .ok m) (hstore : LevelStore.Transacted s b.mutations s')
    (hhashed : ∀ x ∈ b.hashed, x ∈ payloads) :
    (∃ manifest parent sequence,
      s'.objects.object id = .ok (Namespace.descriptor manifest parent sequence) ∧
        Version s'.objects manifest m) ∧ Lineage s'.objects id := by
  have hknown' := h.known hknown hstore hhashed
  cases h with
  | record v' manifest parent staged record hfresh hv' hstaged hparent hrecord =>
    rw [hv] at hv'
    cases hv'
    have hobject : s'.objects.object (objectHash record) = .ok record := by
      refine object_of_registered hcf hs hstore hknown' (hhashed record (by simp))
        (Or.inr ⟨.assign (RootName.revision name).key (some record), by simp, rfl⟩)
    have hversion := hstaged.version hcf hs hknown (viewed_of_open hs hv) hrefs hstore
      (fun x hx => List.mem_append_left _ hx) hknown'
      (fun x hx => hhashed x (List.mem_append_left _ hx))
    rw [hrecord] at hobject ⊢
    refine ⟨⟨_, _, _, hobject, hversion⟩, ?_⟩
    rcases lineage_parentRevision hs hparent with rfl | hlineage
    · exact .first hobject hversion
    · exact .next hobject hversion (hlineage.mono hstore.extends_)

/-- A snapshot keeps the store closed. -/
theorem SnapshotPlanned.closed (h : SnapshotPlanned ns s name id b) (hcf : CollisionFree payloads)
    (hs : s.Closed) (hknown : Known s payloads) (hstore : LevelStore.Transacted s b.mutations s')
    (hhashed : ∀ x ∈ b.hashed, x ∈ payloads) : s'.Closed := by
  have hknown' := h.known hknown hstore hhashed
  refine hs.transacted hstore fun x hx => ?_
  cases h with
  | record v manifest parent staged record hfresh hv hstaged hparent hrecord =>
    obtain ⟨m, hshows⟩ := (viewed_of_open hs hv).shows hs hcf hknown
    obtain ⟨-, hlineage⟩ := SnapshotPlanned.stored
      (.record v manifest parent staged record hfresh hv hstaged hparent hrecord)
      hcf hs hknown hv hshows.references hstore hhashed
    rcases List.mem_append.mp hx with hx | hx
    · exact hstaged.closed s'.objects x hx
    · rcases List.mem_cons.mp hx with rfl | hx
      · refine closed_of_leadsTo (.revision name) rfl fun target htarget => ?_
        cases htarget
        exact hlineage
      · rw [List.mem_singleton.mp hx]
        refine closed_of_leadsTo (.base ns.view) rfl fun target htarget => ?_
        cases htarget
        refine ⟨objectHash record, ?_, hlineage⟩
        exact object_of_registered hcf hs hstore hknown' (hhashed _ (by simp))
          (Or.inr ⟨.assign (RootName.base ns.view).key (some (objectHash record).val), by simp, rfl⟩)

end Snapshots

section Forks

variable {revision world : Bytes}

/-- The batch of a fork. -/
inductive ForkPlanned (s : LevelStore) (revision world : Bytes) : Commit → Prop
  | fork (id manifest : Hash) (v : NamespaceView) (record : Bytes)
      (hworld : (RootName.world world).key ∉ s.roots) (hbase : (RootName.base world).key ∉ s.roots)
      (hroot : s.roots[(RootName.revision revision).key]? = some id)
      (hobject : s.objects.object id = .ok record)
      (hrecord : NamespaceView.descriptorManifest record = .ok manifest)
      (hv : NamespaceView.open_ s.catalog revision true true = .ok v) :
      ForkPlanned s revision world ⟨[⟨(RootName.world world).key, none, some manifest⟩,
        .assign (RootName.base world).key (some id.val)], [id.val]⟩

theorem planFork_eq_ok (h : Namespace.planFork s.catalog revision world = .ok b) :
    ForkPlanned s revision world b := by
  unfold Namespace.planFork at h
  obtain ⟨hfresh, h⟩ := need_bind_eq_ok.mp h
  obtain ⟨record, hget, h⟩ := bind_eq_ok.mp h
  obtain ⟨manifest, hmanifest, h⟩ := bind_eq_ok.mp h
  obtain ⟨v, hv, h⟩ := bind_eq_ok.mp h
  obtain ⟨-, -, h⟩ := bind_eq_ok.mp h
  obtain ⟨id, hid, h⟩ := bind_eq_ok.mp h
  obtain ⟨id', hid', hobject⟩ := bind_eq_ok.mp hget
  rw [hid] at hid'
  cases hid'
  cases h
  exact .fork id manifest v record hfresh.1 hfresh.2 (Catalog.rootObject_eq_ok.mp hid) hobject
    hmanifest hv

theorem ForkPlanned.known (h : ForkPlanned s revision world b) (hknown : Known s payloads)
    (hstore : LevelStore.Transacted s b.mutations s') (hhashed : ∀ x ∈ b.hashed, x ∈ payloads) :
    Known s' payloads := by
  refine hknown.transacted hstore fun m hm x hx => hhashed x ?_
  cases h with
  | fork id manifest v record hworld hbase hroot hobject hrecord hv =>
    rcases List.mem_cons.mp hm with rfl | hm
    · cases hx
    · rw [List.mem_singleton.mp hm] at hx
      cases hx
      simp

/-- A fork keeps the store closed. -/
theorem ForkPlanned.closed (h : ForkPlanned s revision world b) (hcf : CollisionFree payloads)
    (hs : s.Closed) (hknown : Known s payloads) (hstore : LevelStore.Transacted s b.mutations s')
    (hhashed : ∀ x ∈ b.hashed, x ∈ payloads) : s'.Closed := by
  have hknown' := h.known hknown hstore hhashed
  refine hs.transacted hstore fun x hx => ?_
  cases h with
  | fork id manifest v record hworld hbase hroot hobject hrecord hv =>
    have hlineage : Lineage s.objects id := hs.leads (.revision revision) id hroot
    obtain ⟨manifest', parent, sequence, hobject', m, hversion⟩ := hlineage.record
    rw [hobject] at hobject'
    cases hobject'
    rw [descriptorManifest_descriptor] at hrecord
    cases hrecord
    rcases List.mem_cons.mp hx with rfl | hx
    · refine closed_of_leadsTo (.world world) rfl fun target htarget => ?_
      cases htarget
      exact ⟨m, hversion.mono hstore.extends_⟩
    · rw [List.mem_singleton.mp hx]
      refine closed_of_leadsTo (.base world) rfl fun target htarget => ?_
      cases htarget
      refine ⟨id, ?_, hlineage.mono hstore.extends_⟩
      exact object_of_registered hcf hs hstore hknown' (hhashed _ (by simp))
        (Or.inr ⟨.assign (RootName.base world).key (some id.val), by simp, rfl⟩)

end Forks

end ForkFs
