import ForkFs.Container.Identities
import ForkFs.Container.Views

/-!
# The store stays closed

Every batch that the filesystem commits leads to stored objects only: a new version comes with
its nodes and values, a revision and a fork refer to versions that are stored. The payloads that
were hashed are assumed to be free of collisions.
-/

namespace ForkFs

open Bytes Treap Treap.KeyTree Outcome

variable [Digest] {payloads : Set Bytes} {v : NamespaceView}

section Keys

/-- A key that is neither in the registry of objects nor leads to a version. -/
def Aside (key : Bytes) : Prop := ∀ n : RootName, n.key = key → n.mark ∉ [97, 98, 101, 111]

omit [Digest] in
theorem RootName.reserved (n : RootName) : Container.reserved n.key := by
  cases n with
  | record f => exact Or.inl f.namespacePrefix_prefix
  | orphanInode view id =>
    exact Or.inr ((List.prefix_append _ _).trans (List.prefix_append _ _))
  | orphanContent view id =>
    exact Or.inr ((List.prefix_append _ _).trans (List.prefix_append _ _))
  | _ => exact Or.inr (List.prefix_append _ _)

omit [Digest] in
theorem aside_of_not_reserved {key : Bytes} (h : ¬ Container.reserved key) : Aside key := by
  rintro n rfl
  exact absurd n.reserved h

omit [Digest] in
theorem aside_of_orphans {key : Bytes} (h : orphans <+: key) : Aside key := by
  obtain ⟨rest, rfl⟩ := h
  intro n hn
  have hmark : n.mark = 114 := by
    rw [n.mark_eq, hn]
    rfl
  rw [hmark]
  decide

omit [Digest] in
theorem aside_allocated (rest : Bytes) : Aside (history ++ (ascii "allocated/" ++ rest)) := by
  intro n hn
  have hmark : n.mark = 108 := by
    rw [n.mark_eq, hn]
    rfl
  rw [hmark]
  decide

omit [Digest] in
theorem aside_edit (e : Edit) : Aside e.name.key := by
  intro n hn
  rw [RootName.key_inj.mp hn]
  cases e <;> simp [Edit.name, RootName.mark]

variable {objects : ObjectStore} {m : Mutation}

theorem closed_of_aside (h : Aside m.key) : m.Closed objects := by
  intro n target hkey _
  have hmark := h n hkey
  cases n <;> first | exact trivial | simp [RootName.mark] at hmark

theorem closed_of_leadsTo (n : RootName) (hkey : m.key = n.key)
    (h : ∀ target, m.target = some target → n.LeadsTo objects target) : m.Closed objects := by
  intro n' target hkey' htarget
  rw [RootName.key_inj.mp (hkey'.trans hkey)]
  exact h target htarget

theorem closed_registry (b : Bytes) :
    (Mutation.assign (RootName.object (objectHash b)).key (some b)).Closed objects :=
  closed_of_leadsTo (.object (objectHash b)) rfl fun _ htarget => (Option.some.inj htarget).symm

end Keys

section Plans

variable {s s' : LevelStore} {name : Bytes} {revision : Bool} {delta : Delta}
  {plan : NamespaceView.Plan} {m : StdMap Bytes Hash}

omit [Digest] in
/-- The first tree of a flat World holds its references and the changes. -/
theorem override_emplaceAll (m : StdMap Bytes Hash) (delta : Delta) :
    (∅ : StdMap Bytes Hash).override
      (delta.emplaceAll (m.toList.map fun e => (e.1, some e.2))) = m.override delta := by
  have hnodup : ((m.toList.map fun e => (e.1, some e.2)).map Prod.fst).Nodup := by
    rw [List.map_map]
    exact m.nodup_toList
  refine StdMap.ext fun key => ?_
  rw [StdMap.getElem?_override, StdMap.getElem?_override]
  cases hdelta : delta[key]? with
  | some o => rw [(StdMap.getElem?_emplaceAll_of_nodup hnodup key o).mpr (Or.inl hdelta)]
  | none =>
    cases hm : m[key]? with
    | some id =>
      rw [(StdMap.getElem?_emplaceAll_of_nodup hnodup key (some id)).mpr (Or.inr ⟨hdelta, ?_⟩)]
      exact List.mem_map.mpr ⟨(key, id), StdMap.mem_toList.mpr hm, rfl⟩
    | none =>
      have hnone : (delta.emplaceAll (m.toList.map fun e => (e.1, some e.2)))[key]? = none := by
        rw [← StdMap.notMem_iff, StdMap.mem_emplaceAll, List.map_map, not_or]
        exact ⟨StdMap.notMem_iff.mpr hdelta, fun hmem =>
          StdMap.notMem_iff.mpr hm (StdMap.mem_map_toList.mp hmem)⟩
      rw [hnone]
      simp

/-- A planned version, once its objects are stored, holds the references with the changes. -/
theorem version_of_plan (hcf : CollisionFree payloads) (hknown : Known s payloads)
    (hv : Viewed s name revision v) (hrefs : v.references = .ok m)
    (hplan : v.planTree delta = .ok plan) (hhashed : ∀ b ∈ plan.hashed, b ∈ payloads)
    (hext : s.objects.Extends s'.objects)
    (hobjects : ∀ b ∈ plan.objects, s'.objects.object (objectHash b) = .ok b)
    (hmanifest : s'.objects.object (objectHash plan.manifest) = .ok plan.manifest)
    (hvalues : ∀ (key : Bytes) id, (m.override delta)[key]? = some id →
      ∃ b, s'.objects.object id = .ok b) :
    Version s'.objects (objectHash plan.manifest) (m.override delta) := by
  have htree {id root : Hash} {tree : KeyTree Bytes Hash}
      (hversion : HoldsVersion s.objects id root tree)
      (hrefs : (⟨s.catalog, .tree root⟩ : NamespaceView).references = .ok m)
      (hplan : (⟨s.catalog, .tree root⟩ : NamespaceView).planTree delta = .ok plan) :
      Version s'.objects (objectHash plan.manifest) (m.override delta) := by
    rw [hversion.references hcf hknown] at hrefs
    cases hrefs
    unfold NamespaceView.planTree at hplan
    obtain ⟨⟨root', all⟩, hroot, hplan⟩ := bind_eq_ok.mp hplan
    cases hroot
    dsimp only at hplan
    split at hplan
    · cases hplan
    · rename_i applied edited happly
      cases hplan
      obtain ⟨tree', htree', hmap⟩ := holdsVersion_of_apply hcf (hversion.editing hknown)
        (getElem?_treeMap hversion.tree.wf) happly hhashed hext hobjects hmanifest hvalues
      exact ⟨_, tree', htree', hmap.symm⟩
  cases hv with
  | world hworld id root tree hhead hversion => exact htree hversion hrefs hplan
  | revision hrevision id manifest root tree parent sequence hroot hobject hversion =>
    exact htree hversion hrefs hplan
  | flat hname hworld hhead =>
    unfold NamespaceView.planTree at hplan
    obtain ⟨references, hreferences, hplan⟩ := bind_eq_ok.mp hplan
    rw [hrefs] at hreferences
    cases hreferences
    obtain ⟨⟨root', all⟩, hroot, hplan⟩ := bind_eq_ok.mp hplan
    cases hroot
    dsimp only at hplan
    split at hplan
    · cases hplan
    · rename_i applied edited happly
      cases hplan
      rw [← override_emplaceAll m delta] at hvalues ⊢
      obtain ⟨tree', htree', hmap⟩ := holdsVersion_of_apply hcf (editing_empty s.objects.object)
        (m := ∅) (by simp [find?]) happly hhashed hext hobjects hmanifest hvalues
      exact ⟨_, tree', htree', hmap.symm⟩

end Plans

section Registered

variable {changes : StdMap Bytes (Option Bytes)} {plan : NamespaceView.Plan} {b : Bytes}

/-- The payloads of a new version: its nodes and the values of its records. -/
def VersionPayload (changes : StdMap Bytes (Option Bytes)) (plan : NamespaceView.Plan)
    (b : Bytes) : Prop :=
  b ∈ plan.objects ∨ ∃ e ∈ recordChanges changes, e.2 = some b

theorem mem_registry {j : Catalog} {e : Bytes × Bytes} :
    e ∈ j.registry b ↔ (RootName.object (objectHash b)).key ∉ j.roots ∧
      e = ((RootName.object (objectHash b)).key, b) := by
  unfold Catalog.registry
  by_cases h : (RootName.object (objectHash b)).key ∈ j.roots <;> simp [h]

/-- The new objects of a version are registered payloads and records of identities. -/
theorem mem_versionObjects {e : Bytes × Bytes} (h : e ∈ (versionObjects v changes plan).toList) :
    (∃ b, VersionPayload changes plan b ∧ e = ((RootName.object (objectHash b)).key, b)) ∨
      ∃ change ∈ recordChanges changes, allocations <+: change.1 ∧ change.2.isSome ∧
        e = (history ++ (ascii "allocated/" ++ change.1.drop allocations.length), []) := by
  rcases StdMap.mem_of_getElem?_emplaceAll (StdMap.mem_toList.mp h) with hempty | hmem
  · simp at hempty
  rcases List.mem_append.mp hmem with hrecord | hobject
  · obtain ⟨change, hchange, he⟩ := List.mem_flatMap.mp hrecord
    unfold Catalog.newObjects at he
    cases hvalue : change.2 with
    | none => simp [hvalue] at he
    | some value =>
      simp only [hvalue] at he
      rcases List.mem_append.mp he with he | he
      · exact Or.inl ⟨value, Or.inr ⟨change, hchange, hvalue⟩, (mem_registry.mp he).2⟩
      · split at he
        · rename_i hallocations
          exact Or.inr ⟨change, hchange, hallocations, by rw [hvalue]; rfl, List.mem_singleton.mp he⟩
        · cases he
  · obtain ⟨b, hb, he⟩ := List.mem_flatMap.mp hobject
    exact Or.inl ⟨b, Or.inl hb, (mem_registry.mp he).2⟩

/-- Every payload of a version is registered before or with it. -/
theorem registered_versionObjects (hb : VersionPayload changes plan b) :
    (RootName.object (objectHash b)).key ∈ v.journal.roots ∨
      ∃ e ∈ (versionObjects v changes plan).toList, objectHash e.2 = objectHash b := by
  by_cases hroot : (RootName.object (objectHash b)).key ∈ v.journal.roots
  · exact Or.inl hroot
  have hnew := mem_registry.mpr ⟨hroot, rfl⟩
  have hlisted : ((RootName.object (objectHash b)).key, b) ∈
      (recordChanges changes).flatMap v.journal.newObjects ++
        plan.objects.flatMap v.journal.registry := by
    rcases hb with hobject | ⟨change, hchange, hvalue⟩
    · exact List.mem_append_right _ (List.mem_flatMap.mpr ⟨b, hobject, hnew⟩)
    · refine List.mem_append_left _ (List.mem_flatMap.mpr ⟨change, hchange, ?_⟩)
      unfold Catalog.newObjects
      simp only [hvalue]
      exact List.mem_append_left _ hnew
  have hmem : (RootName.object (objectHash b)).key ∈ versionObjects v changes plan :=
    StdMap.mem_emplaceAll.mpr (Or.inr (List.mem_map.mpr ⟨_, hlisted, rfl⟩))
  obtain ⟨value, hvalue⟩ := StdMap.mem_iff.mp hmem
  refine Or.inr ⟨_, StdMap.mem_toList.mpr hvalue, ?_⟩
  -- Another payload under the same registry entry has the same identity.
  rcases mem_versionObjects (StdMap.mem_toList.mpr hvalue) with ⟨b', -, he⟩ | ⟨change, -, -, -, he⟩
  · obtain ⟨hkey, rfl⟩ := Prod.mk.inj he
    exact (RootName.object.inj (RootName.key_inj.mp hkey)).symm
  · have haside := aside_allocated _ _ (Prod.mk.inj he).1
    simp [RootName.mark] at haside

end Registered

section Commits

variable {s s' : LevelStore} {world : Bytes} {edits : List Edit} {b : Commit}

theorem Known.transacted {mutations : List Mutation} (hknown : Known s payloads)
    (h : LevelStore.Transacted s mutations s')
    (hvalues : ∀ m ∈ mutations, ∀ x, m.value = some x → x ∈ payloads) : Known s' payloads := by
  intro x hx
  rcases h.contents hx with hold | ⟨m, hm, hvalue⟩
  · exact hknown hold
  · exact hvalues m hm x hvalue

omit [Digest] in
/-- Only the mark of an identity has such a key. -/
theorem Edit.eq_allocated_of_isPrefix {e : Edit} (h : allocations <+: e.name.key) :
    ∃ id, e = .allocated id := by
  obtain ⟨rest, h⟩ := h
  have hmark := congrArg (fun key : Bytes => ((key.drop 8).headD 0).toNat) h
  cases e with
  | allocated id => exact ⟨id, rfl⟩
  | root id => exact absurd (show 97 = 114 from hmark) (by decide)
  | inode id n => exact absurd (show 97 = 105 from hmark) (by decide)
  | content id data => exact absurd (show 97 = 99 from hmark) (by decide)
  | entry directory name child => exact absurd (show 97 = 101 from hmark) (by decide)
  | orphanInode view id n => exact absurd (show 97 = 104 from hmark) (by decide)
  | orphanContent view id data => exact absurd (show 97 = 104 from hmark) (by decide)

omit [Digest] in
theorem mem_values {changes : StdMap Bytes (Option Bytes)} {e : Bytes × Option Bytes} {x : Bytes}
    (he : e ∈ changes.toList) (hx : e.2 = some x) : x ∈ changes.toList.filterMap Prod.snd :=
  List.mem_filterMap.mpr ⟨e, he, hx⟩

theorem VersionPayload.hashed {changes : StdMap Bytes (Option Bytes)} {plan : NamespaceView.Plan}
    {x : Bytes} (hx : VersionPayload changes plan x) :
    x ∈ (versionCommit world v changes plan).hashed := by
  rcases hx with hx | ⟨e, he, hx⟩
  · exact mem_versionCommit_hashed.mpr (Or.inr (Or.inr (Or.inl hx)))
  · exact mem_versionCommit_hashed.mpr (Or.inl (mem_values (List.mem_of_mem_filter he) hx))

/-- A commit hashes every payload that it stores. -/
theorem CommitPlanned.hashed (h : CommitPlanned world v (Edit.changes edits) b) :
    ∀ m ∈ b.mutations, ∀ x, m.value = some x → x ∈ b.hashed := by
  intro m hm x hx
  cases h with
  | flat hlegacy hroot =>
    obtain ⟨e, he, rfl⟩ := List.mem_map.mp hm
    exact mem_values he hx
  | retained hinit hrecords =>
    obtain ⟨e, he, rfl⟩ := List.mem_map.mp hm
    exact mem_values (List.mem_of_mem_filter he) hx
  | version hinit hrecords plan hplan =>
    rcases mem_versionCommit_mutations.mp hm with ⟨e, he, rfl⟩ | ⟨e, he, rfl⟩ | rfl
    · exact mem_versionCommit_hashed.mpr (Or.inl (mem_values (List.mem_of_mem_filter he) hx))
    · cases hx
      rcases mem_versionObjects he with ⟨b, hb, rfl⟩ | ⟨change, hchange, hallocations, -, rfl⟩
      · exact hb.hashed
      · obtain ⟨edit, -, rfl⟩ := mem_changes (List.mem_of_mem_filter hchange)
        obtain ⟨id, rfl⟩ := Edit.eq_allocated_of_isPrefix hallocations
        exact mem_versionCommit_hashed.mpr
          (Or.inl (mem_values (List.mem_of_mem_filter hchange) (x := []) rfl))
    · cases hx
      exact mem_versionCommit_hashed.mpr (Or.inr (Or.inr (Or.inr rfl)))

/-- A changed reference is that of a changed record. -/
theorem mem_recordDelta {changes : StdMap Bytes (Option Bytes)} {key : Bytes} {id : Hash}
    (h : (recordDelta changes)[key]? = some (some id)) :
    ∃ e ∈ recordChanges changes, e.1 = key ∧ ∃ x, e.2 = some x ∧ id = objectHash x := by
  rcases StdMap.mem_of_getElem?_insertAll h with hempty | hmem
  · simp at hempty
  obtain ⟨e, he, heq⟩ := List.mem_map.mp hmem
  obtain ⟨hkey, hvalue⟩ := Prod.mk.inj heq
  obtain ⟨x, hx, hid⟩ := Option.map_eq_some_iff.mp hvalue
  exact ⟨e, he, hkey, x, hx, hid.symm⟩

theorem CommitPlanned.known (h : CommitPlanned world v (Edit.changes edits) b)
    (hknown : Known s payloads) (hstore : LevelStore.Transacted s b.mutations s')
    (hhashed : ∀ x ∈ b.hashed, x ∈ payloads) : Known s' payloads :=
  hknown.transacted hstore fun m hm x hx => hhashed x (h.hashed m hm x hx)

/-- A commit stores the payloads of its version. -/
theorem object_of_versionPayload {name : Bytes} {revision : Bool}
    {changes : StdMap Bytes (Option Bytes)} {plan : NamespaceView.Plan} {x : Bytes}
    (hcf : CollisionFree payloads) (hs : s.Closed) (hv : Viewed s name revision v)
    (hstore : LevelStore.Transacted s (versionCommit world v changes plan).mutations s')
    (hknown' : Known s' payloads)
    (hhashed : ∀ x ∈ (versionCommit world v changes plan).hashed, x ∈ payloads)
    (hx : VersionPayload changes plan x) : s'.objects.object (objectHash x) = .ok x := by
  have hjournal : v.journal = s.catalog := by cases hv <;> rfl
  refine object_of_registered hcf hs hstore hknown' (hhashed x hx.hashed) ?_
  rcases registered_versionObjects (v := v) hx with hroot | ⟨e, he, hsame⟩
  · rw [hjournal] at hroot
    exact Or.inl hroot
  · refine Or.inr ⟨.assign e.1 (some e.2), ?_, by rw [← hsame]; rfl⟩
    exact mem_versionCommit_mutations.mpr (Or.inr (Or.inl ⟨e, he, rfl⟩))

/-- The version that a commit stores. -/
theorem version_of_commit {name : Bytes} {revision : Bool} {changes : StdMap Bytes (Option Bytes)}
    {plan : NamespaceView.Plan} {m : StdMap Bytes Hash} (hcf : CollisionFree payloads)
    (hs : s.Closed) (hknown : Known s payloads) (hv : Viewed s name revision v)
    (hrefs : v.references = .ok m) (hplan : v.plan (recordDelta changes) false = .ok plan)
    (hstore : LevelStore.Transacted s (versionCommit world v changes plan).mutations s')
    (hknown' : Known s' payloads)
    (hhashed : ∀ x ∈ (versionCommit world v changes plan).hashed, x ∈ payloads) :
    Version s'.objects (objectHash plan.manifest) (m.override (recordDelta changes)) := by
  have hjournal : v.journal = s.catalog := by cases hv <;> rfl
  have hread (x : Bytes) (hx : VersionPayload changes plan x) :
      s'.objects.object (objectHash x) = .ok x :=
    object_of_versionPayload hcf hs hv hstore hknown' hhashed hx
  have hmanifest : s'.objects.object (objectHash plan.manifest) = .ok plan.manifest := by
    refine object_of_registered hcf hs hstore hknown' (hhashed _ ?_)
      (Or.inr ⟨.assign (RootName.world world).key (some plan.manifest), ?_, rfl⟩)
    · exact mem_versionCommit_hashed.mpr (Or.inr (Or.inr (Or.inr rfl)))
    · exact mem_versionCommit_mutations.mpr (Or.inr (Or.inr rfl))
  have hvalues : ∀ (key : Bytes) id, (m.override (recordDelta changes))[key]? = some id →
      ∃ b, s'.objects.object id = .ok b := by
    intro key id hid
    rw [StdMap.getElem?_override] at hid
    cases hdelta : (recordDelta changes)[key]? with
    | some o =>
      rw [hdelta] at hid
      cases hid
      obtain ⟨e, he, -, x, hx, rfl⟩ := mem_recordDelta hdelta
      exact ⟨x, hread x (Or.inr ⟨e, he, hx⟩)⟩
    | none =>
      rw [hdelta] at hid
      obtain ⟨m', hshows⟩ := hv.shows hs hcf hknown
      cases hrefs.symm.trans hshows.references
      obtain ⟨x, hx⟩ := hshows.stored key id hid
      exact ⟨x, hstore.extends_ _ _ hx⟩
  have hplan' : v.planTree (recordDelta changes) = .ok plan := by
    unfold NamespaceView.plan at hplan
    rw [hjournal] at hplan
    exact hplan
  exact version_of_plan hcf hknown hv hrefs hplan'
    (fun x hx => hhashed x (mem_versionCommit_hashed.mpr (Or.inr (Or.inl hx)))) hstore.extends_
    (fun x hx => hread x (Or.inl hx)) hmanifest hvalues

/-- A commit of edits keeps the store closed. -/
theorem CommitPlanned.closed {name : Bytes} {revision : Bool}
    (h : CommitPlanned world v (Edit.changes edits) b) (hcf : CollisionFree payloads)
    (hs : s.Closed) (hknown : Known s payloads) (hv : Viewed s name revision v)
    (hstore : LevelStore.Transacted s b.mutations s') (hhashed : ∀ x ∈ b.hashed, x ∈ payloads) :
    s'.Closed := by
  have hknown' := h.known hknown hstore hhashed
  have hedit {e : Bytes × Option Bytes} (he : e ∈ (Edit.changes edits).toList) :
      (Mutation.assign e.1 e.2).Closed s'.objects := by
    obtain ⟨edit, -, rfl⟩ := mem_changes he
    exact closed_of_aside (aside_edit edit)
  refine hs.transacted hstore fun m hm => ?_
  cases h with
  | flat hlegacy hroot =>
    obtain ⟨e, he, rfl⟩ := List.mem_map.mp hm
    exact hedit he
  | retained hinit hrecords =>
    obtain ⟨e, he, rfl⟩ := List.mem_map.mp hm
    exact hedit (List.mem_of_mem_filter he)
  | version hinit hrecords plan hplan =>
    rcases mem_versionCommit_mutations.mp hm with ⟨e, he, rfl⟩ | ⟨e, he, rfl⟩ | rfl
    · exact hedit (List.mem_of_mem_filter he)
    · rcases mem_versionObjects he with ⟨b, -, rfl⟩ | ⟨change, -, -, -, rfl⟩
      · exact closed_registry b
      · exact closed_of_aside (aside_allocated _)
    · obtain ⟨map, hshows⟩ := hv.shows hs hcf hknown
      refine closed_of_leadsTo (.world world) rfl fun target htarget => ?_
      cases htarget
      exact ⟨_, version_of_commit hcf hs hknown hv hshows.references hplan hstore hknown' hhashed⟩

end Commits

end ForkFs
