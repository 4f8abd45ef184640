import ForkFs.Container.Reachable

/-!
# Inode identities

An identity that was given to an inode stays on record: under its flat key, or in the registry
that all Worlds share. No transaction, recovery or collection deletes these roots, and a new
identity is one that is not on record. The identities of new inodes are therefore distinct.
-/

namespace ForkFs

open Bytes Outcome

section Records

/-- An identity is on record. -/
def Recorded (roots : StdMap Bytes Hash) (id : InodeId) : Prop :=
  allocatedKey id ∈ roots ∨ (RootName.allocated id).key ∈ roots

/-- A root that records an identity. -/
def Records (key : Bytes) : Prop :=
  ∃ id, key = allocatedKey id ∨ key = (RootName.allocated id).key

variable {v : NamespaceView} {id : InodeId}

theorem drop_allocations (id : InodeId) : (allocatedKey id).drop allocations.length = id.val := by
  unfold allocatedKey allocations
  rw [← List.append_assoc, List.drop_left]

/-- A view without the allocation mark of an identity is of a store that has no record of it. -/
theorem not_recorded_of_contains (h : v.contains (allocatedKey id) = .ok false) :
    ¬ Recorded v.journal.roots id := by
  unfold NamespaceView.contains at h
  dsimp only at h
  split at h
  · cases h
  · rename_i hno
    rintro (hflat | hregistry)
    · exact hno ⟨⟨id.val, by simp [allocatedKey]⟩, Or.inl hflat⟩
    · refine hno ⟨⟨id.val, by simp [allocatedKey]⟩, Or.inr ?_⟩
      have hdrop := drop_allocations id
      unfold allocations at hdrop
      rwa [hdrop]

/-- A drawn identity is not on record, whatever the entropy source proposes. -/
theorem newId_eq_ok {attempts : ℕ} {draws rest : List InodeId}
    (h : v.newId attempts draws = .ok (id, rest)) : ¬ Recorded v.journal.roots id :=
  not_recorded_of_contains (NamespaceView.contains_of_newId h).1

end Records

section Keys

/-- Records have reserved keys. -/
theorem Records.reserved {key : Bytes} (h : Records key) : Container.reserved key := by
  obtain ⟨id, rfl | rfl⟩ := h
  · exact Or.inl (List.prefix_append _ _)
  · exact Or.inr (List.prefix_append _ _)

/-- A record is neither an orphan nor the registry entry of an object: their keys have another
letter after the common beginning. -/
theorem Records.not_under {key rest : Bytes} (h : Records key) : ¬ history ++ 111 :: rest <+: key := by
  rintro ⟨tail, rfl⟩
  obtain ⟨id, h | h⟩ := h
  · have hmark := congrArg (fun key : Bytes => ((key.drop 7).headD 0).toNat) h
    change 45 = 47 at hmark
    omega
  · have hmark := congrArg (fun key : Bytes => ((key.drop 16).headD 0).toNat) h
    change 111 = 97 at hmark
    omega

end Keys

section Changes

variable {edits : List Edit} {id : InodeId}

/-- An edit of an identity's record sets it. -/
theorem Edit.eq_allocated {e : Edit} (h : e.name.key = allocatedKey id) : e = .allocated id := by
  have hname : e.name = .record (.allocated id) := RootName.key_injective h
  cases e <;> simp_all [Edit.name]

/-- A change is one of the edits. -/
theorem mem_changes {e : Bytes × Option Bytes} (h : e ∈ (Edit.changes edits).toList) :
    ∃ edit ∈ edits, e = (edit.name.key, edit.value) := by
  rcases StdMap.mem_of_getElem?_insertAll (StdMap.mem_toList.mp h) with hempty | hmem
  · simp at hempty
  · obtain ⟨edit, hedit, heq⟩ := List.mem_map.mp hmem
    exact ⟨edit, hedit, heq.symm⟩

/-- A change of a record sets it. -/
theorem isSome_of_mem_changes {e : Bytes × Option Bytes} (h : e ∈ (Edit.changes edits).toList)
    (hrecords : Records e.1) : e.2.isSome := by
  obtain ⟨edit, -, rfl⟩ := mem_changes h
  obtain ⟨id, hkey | hkey⟩ := hrecords
  · rw [Edit.eq_allocated hkey]
    rfl
  · have hname : edit.name = .allocated id := RootName.key_injective hkey
    cases edit <;> cases hname

/-- A new identity is among the changes. -/
theorem mem_changes_allocated (h : .allocated id ∈ edits) :
    (allocatedKey id, some []) ∈ (Edit.changes edits).toList := by
  have hkey : allocatedKey id ∈ Edit.changes edits :=
    StdMap.mem_insertAll.mpr (Or.inr (List.mem_map.mpr ⟨(allocatedKey id, some []),
      List.mem_map.mpr ⟨.allocated id, h, rfl⟩, rfl⟩))
  obtain ⟨value, hvalue⟩ := StdMap.mem_iff.mp hkey
  obtain ⟨edit, -, heq⟩ := mem_changes (StdMap.mem_toList.mpr hvalue)
  obtain ⟨hname, rfl⟩ := Prod.mk.inj heq
  rw [Edit.eq_allocated hname.symm] at hvalue
  exact StdMap.mem_toList.mpr hvalue

end Changes

section Operations

variable {v : NamespaceView} {env : Env}

/-- An operation records the identity that it gives out, which was not on record. -/
def Effect.Fresh {α : Type} (v : NamespaceView) (e : Effect α) : Prop :=
  ∀ id ∈ e.created, .allocated id ∈ e.edits ∧ ¬ Recorded v.journal.roots id

theorem Effect.fresh_of_none {α : Type} {e : Effect α} (h : e.created = none) : e.Fresh v := by
  intro id hid
  rw [h] at hid
  cases hid

theorem createAt_eq_ok {p : Parent} {kind : Kind} {mode : ℕ} {data : Bytes}
    {modified changed : UInt64} {id : InodeId} {draws : List InodeId} {edits : List Edit}
    (h : v.createAt env p kind mode data modified changed = .ok (id, draws, edits)) :
    .allocated id ∈ edits ∧ ¬ Recorded v.journal.roots id := by
  unfold NamespaceView.createAt at h
  obtain ⟨⟨id', draws'⟩, hid, h⟩ := bind_eq_ok.mp h
  obtain ⟨pn, -, h⟩ := bind_eq_ok.mp h
  cases h
  exact ⟨by simp, newId_eq_ok hid⟩

theorem fsInit_fresh : Ensures (v.fsInit env) (Effect.Fresh v) := by
  refine .bind fun found _ => .bind fun _ _ => .bind fun records _ => .bind fun _ _ => ?_
  refine .bind fun ⟨id, draws⟩ hid => ensures_pure ?_
  rintro _ ⟨⟩
  exact ⟨by simp, newId_eq_ok hid⟩

theorem mkdir_fresh {path : Bytes} {mode : ℕ} :
    Ensures (v.mkdir env path mode) (Effect.Fresh v) := by
  refine .bind fun ⟨p, _⟩ _ => .bind fun found _ => .bind fun _ _ => ?_
  refine .bind fun ⟨id, draws⟩ hid => .bind fun pn _ => .bind fun _ _ => ensures_pure ?_
  rintro _ ⟨⟩
  exact ⟨by simp, newId_eq_ok hid⟩

/-- A file or symbolic link at a free name, after edits of what had the name. -/
theorem create_fresh {p : Parent} {kind : Kind} {mode : ℕ} {data : Bytes}
    {modified changed : UInt64} (old : List Edit) :
    Ensures (do
      let (id, _, edits) ← v.createAt env p kind mode data modified changed
      return (⟨old ++ edits, some id, ()⟩ : Effect Unit)) (Effect.Fresh v) := by
  refine .bind fun ⟨id, draws, edits⟩ hcreate => ensures_pure ?_
  rintro _ ⟨⟩
  obtain ⟨hallocated, hfresh⟩ := createAt_eq_ok hcreate
  exact ⟨List.mem_append_right _ hallocated, hfresh⟩

/-- What is written to a destination. -/
theorem writeTo_fresh {value : Bytes} (target : Destination) : Ensures (match target with
    | .found id _ => do
      let n ← v.inode id
      need (n.kind = .file) "cannot write non-regular file"
      return (⟨[.inode id (some ({ n with size := value.length }.touch (env.clock 0))),
        .content id (some value)], none, ()⟩ : Effect Unit)
    | .missing p => do
      let (id, _, edits) ← v.createAt env p .file 0o644 value (env.clock 0) (env.clock 0)
      return ⟨edits, some id, ()⟩) (Effect.Fresh v) := by
  cases target with
  | found id names =>
    exact .bind fun n _ => .bind fun _ _ => ensures_pure (Effect.fresh_of_none rfl)
  | missing p => exact create_fresh []

theorem write_fresh {path value : Bytes} :
    Ensures (v.write env path value) (Effect.Fresh v) := by
  refine .bind fun r _ => .bind fun found _ => ?_
  obtain ⟨p, _⟩ := r
  dsimp only
  split
  · refine .bind fun id _ => .bind fun n _ => ?_
    split
    · exact .bind fun target _ => writeTo_fresh target
    · exact .bind fun target _ => writeTo_fresh target
  · exact .bind fun target _ => writeTo_fresh target

theorem symlink_fresh {target path : Bytes} :
    Ensures (v.symlink env target path) (Effect.Fresh v) :=
  .bind fun ⟨_, _⟩ _ => .bind fun _ _ => .bind fun _ _ => create_fresh []

theorem replaceFile_fresh {view path value : Bytes} {opened : InodeId → Bool} :
    Ensures (v.replaceFile env view opened path value) (Effect.Fresh v) := by
  refine .bind fun r _ => .bind fun found _ => ?_
  obtain ⟨p, _⟩ := r
  dsimp only
  split
  · refine .bind fun id _ => .bind fun n _ => .bind fun _ _ => .bind fun edits _ => ?_
    exact .bind fun r _ => create_fresh r.2
  · exact .bind fun r _ => create_fresh r.2

theorem editContent_fresh {path : Bytes} {edit : ContentEdit} :
    Ensures (v.editContent env path edit) (Effect.Fresh v) := by
  refine .bind fun id _ => .bind fun n _ => .bind fun _ _ => .bind fun data _ => .bind fun _ _ => ?_
  refine .bind fun edited _ => ?_
  cases edited with
  | none => exact ensures_pure (Effect.fresh_of_none rfl)
  | some value => exact .bind fun _ _ => ensures_pure (Effect.fresh_of_none rfl)

theorem setAttributes_fresh {path : Bytes} {a : Attributes} :
    Ensures (v.setAttributes env path a) (Effect.Fresh v) := by
  refine .bind fun id _ => .bind fun n _ => ?_
  split
  · exact ensures_pure (Effect.fresh_of_none rfl)
  · exact .bind fun _ _ => .bind fun r _ => ensures_pure (Effect.fresh_of_none rfl)

theorem link_fresh {source target : Bytes} :
    Ensures (v.link env source target) (Effect.Fresh v) := by
  refine .bind fun id _ => .bind fun n _ => .bind fun _ _ => .bind fun ⟨p, _⟩ _ => ?_
  refine .bind fun found _ => .bind fun _ _ => .bind fun _ _ => .bind fun pn _ => ?_
  exact ensures_pure (Effect.fresh_of_none rfl)

theorem remove_fresh {view path : Bytes} {opened : InodeId → Bool} {directory : Bool} :
    Ensures (v.remove env view opened path directory) (Effect.Fresh v) := by
  refine .bind fun ⟨p, _⟩ _ => .bind fun found _ => .bind fun _ _ => .bind fun id _ => ?_
  refine .bind fun n _ => .bind fun pn _ => .bind fun _ _ => ?_
  dsimp only
  split <;>
  exact .bind fun entries _ => .bind fun _ _ => .bind fun edits _ =>
    ensures_pure (Effect.fresh_of_none rfl)

theorem editHandle_fresh {view : Bytes} {h : OpenHandle} {edit : ContentEdit} :
    Ensures (v.editHandle env view h edit) (Effect.Fresh v) := by
  refine .bind fun _ _ => .bind fun ⟨linked, n⟩ _ => .bind fun data _ => .bind fun _ _ => ?_
  refine .bind fun edited _ => ?_
  cases edited with
  | none => exact ensures_pure (Effect.fresh_of_none rfl)
  | some value => exact .bind fun _ _ => ensures_pure (Effect.fresh_of_none rfl)

theorem handleSetAttributes_fresh {view : Bytes} {h : OpenHandle} {a : Attributes} :
    Ensures (v.handleSetAttributes env view h a) (Effect.Fresh v) := by
  refine .bind fun ⟨linked, n⟩ _ => .bind fun _ _ => ?_
  dsimp only
  split
  · exact ensures_pure (Effect.fresh_of_none rfl)
  · exact .bind fun ⟨n, data⟩ _ => ensures_pure (Effect.fresh_of_none rfl)

theorem rename_fresh {view source target : Bytes} {opened : InodeId → Bool} :
    Ensures (v.rename env view opened source target) (Effect.Fresh v) := by
  refine .bind fun ⟨src, _⟩ _ => .bind fun found _ => .bind fun _ _ => .bind fun id _ => ?_
  refine .bind fun n _ => .bind fun ⟨dst, ancestry⟩ _ => ?_
  dsimp only
  -- Every branch that returns does so without a new identity.
  repeat' first
    | exact ensures_pure (Effect.fresh_of_none rfl)
    | refine .bind fun _ _ => ?_
    | split

/-- What is opened at a destination. -/
theorem openAt_fresh {o : OpenOptions} (target : Destination) : Ensures (match target with
    | .found id _ => return (⟨id, env.draws, [], none, ()⟩ : Opening)
    | .missing p => do
      let (id, draws, edits) ← v.createAt env p .file o.mode [] (env.clock 0) (env.clock 1)
      return ⟨id, draws, edits, some id, ()⟩) fun opening => opening.effect.Fresh v ∧
        (opening.effect.edits = [] → opening.effect.created = none) := by
  cases target with
  | found id names => exact ensures_pure ⟨Effect.fresh_of_none rfl, fun _ => rfl⟩
  | missing p =>
    refine .bind fun r hcreate => ?_
    obtain ⟨id, draws, edits⟩ := r
    obtain ⟨hallocated, hfresh⟩ := createAt_eq_ok hcreate
    refine ensures_pure ⟨?_, fun hnone => ?_⟩
    · rintro _ ⟨⟩
      exact ⟨hallocated, hfresh⟩
    · change edits = [] at hnone
      rw [hnone] at hallocated
      cases hallocated

/-- An opening without edits creates nothing. -/
theorem openTarget_fresh {path : Bytes} {o : OpenOptions} :
    Ensures (v.openTarget env path o) fun opening => opening.effect.Fresh v ∧
      (opening.effect.edits = [] → opening.effect.created = none) := by
  have hfound (id : InodeId) : Ensures (pure (⟨id, env.draws, [], none, ()⟩ : Opening) :
      Except String Opening) fun opening => opening.effect.Fresh v ∧
        (opening.effect.edits = [] → opening.effect.created = none) :=
    ensures_pure ⟨Effect.fresh_of_none rfl, fun _ => rfl⟩
  unfold NamespaceView.openTarget
  split
  · refine .bind fun r _ => .bind fun found _ => .bind fun _ _ => ?_
    obtain ⟨p, _⟩ := r
    dsimp only
    split
    · refine .bind fun raw _ => .bind fun n _ => .bind fun _ _ => .bind fun target _ => ?_
      exact openAt_fresh target
    · exact .bind fun target _ => openAt_fresh target
  · refine .bind fun id _ => ?_
    split
    · exact .bind fun n _ => .bind fun _ _ => hfound id
    · exact hfound id

theorem openFile_fresh {path : Bytes} {o : OpenOptions} :
    Ensures (v.openFile env path o) fun opening => opening.effect.Fresh v := by
  refine .bind fun opening hopening => ?_
  obtain ⟨hfresh, hnone⟩ := openTarget_fresh opening hopening
  split
  · rename_i hedits
    refine .bind fun n _ => .bind fun _ _ => ?_
    split
    · exact ensures_pure (Effect.fresh_of_none (hnone hedits))
    · exact ensures_pure hfresh
  · exact ensures_pure hfresh

end Operations

section Containers

variable [Digest]

section Stores

variable {s s' : LevelStore} {mutations : List Mutation} {id : InodeId}

/-- A store keeps the records of another. -/
def KeepsRecords (s s' : LevelStore) : Prop := ∀ id, Recorded s.roots id → Recorded s'.roots id

/-- A root that a transaction does not delete stays. -/
theorem LevelStore.Transacted.mem_roots (h : Transacted s mutations s') {key : Bytes}
    (hkey : key ∈ s.roots) (hassigned : ∀ m ∈ mutations, m.key = key → m.target.isSome) :
    key ∈ s'.roots := by
  by_cases hmem : key ∈ mutations.map Mutation.key
  · obtain ⟨m, hm, rfl⟩ := List.mem_map.mp hmem
    obtain ⟨target, htarget⟩ := Option.isSome_iff_exists.mp (hassigned m hm rfl)
    exact StdMap.mem_iff.mpr ⟨target, by rw [h.bound m hm, htarget]⟩
  · obtain ⟨target, htarget⟩ := StdMap.mem_iff.mp hkey
    exact StdMap.mem_iff.mpr ⟨target, by rw [h.frame key hmem, htarget]⟩

/-- A transaction that deletes no record keeps all of them. -/
theorem LevelStore.Transacted.keepsRecords (h : Transacted s mutations s')
    (hassigned : ∀ m ∈ mutations, Records m.key → m.target.isSome) : KeepsRecords s s' := by
  rintro id (hflat | hregistry)
  · exact Or.inl (h.mem_roots hflat fun m hm hkey => hassigned m hm ⟨id, Or.inl hkey⟩)
  · exact Or.inr (h.mem_roots hregistry fun m hm hkey => hassigned m hm ⟨id, Or.inr hkey⟩)

/-- A collection keeps the roots that are not obsolete. -/
theorem mem_roots_collect {expected removed : ℕ} {live : Finset Hash} {obsolete : List Bytes}
    (h : s.collect expected live obsolete = .ok (removed, s')) {key : Bytes}
    (hkey : key ∉ obsolete) (hmem : key ∈ s.roots) : key ∈ s'.roots := by
  unfold LevelStore.collect at h
  obtain ⟨-, h⟩ := need_bind_eq_ok.mp h
  obtain ⟨-, h⟩ := need_bind_eq_ok.mp h
  obtain ⟨-, h⟩ := need_bind_eq_ok.mp h
  obtain ⟨-, h⟩ := need_bind_eq_ok.mp h
  cases h
  obtain ⟨id, hid⟩ := StdMap.mem_iff.mp hmem
  exact StdMap.mem_iff.mpr ⟨id, by rw [StdMap.getElem?_foldl_erase, if_neg hkey, hid]⟩

/-- A collection deletes registry entries of objects only. -/
theorem keepsRecords_planCollect {removed : ℕ}
    (h : Container.planCollect s = .ok (removed, s')) : KeepsRecords s s' := by
  unfold Container.planCollect at h
  obtain ⟨-, -, h⟩ := bind_eq_ok.mp h
  obtain ⟨live, -, h⟩ := bind_eq_ok.mp h
  have hkept (key : Bytes) (hrecords : Records key) (hmem : key ∈ s.roots) : key ∈ s'.roots := by
    refine mem_roots_collect h (fun hobsolete => ?_) hmem
    exact hrecords.not_under (Catalog.mem_keys.mp (List.mem_of_mem_filter hobsolete)).2
  rintro id (hflat | hregistry)
  · exact Or.inl (hkept _ ⟨id, Or.inl rfl⟩ hflat)
  · exact Or.inr (hkept _ ⟨id, Or.inr rfl⟩ hregistry)

end Stores

section Commits

variable {world : Bytes} {v : NamespaceView} {edits : List Edit} {b : Commit} {id : InodeId}

/-- A commit deletes no record. -/
theorem planCommit_keeps (h : planCommit world v (Edit.changes edits) = .ok b) :
    ∀ m ∈ b.mutations, Records m.key → m.target.isSome := by
  have hassign {e : Bytes × Option Bytes} (he : e ∈ (Edit.changes edits).toList)
      (hrecords : Records e.1) : (Mutation.assign e.1 e.2).target.isSome := by
    obtain ⟨value, hvalue⟩ := Option.isSome_iff_exists.mp (isSome_of_mem_changes he hrecords)
    rw [hvalue]
    rfl
  intro m hm hrecords
  cases planCommit_eq_ok h with
  | flat hlegacy hroot =>
    obtain ⟨e, he, rfl⟩ := List.mem_map.mp hm
    exact hassign he hrecords
  | retained hinit hnone =>
    obtain ⟨e, he, rfl⟩ := List.mem_map.mp hm
    exact hassign (List.mem_of_mem_filter he) hrecords
  | version hinit hsome plan hplan =>
    rcases mem_versionCommit_mutations.mp hm with ⟨e, he, rfl⟩ | ⟨e, -, rfl⟩ | rfl
    · exact hassign (List.mem_of_mem_filter he) hrecords
    · rfl
    · rfl

/-- A commit records every new identity. -/
theorem planCommit_records (h : planCommit world v (Edit.changes edits) = .ok b)
    (hid : .allocated id ∈ edits) : ∃ m ∈ b.mutations, m.target.isSome ∧
      (m.key = allocatedKey id ∨ m.key = (RootName.allocated id).key) := by
  have hchange := mem_changes_allocated hid
  have hrecord : (allocatedKey id, some []) ∈ recordChanges (Edit.changes edits) :=
    List.mem_filter.mpr ⟨hchange, decide_eq_true (Records.not_under ⟨id, Or.inl rfl⟩)⟩
  cases planCommit_eq_ok h with
  | flat hlegacy hroot => exact ⟨_, List.mem_map.mpr ⟨_, hchange, rfl⟩, rfl, Or.inl rfl⟩
  | retained hinit hnone =>
    rw [hnone] at hrecord
    cases hrecord
  | version hinit hsome plan hplan =>
    have hnew : ((RootName.allocated id).key, []) ∈
        v.journal.newObjects (allocatedKey id, some []) := by
      unfold Catalog.newObjects
      dsimp only
      rw [if_pos ⟨id.val, by simp [allocations, allocatedKey]⟩, drop_allocations]
      exact List.mem_append_right _ (List.mem_singleton.mpr rfl)
    have hmem : (RootName.allocated id).key ∈ versionObjects v (Edit.changes edits) plan := by
      refine StdMap.mem_emplaceAll.mpr (Or.inr ?_)
      refine List.mem_map.mpr ⟨((RootName.allocated id).key, []), ?_, rfl⟩
      exact List.mem_append_left _ (List.mem_flatMap.mpr ⟨_, hrecord, hnew⟩)
    obtain ⟨value, hvalue⟩ := StdMap.mem_iff.mp hmem
    refine ⟨.assign (RootName.allocated id).key (some value), ?_, rfl, Or.inr rfl⟩
    exact mem_versionCommit_mutations.mpr (Or.inr (Or.inl ⟨_, StdMap.mem_toList.mpr hvalue, rfl⟩))

end Commits

section Runs

variable {ns : Namespace} {op : NamespaceCall} {c c' : Container} {v : NamespaceView}

/-- A version is read from the store as it is. -/
theorem view_journal (h : c.view ns = .ok v) : v.journal = c.store.catalog := by
  have hload (manifest : Hash) : Ensures (NamespaceView.load c.store.catalog manifest true)
      fun v => v.journal = c.store.catalog :=
    .bind fun layout _ => .bind fun root _ => .bind fun _ _ => ensures_pure rfl
  have hopen : Ensures (c.view ns) fun v => v.journal = c.store.catalog := by
    refine .bind fun _ _ => ?_
    split
    · exact ensures_pure rfl
    · split
      · exact .bind fun descriptor _ => .bind fun manifest _ => hload manifest
      · exact .bind fun manifest _ => hload manifest
  exact hopen v h

theorem Planned.fresh {view : Bytes} {edits : List Edit} {created : Option InodeId}
    (h : Planned c view v edits created) :
    ∀ id ∈ created, .allocated id ∈ edits ∧ ¬ Recorded v.journal.roots id := by
  cases h with
  | fsInit env e hview h => exact fsInit_fresh e h
  | mkdir env path mode e hmode h => exact mkdir_fresh e h
  | write env path value e hsize h => exact write_fresh e h
  | replaceFile env path value e hsize h => exact replaceFile_fresh e h
  | editContent env path edit e h => exact editContent_fresh e h
  | setAttributes env path a e ha h => exact setAttributes_fresh e h
  | symlink env target path names e htarget h => exact symlink_fresh e h
  | link env source target e h => exact link_fresh e h
  | remove env path directory e h => exact remove_fresh e h
  | rename env source target e h => exact rename_fresh e h
  | editHandle env token h edit e htoken hview hworld he => exact editHandle_fresh e he
  | handleSetAttributes env token h a e htoken hview hworld ha he =>
    exact handleSetAttributes_fresh e he

/-- Records are kept, and a new identity is new on record. -/
structure Container.Issues (c c' : Container) : Prop where
  /-- No record is lost. -/
  kept : KeepsRecords c.store c'.store
  /-- At most one identity was given out, which was not on record. -/
  given : ∃ new : Option InodeId, c'.created = c.created ++ new.toList ∧
    ∀ id ∈ new, Recorded c'.store.roots id ∧ ¬ Recorded c.store.roots id

/-- Keeping the records without giving out an identity. -/
theorem Container.issues_of_kept (hkept : KeepsRecords c.store c'.store)
    (hcreated : c'.created = c.created) : c.Issues c' :=
  ⟨hkept, none, by simp [hcreated], by simp⟩

theorem Commits.issues {c₀ : Container} {world : Bytes} {edits : List Edit}
    {created : Option InodeId} (h : Commits c world v edits created c')
    (hstore : c.store = c₀.store) (hcreated : c.created = c₀.created)
    (hjournal : v.journal = c₀.store.catalog)
    (hfresh : ∀ id ∈ created, .allocated id ∈ edits ∧ ¬ Recorded v.journal.roots id) :
    c₀.Issues c' := by
  cases h with
  | nothing hedits =>
    refine ⟨fun id hid => by rwa [hstore], none, by simp [hcreated], by simp⟩
  | batch b store hedits hplan htransact =>
    have htransacted := LevelStore.transact_eq_ok htransact
    have hkept := htransacted.keepsRecords (planCommit_keeps hplan)
    refine ⟨fun id hid => hkept id (by rwa [hstore]), created, by rw [hcreated], fun id hid => ?_⟩
    obtain ⟨hallocated, hnew⟩ := hfresh id hid
    rw [hjournal] at hnew
    refine ⟨?_, hnew⟩
    obtain ⟨m, hm, htarget, hkey⟩ := planCommit_records hplan hallocated
    obtain ⟨target, htarget⟩ := Option.isSome_iff_exists.mp htarget
    have hmem : m.key ∈ store.roots :=
      StdMap.mem_iff.mpr ⟨target, by rw [htransacted.bound m hm, htarget]⟩
    rcases hkey with hkey | hkey
    · exact Or.inl (hkey ▸ hmem)
    · exact Or.inr (hkey ▸ hmem)

theorem stageManifest_assigns {j : Catalog} :
    Ensures (ns.stageManifest j v) fun r => ∀ m ∈ r.2.mutations, m.target.isSome := by
  unfold Namespace.stageManifest
  split
  · refine .bind fun plan _ => ensures_pure fun m hm => ?_
    obtain ⟨e, -, rfl⟩ := List.mem_map.mp hm
    rfl
  · exact .bind fun head _ => ensures_pure (by simp)

/-- A snapshot deletes no root. -/
theorem planSnapshot_assigns {s : LevelStore} {name : Bytes} :
    Ensures (ns.planSnapshot s name) fun r => ∀ m ∈ r.2.mutations, m.target.isSome := by
  refine .bind fun _ _ => .bind fun v _ => .bind fun _ _ => ?_
  refine .bind fun ⟨manifest, staged⟩ hstaged => .bind fun parent _ => ensures_pure fun m hm => ?_
  rcases List.mem_append.mp hm with hm | hm
  · exact stageManifest_assigns _ hstaged m hm
  · rcases List.mem_cons.mp hm with rfl | hm
    · rfl
    · rw [List.mem_singleton.mp hm]
      rfl

/-- A fork deletes no root. -/
theorem planFork_assigns {j : Catalog} {revision world : Bytes} :
    Ensures (Namespace.planFork j revision world) fun b => ∀ m ∈ b.mutations, m.target.isSome := by
  refine .bind fun _ _ => .bind fun record _ => .bind fun manifest _ => .bind fun v _ => ?_
  refine .bind fun _ _ => .bind fun id _ => ensures_pure fun m hm => ?_
  rcases List.mem_cons.mp hm with rfl | hm
  · rfl
  · rw [List.mem_singleton.mp hm]
    rfl

/-- An operation keeps the records and gives out at most one identity, which is new. -/
theorem Performed.issues (h : Performed ns op c c') : c.Issues c' := by
  have hsame : KeepsRecords c.store c.store := fun _ h => h
  cases h with
  | unchanged => exact Container.issues_of_kept hsame rfl
  | updated v edits created _ hworld hv hplanned hcommit =>
    exact hcommit.issues rfl rfl (view_journal hv) hplanned.fresh
  | wroteNext v edits created c₁ token h position hworld hv hplanned hcommit htoken =>
    obtain ⟨hkept, hgiven⟩ := hcommit.issues rfl rfl (view_journal hv) hplanned.fresh
    exact ⟨hkept, hgiven⟩
  | snapshot name id b store hname hworld hplan hstore =>
    refine Container.issues_of_kept ?_ rfl
    exact (LevelStore.transact_eq_ok hstore).keepsRecords fun m hm _ =>
      planSnapshot_assigns _ hplan m hm
  | forked revision world b store hrevision hname hmain hworld hplan hstore =>
    refine Container.issues_of_kept ?_ rfl
    exact (LevelStore.transact_eq_ok hstore).keepsRecords fun m hm _ =>
      planFork_assigns _ hplan m hm
  | opened v env path o opening token h _ hworld hmode hlimit hv hopening hfresh hhandle hcommit =>
    exact hcommit.issues rfl rfl (view_journal hv) (openFile_fresh opening hopening)
  | duplicated source token h hsource hview hrevision hlimit hfresh =>
    exact Container.issues_of_kept hsame rfl
  | closed token h hop htoken hview hrevision hkept => exact Container.issues_of_kept hsame rfl
  | dropped token h store hop htoken hview hrevision hworld hcount horphan hstore =>
    refine Container.issues_of_kept ?_ rfl
    refine (LevelStore.transact_eq_ok hstore).keepsRecords fun m hm hrecords => ?_
    have horphan : orphans <+: m.key := by
      simp only [List.mem_cons, List.not_mem_nil, or_false] at hm
      rcases hm with rfl | rfl <;>
      · simp only [Mutation.assign, RootName.key, orphanPrefix, orphans, List.append_assoc]
        exact List.prefix_append_right_inj _ |>.mpr (List.prefix_append _ _)
    exact absurd horphan hrecords.not_under
  | moved token h position htoken => exact Container.issues_of_kept hsame rfl
  | locked token h mode start stop length hop hend htoken hview hrevision hlt hstop hfree hlength =>
    exact Container.issues_of_kept hsame rfl

/-- Deleting roots of orphans keeps the records. -/
theorem keepsRecords_dropsAll (h : c.DropsAll c') : KeepsRecords c.store c'.store := by
  induction h with
  | refl => exact fun _ h => h
  | tail _ hdrops ih =>
    obtain ⟨keys, store, hkeys, hstore, rfl⟩ := hdrops
    refine fun id hid => (LevelStore.transact_eq_ok hstore).keepsRecords (fun m hm hrecords => ?_) id
      (ih id hid)
    obtain ⟨key, hkey, rfl⟩ := List.mem_map.mp hm
    exact absurd (hkeys key hkey).1 hrecords.not_under

/-- So does every event. -/
theorem Container.Happened.issues {event : ContainerEvent} (h : c.Happened event c') :
    c.Issues c' := by
  cases h with
  | performed ns env op _ hperformed => exact hperformed.issues
  | refused | pinned => exact Container.issues_of_kept (fun _ h => h) rfl
  | user op expected mutations store hkeys hstore =>
    refine Container.issues_of_kept ?_ rfl
    exact (LevelStore.transact_eq_ok hstore).keepsRecords fun m hm hrecords =>
      absurd hrecords.reserved (hkeys m hm)
  | collected removed store hhandles hpins hplan =>
    exact Container.issues_of_kept (keepsRecords_planCollect hplan) rfl
  | restarted interrupted _ hdrops =>
    have hkept := keepsRecords_dropsAll hdrops
    obtain ⟨store, rfl⟩ := dropsAll_frame hdrops
    exact Container.issues_of_kept hkept rfl

/-- The identities of inodes are distinct and on record. -/
structure Container.IdentitiesRight (c : Container) : Prop where
  /-- No identity was given out twice. -/
  nodup : c.created.Nodup
  /-- All of them are on record. -/
  recorded : ∀ id ∈ c.created, Recorded c.store.roots id

theorem Container.IdentitiesRight.issues (hc : c.IdentitiesRight) (h : c.Issues c') :
    c'.IdentitiesRight := by
  obtain ⟨hkept, new, hcreated, hnew⟩ := h
  have hrecorded : ∀ id ∈ c'.created, Recorded c'.store.roots id := by
    intro id hid
    rw [hcreated] at hid
    rcases List.mem_append.mp hid with hid | hid
    · exact hkept id (hc.recorded id hid)
    · exact (hnew id (Option.mem_toList.mp hid)).1
  refine ⟨?_, hrecorded⟩
  rw [hcreated]
  refine List.Nodup.append hc.nodup ?_ fun id hold hid =>
    (hnew id (Option.mem_toList.mp hid)).2 (hc.recorded id hold)
  cases new <;> simp

theorem Container.run_identities {events : List ContainerEvent}
    (h : Container.run events = .ok c) : c.IdentitiesRight :=
  run_invariant ⟨List.nodup_nil, by simp [create, opened]⟩
    (fun _ _ _ _ hc hevent => hc.issues hevent.issues) h

/-- The identities of new inodes are distinct over every run, and no identity that was given out
is ever drawn again, in whatever World and whatever the entropy source proposes. -/
theorem identities_never_reused {events : List ContainerEvent}
    (h : Container.run events = .ok c) :
    c.created.Nodup ∧ ∀ (ns : Namespace) v attempts draws id rest, c.view ns = .ok v →
      v.newId attempts draws = .ok (id, rest) → id ∉ c.created := by
  have hc := Container.run_identities h
  refine ⟨hc.nodup, fun ns v attempts draws id rest hv hid hcreated => ?_⟩
  have hfresh := newId_eq_ok hid
  rw [view_journal hv] at hfresh
  exact hfresh (hc.recorded id hcreated)

end Runs

end Containers

section Samples

local instance identitiesDigest : Digest := sha256

/-- After the root directory got an identity, only another one can be drawn. -/
theorem identities_never_reused_sample : ∃ c, Container.run [sampleInit] = .ok c ∧
    c.created = [sampleId] ∧ c.created.Nodup ∧
    ∀ (ns : Namespace) v attempts draws id rest, c.view ns = .ok v →
      v.newId attempts draws = .ok (id, rest) → id ∉ c.created := by
  have hrun : Container.run [sampleInit] =
      .ok (after (NamespaceCall.fsInit.method sampleMain sampleEnv) .create) := rfl
  exact ⟨_, hrun, by decide +kernel, identities_never_reused hrun⟩

end Samples

end ForkFs
