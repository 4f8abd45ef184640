import ForkFs.Container.Depiction
import ForkFs.Namespace.Rename

/-!
# Orphans

Open files of a World that have lost their last entry are kept under roots of their own, two for
each file. The orphans of a World are exactly its open files without an inode. One predicate says
what the edits of an operation do to a World and its orphans; it holds of every operation.
-/

namespace ForkFs

open Bytes Outcome

section Roots

/-- The roots of a World's orphans. -/
def RootName.OrphanOf (world : Bytes) : RootName → Prop
  | .orphanInode view _ => view = world
  | .orphanContent view _ => view = world
  | _ => False

theorem RootName.OrphanOf.orphans {world : Bytes} {n : RootName} (h : n.OrphanOf world) :
    orphans <+: n.key := by
  cases n with
  | orphanInode | orphanContent => exact (List.prefix_append _ _).trans (List.prefix_append _ _)
  | _ => cases h

/-- The bytes under a root. -/
def Orphans.record (o : Orphans) : RootName → Option Bytes
  | .orphanInode _ id => (o.inode id).map InodeInfo.encode
  | .orphanContent _ id => o.content id
  | _ => none

variable {world : Bytes} {n : RootName}

/-- An assignment of a root sets it. -/
theorem Orphans.record_apply_self {e : Edit} (o : Orphans) (h : e.name.OrphanOf world) :
    (o.apply world e).record e.name = e.value := by
  cases e with
  | orphanInode view id m =>
    obtain rfl : view = world := h
    simp [apply, record, Edit.name, Edit.value]
  | orphanContent view id data =>
    obtain rfl : view = world := h
    simp [apply, record, Edit.name, Edit.value]
  | _ => cases h

/-- It leaves the others as they are. -/
theorem Orphans.record_apply_of_ne {e : Edit} (o : Orphans) (hn : n.OrphanOf world)
    (h : e.name ≠ n) : (o.apply world e).record n = o.record n := by
  cases e with
  | orphanInode view id m =>
    rw [apply]
    split
    · rename_i hview
      cases n with
      | orphanInode view' id' =>
        have hne : id' ≠ id := by
          rintro rfl
          exact h (by rw [Edit.name, hview, show view' = world from hn])
        simp only [record, Function.update_of_ne hne]
      | _ => rfl
    · rfl
  | orphanContent view id data =>
    rw [apply]
    split
    · rename_i hview
      cases n with
      | orphanContent view' id' =>
        have hne : id' ≠ id := by
          rintro rfl
          exact h (by rw [Edit.name, hview, show view' = world from hn])
        simp only [record, Function.update_of_ne hne]
      | _ => rfl
    · rfl
  | _ => rfl

/-- After edits a root has the value that the changes assign, or its old one. -/
theorem orphan_applyAll (o : Orphans) (edits : List Edit) (hn : n.OrphanOf world) :
    (o.applyAll world edits).record n = ((Edit.changes edits)[n.key]?).getD (o.record n) := by
  induction edits using List.reverseRecOn with
  | nil => simp [Edit.changes, StdMap.insertAll, Orphans.applyAll]
  | append_singleton edits e ih =>
    rw [Orphans.applyAll_append, Edit.changes_append, StdMap.getElem?_insert]
    change ((o.applyAll world edits).apply world e).record n = _
    by_cases h : e.name = n
    · subst h
      rw [if_pos rfl, Option.getD_some, Orphans.record_apply_self _ hn]
    · rw [if_neg fun hkey => h (RootName.key_injective hkey.symm), ← ih,
        Orphans.record_apply_of_ne _ hn h]

end Roots

section Stores

variable [Digest] {payloads : Set Bytes} {s s' : LevelStore} {v : NamespaceView}
  {world name : Bytes} {edits : List Edit} {b : Commit} {o : Orphans}

/-- The roots of a World's orphans lead to their records. -/
def LevelStore.Orphaned (s : LevelStore) (world : Bytes) (o : Orphans) : Prop :=
  ∀ n : RootName, n.OrphanOf world → (s.roots[n.key]?).map s.objects.object = (o.record n).map .ok

/-- An unchanged root leads to its record also in a store with more objects. -/
theorem LevelStore.Orphaned.record_of_root (h : s.Orphaned world o) {n : RootName}
    (hn : n.OrphanOf world) (hroot : s'.roots[n.key]? = s.roots[n.key]?)
    (hext : s.objects.Extends s'.objects) :
    (s'.roots[n.key]?).map s'.objects.object = (o.record n).map .ok := by
  have hrecord := h n hn
  rw [hroot, ← hrecord]
  cases hid : s.roots[n.key]? with
  | none => rfl
  | some id =>
    rw [hid] at hrecord
    obtain ⟨x, -, hx⟩ := Option.map_eq_some_iff.mp hrecord.symm
    rw [Option.map_some, Option.map_some, ← hx, hext id x hx.symm]

omit [Digest] in
theorem not_orphans_allocated (rest : Bytes) :
    ¬ orphans <+: history ++ (ascii "allocated/" ++ rest) := by
  intro h
  have hrest := (List.prefix_append_right_inj history).mp h
  obtain ⟨tail, htail⟩ := hrest
  exact absurd (congrArg List.head? htail) (by simp [ascii])

/-- A commit assigns the changed roots of orphans. -/
theorem CommitPlanned.mem_of_orphan {changes : StdMap Bytes (Option Bytes)} {key : Bytes}
    {value : Option Bytes} (h : CommitPlanned name v changes b) (hkey : orphans <+: key)
    (hvalue : changes[key]? = some value) : .assign key value ∈ b.mutations := by
  have hmem := StdMap.mem_toList.mpr hvalue
  have hretained : (key, value) ∈ retainedChanges changes :=
    List.mem_filter.mpr ⟨hmem, by simpa using hkey⟩
  cases h with
  | flat => exact List.mem_map.mpr ⟨(key, value), hmem, rfl⟩
  | retained => exact List.mem_map.mpr ⟨(key, value), hretained, rfl⟩
  | version => exact mem_versionCommit_mutations.mpr (.inl ⟨(key, value), hretained, rfl⟩)

/-- It assigns no others. -/
theorem CommitPlanned.mem_changes_of_orphan {changes : StdMap Bytes (Option Bytes)} {m : Mutation}
    (h : CommitPlanned name v changes b) (hm : m ∈ b.mutations) (hkey : orphans <+: m.key) :
    m.key ∈ changes := by
  have hlisted {e : Bytes × Option Bytes} (he : e ∈ changes.toList) : e.1 ∈ changes :=
    StdMap.mem_map_toList.mp (List.mem_map.mpr ⟨e, he, rfl⟩)
  cases h with
  | flat =>
    obtain ⟨e, he, rfl⟩ := List.mem_map.mp hm
    exact hlisted he
  | retained =>
    obtain ⟨e, he, rfl⟩ := List.mem_map.mp hm
    exact hlisted (List.mem_of_mem_filter he)
  | version =>
    rcases mem_versionCommit_mutations.mp hm with ⟨e, he, rfl⟩ | ⟨e, he, rfl⟩ | rfl
    · exact hlisted (List.mem_of_mem_filter he)
    · rcases mem_versionObjects he with ⟨x, -, rfl⟩ | ⟨change, -, -, -, rfl⟩
      · exact absurd (aside_of_orphans hkey (.object (objectHash x)) rfl) (by simp [RootName.mark])
      · exact absurd hkey (not_orphans_allocated _)
    · exact absurd (aside_of_orphans hkey (.world name) rfl) (by simp [RootName.mark])

/-- A commit applies its edits to the orphans. -/
theorem CommitPlanned.orphaned (h : CommitPlanned name v (Edit.changes edits) b)
    (hcf : CollisionFree payloads) (hs : s.Closed) (hknown : Known s payloads)
    (hstore : LevelStore.Transacted s b.mutations s') (hhashed : ∀ x ∈ b.hashed, x ∈ payloads)
    (ho : s.Orphaned world o) : s'.Orphaned world (o.applyAll world edits) := by
  intro n hn
  rw [orphan_applyAll _ _ hn]
  cases hvalue : (Edit.changes edits)[n.key]? with
  | none =>
    have hframe : s'.roots[n.key]? = s.roots[n.key]? := by
      refine hstore.frame _ fun hmem => ?_
      obtain ⟨m, hm, hkey⟩ := List.mem_map.mp hmem
      have hchanged := h.mem_changes_of_orphan hm (hkey ▸ hn.orphans)
      rw [hkey] at hchanged
      exact absurd hvalue (StdMap.notMem_iff.not.mp (not_not.mpr hchanged))
    rw [Option.getD_none, ho.record_of_root hn hframe hstore.extends_]
  | some value =>
    have hmem := h.mem_of_orphan hn.orphans hvalue
    have hbound : s'.roots[n.key]? = (Mutation.assign n.key value).target := hstore.bound _ hmem
    rw [hbound, Option.getD_some]
    cases value with
    | none => rfl
    | some x =>
      exact congrArg some (object_of_registered hcf hs hstore (h.known hknown hstore hhashed)
        (hhashed x (h.hashed _ hmem x rfl)) (.inr ⟨_, hmem, rfl⟩))

end Stores

section Worlds

/-- The orphans of a World are its open files without an inode. Open files are files. -/
structure Orphans.Right (o : Orphans) (opened : InodeId → Bool) (fs : Filesystem) : Prop where
  /-- The identities of open files were given out, and as far as they have inodes they are files. -/
  file : ∀ id, opened id = true → fs.allocated id = true ∧ ∀ n, fs.inode id = some n → n.kind = .file
  /-- Open files without an inode have both records. -/
  kept : ∀ id, opened id = true → fs.inode id = none → ∃ n data, o.inode id = some n ∧
    o.content id = some data ∧ n.Valid true ∧ data.length = n.size ∧ n.size ≤ 256 * 1024
  /-- The others have none. -/
  gone : ∀ id, (opened id = true → fs.Present id) → o.inode id = none ∧ o.content id = none

/-- What is left of an inode has its kind. -/
theorem InodeInfo.kind_of_unlinked {n n' : InodeInfo} {now : UInt64} (h : n.unlinked now = some n') :
    n'.kind = n.kind := by
  unfold InodeInfo.unlinked at h
  split at h
  · cases h
  · cases h
    rfl

/-- What the edits of an inode that loses an entry do to the orphans. -/
theorem orphans_of_unlink {v : NamespaceView} {env : Env} {world : Bytes} {opened : InodeId → Bool}
    {id : InodeId} {n : InodeInfo} {edits : List Edit}
    (h : v.unlink env world opened id n = .ok edits) :
    ((n.unlinked (env.clock 3)).isSome ∨ n.kind = .directory ∨ opened id = false) ∧
        (∀ w (o : Orphans), o.applyAll w edits = o) ∨
      n.unlinked (env.clock 3) = none ∧ n.kind ≠ .directory ∧ opened id = true ∧
        ∃ data, v.get (contentKey id) = .ok data ∧ ∀ w (o : Orphans), o.applyAll w edits =
          if world = w then ⟨Function.update o.inode id
            (some { n with links := 0, changedNs := env.clock 3 }),
            Function.update o.content id (some data)⟩ else o := by
  unfold NamespaceView.unlink at h
  rw [InodeInfo.unlinked]
  split at h
  · rename_i hlast
    rw [if_pos hlast]
    unfold NamespaceView.retire at h
    split at h
    · rename_i hkind
      cases h
      exact .inl ⟨.inr (.inl hkind), fun _ _ => rfl⟩
    · rename_i hkind
      split at h
      · rename_i hopened
        obtain ⟨data, hdata, h⟩ := bind_eq_ok.mp h
        cases h
        refine .inr ⟨rfl, hkind, hopened, data, hdata, fun w o => ?_⟩
        by_cases hw : world = w <;> simp [Orphans.applyAll, Orphans.apply, hw]
      · rename_i hclosed
        cases h
        exact .inl ⟨.inr (.inr (Bool.eq_false_of_not_eq_true hclosed)), fun _ _ => rfl⟩
  · rename_i hlast
    cases h
    rw [if_neg hlast]
    exact .inl ⟨.inl rfl, fun _ _ => rfl⟩

namespace Orphans.Right

open Filesystem

variable {fs fs' : Filesystem} {o : Orphans} {opened : InodeId → Bool} {v : NamespaceView}
  {env : Env} {world : Bytes} {id : InodeId} {n : InodeInfo} {edits : List Edit}

/-- They stay right if the kinds of inodes do. -/
theorem keep (h : o.Right opened fs)
    (hallocated : ∀ x, fs.allocated x = true → fs'.allocated x = true)
    (hkinds : ∀ x, fs.allocated x = true →
      (fs'.inode x).map InodeInfo.kind = (fs.inode x).map InodeInfo.kind) : o.Right opened fs' := by
  refine ⟨fun x hx => ⟨hallocated x (h.file x hx).1, fun m hm => ?_⟩, fun x hx hnone => ?_,
    fun x hx => h.gone x fun hopened => ?_⟩
  · have hkind := hkinds x (h.file x hx).1
    rw [hm] at hkind
    obtain ⟨m', hm', hsame⟩ := Option.map_eq_some_iff.mp hkind.symm
    rw [← hsame]
    exact (h.file x hx).2 m' hm'
  · refine h.kept x hx ?_
    have hkind := hkinds x (h.file x hx).1
    rw [hnone] at hkind
    exact Option.map_eq_none_iff.mp hkind.symm
  · obtain ⟨m, hm⟩ := hx hopened
    have hkind := hkinds x (h.file x hopened).1
    rw [hm] at hkind
    obtain ⟨m', hm', -⟩ := Option.map_eq_some_iff.mp hkind.symm
    exact ⟨m', hm'⟩

/-- An inode that loses an entry becomes an orphan with the last one, if it is open. -/
theorem unlink (h : o.Right opened fs) (hv : v.Pictures fs) (hfs : fs.Consistent)
    (hn : fs.inode id = some n) (hedits : v.unlink env world opened id n = .ok edits) :
    (o.applyAll world edits).Right opened (fs.dropped id (n.unlinked (env.clock 3))) := by
  have hother {x : InodeId} (hx : x ≠ id) :
      (fs.dropped id (n.unlinked (env.clock 3))).inode x = fs.inode x := Function.update_of_ne hx _ _
  have hself : (fs.dropped id (n.unlinked (env.clock 3))).inode id = n.unlinked (env.clock 3) :=
    Function.update_self _ _ _
  rcases orphans_of_unlink hedits with ⟨hkeep, hplain⟩ | ⟨hnone, hkind, hopened, data, hdata, horphan⟩
  · rw [hplain]
    refine ⟨fun x hx => ⟨(h.file x hx).1, fun m hm => ?_⟩, fun x hx hnone => ?_, fun x hx => ?_⟩
    · by_cases heq : x = id
      · subst heq
        rw [hself] at hm
        rw [InodeInfo.kind_of_unlinked hm]
        exact (h.file x hx).2 n hn
      · rw [hother heq] at hm
        exact (h.file x hx).2 m hm
    · by_cases heq : x = id
      · subst heq
        rw [hself] at hnone
        rw [hnone] at hkeep
        rcases hkeep with hsome | hdirectory | hclosed
        · cases hsome
        · rw [(h.file x hx).2 n hn] at hdirectory
          cases hdirectory
        · rw [hx] at hclosed
          cases hclosed
      · rw [hother heq] at hnone
        exact h.kept x hx hnone
    · refine h.gone x fun hopened => ?_
      by_cases heq : x = id
      · subst heq
        exact ⟨n, hn⟩
      · obtain ⟨m, hm⟩ := hx hopened
        rw [hother heq] at hm
        exact ⟨m, hm⟩
  · rw [horphan, if_pos rfl]
    obtain ⟨hvalid, -⟩ := hfs.inode id n hn
    have hfile := (h.file id hopened).2 n hn
    obtain ⟨data', hdata', hlength, hlimit⟩ := hfs.content_of_file hn hfile
    rw [hv.content_eq_ok] at hdata
    obtain rfl := Option.some.inj (hdata.symm.trans hdata')
    refine ⟨fun x hx => ⟨(h.file x hx).1, fun m hm => ?_⟩, fun x hx hgone => ?_, fun x hx => ?_⟩
    · by_cases heq : x = id
      · subst heq
        rw [hself, hnone] at hm
        cases hm
      · rw [hother heq] at hm
        exact (h.file x hx).2 m hm
    · by_cases heq : x = id
      · subst heq
        refine ⟨_, data, Function.update_self _ _ _, Function.update_self _ _ _,
          ⟨hvalid.mode, ?_, hvalid.size, ⟨hfile, rfl⟩, fun hdirectory => absurd hdirectory hkind⟩,
          hlength, hlimit⟩
        exact Nat.two_pow_pos 64
      · rw [hother heq] at hgone
        obtain ⟨m, data', hm, hdata', hrest⟩ := h.kept x hx hgone
        exact ⟨m, data', (Function.update_of_ne heq _ _).trans hm,
          (Function.update_of_ne heq _ _).trans hdata', hrest⟩
    · by_cases heq : x = id
      · subst heq
        obtain ⟨m, hm⟩ := hx hopened
        rw [hself, hnone] at hm
        cases hm
      · obtain ⟨hinode, hcontent⟩ := h.gone x fun hopened' => by
          obtain ⟨m, hm⟩ := hx hopened'
          rw [hother heq] at hm
          exact ⟨m, hm⟩
        exact ⟨(Function.update_of_ne heq _ _).trans hinode,
          (Function.update_of_ne heq _ _).trans hcontent⟩

end Orphans.Right

end Worlds

end ForkFs
