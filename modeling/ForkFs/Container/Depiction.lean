import ForkFs.Container.Isolation
import ForkFs.Namespace.Lookups

/-!
# The file systems of Worlds

The references of a version depict a file system if they lead to its records and to nothing else.
All reads of the version are then those of the file system. What leaves a view as it was leaves
its file system, and a commit applies its edits to it.
-/

namespace ForkFs

open Bytes Outcome

section Edits

variable {edits : List Edit}

theorem Edit.changes_append (edits : List Edit) (e : Edit) :
    changes (edits ++ [e]) = (changes edits).insert e.name.key e.value := by
  simp [changes, StdMap.insertAll, List.foldl_append]

/-- After edits a record has the value that the changes assign, or its old one. -/
theorem record_applyAll (fs : Filesystem) (edits : List Edit) (f : Field) :
    (fs.applyAll edits).record f = ((Edit.changes edits)[f.key]?).getD (fs.record f) := by
  induction edits using List.reverseRecOn with
  | nil => simp [Edit.changes, StdMap.insertAll]
  | append_singleton edits e ih =>
    rw [Filesystem.applyAll_append, Edit.changes_append, StdMap.getElem?_insert]
    change ((fs.applyAll edits).apply e).record f = _
    by_cases h : e.name = .record f
    · have hkey : f.key = e.name.key := by rw [h]; rfl
      rw [Filesystem.record_apply_self h, if_pos hkey, Option.getD_some]
    · have hkey : ¬ f.key = e.name.key := fun hkey =>
        h (RootName.key_injective (show e.name.key = (RootName.record f).key from hkey.symm))
      rw [Filesystem.record_apply_of_ne h, if_neg hkey, ih]

theorem not_orphans_field (f : Field) : ¬ orphans <+: f.key :=
  not_history_of_namespacePrefix f.namespacePrefix_prefix

/-- A changed key of a World is that of a record. -/
theorem field_of_mem_changes {key : Bytes} (h : key ∈ Edit.changes edits)
    (hkey : ¬ orphans <+: key) : ∃ f : Field, key = f.key := by
  obtain ⟨value, hvalue⟩ := StdMap.mem_iff.mp h
  obtain ⟨e, -, heq⟩ := mem_changes (StdMap.mem_toList.mpr hvalue)
  obtain ⟨rfl, -⟩ := Prod.mk.inj heq
  cases e with
  | orphanInode view id n =>
    exact absurd ((List.prefix_append _ _).trans (List.prefix_append _ _)) hkey
  | orphanContent view id data =>
    exact absurd ((List.prefix_append _ _).trans (List.prefix_append _ _)) hkey
  | root id => exact ⟨.root, rfl⟩
  | inode id n => exact ⟨.inode id, rfl⟩
  | content id data => exact ⟨.content id, rfl⟩
  | entry directory name child => exact ⟨.entry directory name, rfl⟩
  | allocated id => exact ⟨.allocated id, rfl⟩

variable [Digest]

/-- The changed references of a World. -/
theorem getElem?_recordDelta (changes : StdMap Bytes (Option Bytes)) {key : Bytes}
    (hkey : ¬ orphans <+: key) :
    (recordDelta changes)[key]? = (changes[key]?).map (Option.map objectHash) := by
  have hnodup : (((recordChanges changes).map fun e => (e.1, e.2.map objectHash)).map
      Prod.fst).Nodup := by
    rw [List.map_map]
    exact changes.nodup_toList.sublist (List.filter_sublist.map _)
  refine Option.ext fun o => ?_
  rw [recordDelta, StdMap.getElem?_insertAll hnodup, Option.map_eq_some_iff]
  constructor
  · rintro (hmem | ⟨-, hempty⟩)
    · obtain ⟨e, he, heq⟩ := List.mem_map.mp hmem
      obtain ⟨rfl, rfl⟩ := Prod.mk.inj heq
      exact ⟨e.2, StdMap.mem_toList.mp (List.mem_of_mem_filter he), rfl⟩
    · simp at hempty
  · rintro ⟨value, hvalue, rfl⟩
    refine .inl (List.mem_map.mpr ⟨(key, value), List.mem_filter.mpr ⟨?_, ?_⟩, rfl⟩)
    · exact StdMap.mem_toList.mpr hvalue
    · simpa using hkey

end Edits

section Depicts

variable [Digest] {s s' : LevelStore} {v v' : NamespaceView} {m m' : StdMap Bytes Hash}
  {fs : Filesystem} {ns ns' : Namespace}

/-- The references lead to the records of a file system and to nothing else. -/
structure Depicts (objects : ObjectStore) (m : StdMap Bytes Hash) (fs : Filesystem) : Prop where
  /-- The records. -/
  record : ∀ f : Field, (m[f.key]?).map objects.object = (fs.record f).map .ok
  /-- There are no others. -/
  only : ∀ key ∈ m, ∃ f : Field, key = f.key

/-- The file system that the reads of a view give. -/
def NamespaceView.filesystem (v : NamespaceView) : Filesystem where
  root := v.root.toOption
  inode id := (v.inode id).toOption
  content id := (v.get (contentKey id)).toOption
  entry p := (v.child p.1 p.2).toOption
  allocated id := v.lookup (allocatedKey id) matches .ok (some _)

theorem Depicts.getElem?_eq (h : Depicts s.objects m fs) (f : Field) :
    (m[f.key]?).isSome = (fs.record f).isSome := by
  have hrecord := congrArg Option.isSome (h.record f)
  simpa using hrecord

/-- The bytes of a record. -/
theorem Depicts.get (h : Depicts s.objects m fs) (hshows : Shows s v m) (f : Field) :
    v.get f.key = found (fs.record f) := by
  rw [hshows.get f.namespacePrefix_prefix]
  have hrecord := h.record f
  cases hm : m[f.key]? with
  | none =>
    rw [hm] at hrecord
    cases hvalue : fs.record f with
    | none => rfl
    | some b => rw [hvalue] at hrecord; cases hrecord
  | some id =>
    rw [hm] at hrecord
    cases hvalue : fs.record f with
    | none => rw [hvalue] at hrecord; cases hrecord
    | some b =>
      rw [hvalue] at hrecord
      exact Option.some.inj hrecord

omit [Digest] in
/-- Only marks of identities have such keys. -/
theorem Field.not_allocations {f : Field} (h : ∀ id, f ≠ .allocated id) :
    ¬ allocations <+: f.key := by
  rintro ⟨rest, hkey⟩
  have hmark := congrArg (fun key : Bytes => ((key.drop 8).headD 0).toNat) hkey
  cases f with
  | allocated id => exact h id rfl
  | root => exact absurd (show 97 = 114 from hmark) (by decide)
  | inode id => exact absurd (show 97 = 105 from hmark) (by decide)
  | content id => exact absurd (show 97 = 99 from hmark) (by decide)
  | entry directory name => exact absurd (show 97 = 101 from hmark) (by decide)

/-- The presence of a record. Identities count as given out also if another World did so. -/
theorem Depicts.contains (h : Depicts s.objects m fs) (hshows : Shows s v m) {f : Field}
    (hf : ∀ id, f ≠ .allocated id) : v.contains f.key = .ok (fs.record f).isSome := by
  have hnot := Field.not_allocations hf
  unfold NamespaceView.contains
  rw [if_neg fun hpre => hnot hpre.1, hshows.lookup _ f.namespacePrefix_prefix, ok_bind,
    h.getElem?_eq]
  rfl

theorem Depicts.fresh (h : Depicts s.objects m fs) (hshows : Shows s v m) {id : InodeId}
    (hfree : v.contains (allocatedKey id) = .ok false) : fs.allocated id = false := by
  unfold NamespaceView.contains at hfree
  dsimp only at hfree
  split at hfree
  · cases hfree
  · have hlookup : v.lookup (allocatedKey id) = .ok m[allocatedKey id]? :=
      hshows.lookup _ (Field.namespacePrefix_prefix (.allocated id))
    rw [hlookup, ok_bind] at hfree
    have hsome : (m[(Field.allocated id).key]?).isSome = false := Except.ok.inj hfree
    rw [h.getElem?_eq] at hsome
    simpa [Filesystem.record] using hsome

omit [Digest] in
/-- Strings with a common beginning. -/
theorem exists_map_append {pre : Bytes} {keys : List Bytes} (h : ∀ key ∈ keys, pre <+: key) :
    ∃ names : List Bytes, keys = names.map (pre ++ ·) := by
  induction keys with
  | nil => exact ⟨[], rfl⟩
  | cons key keys ih =>
    obtain ⟨name, rfl⟩ := h key List.mem_cons_self
    obtain ⟨names, rfl⟩ := ih fun key hkey => h key (List.mem_cons_of_mem _ hkey)
    exact ⟨name :: names, rfl⟩

omit [Digest] in
theorem lt_of_append_lt_append {pre a b : Bytes} (h : pre ++ a < pre ++ b) : a < b := by
  induction pre with
  | nil => exact h
  | cons c pre ih =>
    rw [List.cons_append, List.cons_append, List.cons_lt_cons_iff] at h
    exact ih (h.resolve_left (lt_irrefl c)).2

/-- The entries of a directory. -/
theorem Depicts.keys (h : Depicts s.objects m fs) (hshows : Shows s v m) (d : InodeId) :
    ∃ names : List Bytes, v.keys (directoryPrefix d) = .ok (names.map (entryKey d)) ∧
      names.Pairwise (· < ·) ∧ ∀ name, name ∈ names ↔ (fs.entry (d, name)).isSome := by
  obtain ⟨names, hnames⟩ : ∃ names : List Bytes,
      (m.toList.map Prod.fst).filter (directoryPrefix d <+: ·) = names.map (entryKey d) := by
    refine exists_map_append fun key hkey => ?_
    simpa using (List.mem_filter.mp hkey).2
  refine ⟨names, ?_, ?_, fun name => ?_⟩
  · rw [hshows.keys (directoryPrefix d) (List.prefix_append _ _), hnames]
  · have hsorted : ((m.toList.map Prod.fst).filter (directoryPrefix d <+: ·)).Pairwise (· < ·) := by
      refine List.Pairwise.filter _ ?_
      rw [List.pairwise_map]
      exact m.sorted_toList
    rw [hnames, List.pairwise_map] at hsorted
    exact hsorted.imp lt_of_append_lt_append
  · have hrecord := h.getElem?_eq (.entry d name)
    rw [Filesystem.record, Option.isSome_map] at hrecord
    rw [← hrecord, Option.isSome_iff_exists, ← StdMap.mem_iff, ← StdMap.mem_map_toList]
    have hmem : name ∈ names ↔ entryKey d name ∈ names.map (entryKey d) := by
      constructor
      · exact fun hin => List.mem_map.mpr ⟨name, hin, rfl⟩
      · intro hin
        obtain ⟨name', hin', heq⟩ := List.mem_map.mp hin
        rwa [← List.append_cancel_left heq]
    rw [hmem, ← hnames, List.mem_filter]
    exact and_iff_left (by simp [entryKey])

/-- All keys. -/
theorem Depicts.records (h : Depicts s.objects m fs) (hshows : Shows s v m) :
    ∃ keys, v.keys namespacePrefix = .ok keys ∧ keys.Pairwise (· < ·) ∧
      ∀ key, key ∈ keys ↔ ∃ f : Field, key = f.key ∧ (fs.record f).isSome := by
  refine ⟨_, hshows.keys namespacePrefix List.prefix_rfl, ?_, fun key => ?_⟩
  · refine List.Pairwise.filter _ ?_
    rw [List.pairwise_map]
    exact m.sorted_toList
  · rw [List.mem_filter, StdMap.mem_map_toList]
    constructor
    · rintro ⟨hkey, -⟩
      obtain ⟨f, rfl⟩ := h.only key hkey
      refine ⟨f, rfl, ?_⟩
      rw [← h.getElem?_eq, Option.isSome_iff_exists]
      exact StdMap.mem_iff.mp hkey
    · rintro ⟨f, rfl, hsome⟩
      rw [← h.getElem?_eq, Option.isSome_iff_exists] at hsome
      exact ⟨StdMap.mem_iff.mpr hsome, by simpa using f.namespacePrefix_prefix⟩

/-- All reads of a version are those of the file system that it depicts. -/
theorem Depicts.pictures (h : Depicts s.objects m fs) (hshows : Shows s v m)
    (hvalid : ∀ id n, fs.inode id = some n → n.Valid false) : v.Pictures fs where
  root := by
    have hcontains : v.contains namespaceRoot = .ok (fs.record .root).isSome :=
      h.contains hshows (f := .root) (by simp)
    have hget : v.get namespaceRoot = found (fs.record .root) := h.get hshows .root
    rw [NamespaceView.root, hcontains, hget, Filesystem.record, ok_bind]
    cases fs.root with
    | none => rfl
    | some id => exact decodeId_val id
  inode id := by
    have hget : v.get (inodeKey id) = found (fs.record (.inode id)) := h.get hshows (.inode id)
    rw [NamespaceView.inode, hget, Filesystem.record]
    cases hn : fs.inode id with
    | none => rfl
    | some n => exact InodeInfo.decode_encode (hvalid id n hn)
  linked id := by
    have hcontains : v.contains (inodeKey id) = .ok (fs.record (.inode id)).isSome :=
      h.contains hshows (f := .inode id) (by simp)
    rw [hcontains, Filesystem.record, Option.isSome_map]
  contains d name := by
    have hcontains : v.contains (entryKey d name) = .ok (fs.record (.entry d name)).isSome :=
      h.contains hshows (f := .entry d name) (by simp)
    rw [hcontains, Filesystem.record, Option.isSome_map]
  child d name := by
    have hget : v.get (entryKey d name) = found (fs.record (.entry d name)) :=
      h.get hshows (.entry d name)
    rw [NamespaceView.child, hget, Filesystem.record]
    cases fs.entry (d, name) with
    | none => rfl
    | some c => exact decodeId_val c
  content id := h.get hshows (.content id)
  fresh id := h.fresh hshows
  records := h.records hshows
  keys := h.keys hshows

/-- A version depicts one file system. -/
theorem Depicts.filesystem_eq (h : Depicts s.objects m fs) (hshows : Shows s v m)
    (hv : v.Pictures fs) : v.filesystem = fs := by
  have hfound {α : Type} (o : Option α) : (found o).toOption = o := by cases o <;> rfl
  refine Filesystem.ext ?_ ?_ ?_ ?_ ?_
  · change v.root.toOption = fs.root
    rw [hv.root]
    cases fs.root <;> rfl
  · funext id
    change (v.inode id).toOption = fs.inode id
    rw [hv.inode, hfound]
  · funext id
    change (v.get (contentKey id)).toOption = fs.content id
    rw [hv.content, hfound]
  · funext p
    change (v.child p.1 p.2).toOption = fs.entry p
    rw [hv.child, hfound]
  · funext id
    have hlookup : v.lookup (allocatedKey id) = .ok m[allocatedKey id]? :=
      hshows.lookup _ (Field.namespacePrefix_prefix (.allocated id))
    have hsome : (m[allocatedKey id]?).isSome = (fs.record (.allocated id)).isSome :=
      h.getElem?_eq (.allocated id)
    change (v.lookup (allocatedKey id) matches .ok (some _)) = fs.allocated id
    rw [hlookup]
    rw [Filesystem.record] at hsome
    cases hm : m[allocatedKey id]? <;> cases ha : fs.allocated id <;> simp_all

/-- A view that has the content of another one depicts the same file system. -/
theorem Depicts.sameView (h : Depicts s.objects m fs) (hsame : SameView s ns s' ns')
    (hv : s.view ns = .ok v) (hv' : s'.view ns' = .ok v') (hshows : Shows s v m)
    (hshows' : Shows s' v' m') : Depicts s'.objects m' fs := by
  have hreferences := hsame.references
  rw [LevelStore.referencesOf, LevelStore.referencesOf, hv, hv', ok_bind, ok_bind, hshows.references,
    hshows'.references] at hreferences
  obtain rfl : m' = m := Except.ok.inj hreferences
  refine ⟨fun f => ?_, h.only⟩
  have hbytes := hsame.bytes f.key f.namespacePrefix_prefix
  rw [LevelStore.readKey, LevelStore.readKey, hv, hv', ok_bind, ok_bind,
    hshows.get f.namespacePrefix_prefix, hshows'.get f.namespacePrefix_prefix] at hbytes
  rw [← h.record f]
  cases hm : m'[f.key]? with
  | none => rfl
  | some id =>
    rw [hm] at hbytes
    rw [Option.map_some, Option.map_some, show s'.objects.object id = s.objects.object id from hbytes]

/-- New references that follow the changes of edits depict the edited file system. -/
theorem Depicts.edited {edits : List Edit} (h : Depicts s.objects m fs)
    (hassigned : ∀ (f : Field) value, (Edit.changes edits)[f.key]? = some value →
      (m'[f.key]?).map s'.objects.object = value.map .ok)
    (hkept : ∀ f : Field, (Edit.changes edits)[f.key]? = none → m'[f.key]? = m[f.key]?)
    (honly : ∀ key ∈ m', key ∈ m ∨ key ∈ Edit.changes edits ∧ ¬ orphans <+: key)
    (hextends : s.objects.Extends s'.objects) : Depicts s'.objects m' (fs.applyAll edits) := by
  refine ⟨fun f => ?_, fun key hkey => ?_⟩
  · rw [record_applyAll]
    cases hchange : (Edit.changes edits)[f.key]? with
    | some value => rw [hassigned f value hchange, Option.getD_some]
    | none =>
      rw [hkept f hchange, Option.getD_none, ← h.record f]
      have hrecord := h.record f
      cases hm : m[f.key]? with
      | none => rfl
      | some id =>
        rw [hm, Option.map_some] at hrecord
        obtain ⟨b, -, hb⟩ := Option.map_eq_some_iff.mp hrecord.symm
        rw [Option.map_some, Option.map_some, ← hb, hextends id b hb.symm]
  · rcases honly key hkey with hold | ⟨hchanged, horphans⟩
    · exact h.only key hold
    · exact field_of_mem_changes hchanged horphans

end Depicts

section Commits

variable [Digest] {payloads : Set Bytes} {s s' : LevelStore} {v : NamespaceView} {fs : Filesystem}
  {ns ns' : Namespace} {world : Bytes} {edits : List Edit} {b : Commit}

/-- The view of a World or revision depicts a file system. -/
def LevelStore.Depicted (s : LevelStore) (ns : Namespace) (fs : Filesystem) : Prop :=
  ∃ v m, s.view ns = .ok v ∧ Shows s v m ∧ Depicts s.objects m fs

theorem LevelStore.Depicted.sameView (h : s.Depicted ns fs) (hsame : SameView s ns s' ns')
    (hs : s.Closed) (hs' : s'.Closed) (hcf : CollisionFree payloads) (hknown : Known s payloads)
    (hknown' : Known s' payloads) : s'.Depicted ns' fs := by
  obtain ⟨v, m, hv, hshows, hdepicts⟩ := h
  obtain ⟨v', hv'⟩ := hsame.exists_view hs hcf hknown ⟨v, hv⟩
  obtain ⟨m', hshows'⟩ := (viewed_of_open hs' hv').shows hs' hcf hknown'
  exact ⟨v', m', hv', hshows', hdepicts.sameView hsame hv hv' hshows hshows'⟩

/-- The first records of a World are flat roots. -/
theorem depicted_flat (hcf : CollisionFree payloads) (hs : s.Closed) (hs' : s'.Closed)
    (hknown' : Known s' payloads)
    (hhead : (RootName.world (ascii "main")).key ∉ s.roots)
    (hdepicts : Depicts s.objects (flatMap s) fs)
    (hstore : LevelStore.Transacted s
      ((Edit.changes edits).toList.map fun e => .assign e.1 e.2) s')
    (hhashed : ∀ x ∈ (Edit.changes edits).toList.filterMap Prod.snd, x ∈ payloads) :
    s'.Depicted ⟨ascii "main", false⟩ (fs.applyAll edits) := by
  have hunchanged (key : Bytes) (hkey : key ∉ Edit.changes edits) :
      s'.roots[key]? = s.roots[key]? := by
    refine hstore.frame key fun hmem => hkey ?_
    obtain ⟨mutation, hmutation, rfl⟩ := List.mem_map.mp hmem
    obtain ⟨e, he, rfl⟩ := List.mem_map.mp hmutation
    exact StdMap.mem_map_toList.mp (List.mem_map.mpr ⟨e, he, rfl⟩)
  have hhead' : (RootName.world (ascii "main")).key ∉ s'.roots := by
    rw [StdMap.notMem_iff, hunchanged _ fun hmem => ?_]
    · exact StdMap.notMem_iff.mp hhead
    · obtain ⟨value, hvalue⟩ := StdMap.mem_iff.mp hmem
      obtain ⟨e, -, heq⟩ := mem_changes (StdMap.mem_toList.mpr hvalue)
      have haside := aside_edit e _ (Prod.mk.inj heq).1
      simp [RootName.mark] at haside
  refine ⟨_, _, open_flat hhead', shows_flat hs', hdepicts.edited ?_ ?_ ?_ hstore.extends_⟩
  · intro f value hvalue
    have hmem : Mutation.assign f.key value ∈
        (Edit.changes edits).toList.map fun e => .assign e.1 e.2 :=
      List.mem_map.mpr ⟨_, StdMap.mem_toList.mpr hvalue, rfl⟩
    have hbound : s'.roots[f.key]? = (Mutation.assign f.key value).target := hstore.bound _ hmem
    rw [getElem?_flatMap, if_pos f.namespacePrefix_prefix, hbound]
    cases value with
    | none => rfl
    | some x =>
      have hread : s'.objects.object (objectHash x) = .ok x := by
        refine object_of_registered hcf hs hstore hknown' (hhashed x ?_) (.inr ⟨_, hmem, rfl⟩)
        exact mem_values (StdMap.mem_toList.mpr hvalue) rfl
      exact congrArg some hread
  · intro f hnone
    rw [getElem?_flatMap, getElem?_flatMap, hunchanged _ (StdMap.notMem_iff.mpr hnone)]
  · intro key hkey
    obtain ⟨id, hid⟩ := StdMap.mem_iff.mp hkey
    rw [getElem?_flatMap] at hid
    split at hid
    · rename_i hpre
      by_cases hchanged : key ∈ Edit.changes edits
      · exact .inr ⟨hchanged, not_history_of_namespacePrefix hpre⟩
      · refine .inl (StdMap.mem_iff.mpr ⟨id, ?_⟩)
        rw [getElem?_flatMap, if_pos hpre, ← hunchanged key hchanged, hid]
    · cases hid

/-- A new version has the references of the old one with the changes. -/
theorem depicted_version {plan : NamespaceView.Plan} {m : StdMap Bytes Hash}
    (hcf : CollisionFree payloads) (hs : s.Closed) (hknown : Known s payloads)
    (hname : NamespaceView.validName world) (hv : Viewed s world false v) (hshows : Shows s v m)
    (hdepicts : Depicts s.objects m fs)
    (hplan : v.plan (recordDelta (Edit.changes edits)) false = .ok plan)
    (hstore : LevelStore.Transacted s (versionCommit world v (Edit.changes edits) plan).mutations s')
    (hknown' : Known s' payloads)
    (hhashed : ∀ x ∈ (versionCommit world v (Edit.changes edits) plan).hashed, x ∈ payloads) :
    s'.Depicted ⟨world, false⟩ (fs.applyAll edits) := by
  obtain ⟨root, t, ht, hmap⟩ := version_of_commit hcf hs hknown hv hshows.references hplan hstore
    hknown' hhashed
  have hhead : s'.roots[(RootName.world world).key]? = some (objectHash plan.manifest) :=
    hstore.bound (.assign (RootName.world world).key (some plan.manifest))
      (mem_versionCommit_mutations.mpr (.inr (.inr rfl)))
  refine ⟨_, _, open_world hname hhead ht hcf hknown', ht.shows hcf hknown', ?_⟩
  rw [← hmap]
  refine hdepicts.edited ?_ ?_ ?_ hstore.extends_
  · intro f value hvalue
    rw [StdMap.getElem?_override, getElem?_recordDelta _ (not_orphans_field f), hvalue,
      Option.map_some]
    cases value with
    | none => rfl
    | some x =>
      have hrecord : (f.key, some x) ∈ recordChanges (Edit.changes edits) :=
        List.mem_filter.mpr ⟨StdMap.mem_toList.mpr hvalue, by simpa using not_orphans_field f⟩
      exact congrArg some (object_of_versionPayload hcf hs hv hstore hknown' hhashed
        (.inr ⟨_, hrecord, rfl⟩))
  · intro f hnone
    rw [StdMap.getElem?_override, getElem?_recordDelta _ (not_orphans_field f), hnone,
      Option.map_none]
  · intro key hkey
    obtain ⟨id, hid⟩ := StdMap.mem_iff.mp hkey
    rw [StdMap.getElem?_override] at hid
    cases hdelta : (recordDelta (Edit.changes edits))[key]? with
    | none =>
      rw [hdelta] at hid
      exact .inl (StdMap.mem_iff.mpr ⟨id, hid⟩)
    | some o =>
      rw [hdelta] at hid
      cases hid
      obtain ⟨e, he, rfl, -⟩ := mem_recordDelta hdelta
      obtain ⟨hmem, horphans⟩ := List.mem_filter.mp he
      exact .inr ⟨StdMap.mem_map_toList.mp (List.mem_map.mpr ⟨e, hmem, rfl⟩), by simpa using horphans⟩

theorem validName_of_open (h : NamespaceView.open_ s.catalog world false true = .ok v) :
    NamespaceView.validName world := by
  unfold NamespaceView.open_ at h
  obtain ⟨_, hname, -⟩ := bind_eq_ok.mp h
  exact need_eq_ok.mp hname

/-- A commit applies its edits to the file system of its World. -/
theorem CommitPlanned.depicted (h : CommitPlanned world v (Edit.changes edits) b)
    (hcf : CollisionFree payloads) (hs : s.Closed) (hknown : Known s payloads)
    (hv : NamespaceView.open_ s.catalog world false true = .ok v)
    (hdepicted : s.Depicted ⟨world, false⟩ fs) (hstore : LevelStore.Transacted s b.mutations s')
    (hhashed : ∀ x ∈ b.hashed, x ∈ payloads) : s'.Depicted ⟨world, false⟩ (fs.applyAll edits) := by
  have hviewed := viewed_of_open hs hv
  have hknown' := h.known hknown hstore hhashed
  have hs' := h.closed hcf hs hknown hviewed hstore hhashed
  obtain ⟨v', m, hv', hshows, hdepicts⟩ := hdepicted
  obtain rfl : v = v' := Except.ok.inj (hv.symm.trans hv')
  cases h with
  | flat hlegacy hroot =>
    cases hviewed with
    | flat hname hworld hhead =>
      subst hname
      obtain rfl : flatMap s = m := Except.ok.inj ((shows_flat hs).references.symm.trans
        hshows.references)
      exact depicted_flat hcf hs hs' hknown' hhead hdepicts hstore hhashed
    | world | revision => cases hlegacy
  | retained hinit hrecords =>
    -- Only orphans are assigned, so the view and the file system stay.
    have hsame : SameView s ⟨world, false⟩ s' ⟨world, false⟩ := by
      refine sameView_of_spares hstore (fun mutation hmutation => ?_) hs hs' hcf hknown hknown'
      obtain ⟨e, he, rfl⟩ := List.mem_map.mp hmutation
      exact spares_of_orphans (of_decide_eq_true (List.mem_filter.mp he).2)
    have hdepicted : s.Depicted ⟨world, false⟩ fs := ⟨v, m, hv', hshows, hdepicts⟩
    obtain ⟨v', m', hv', hshows', hdepicts'⟩ := hdepicted.sameView hsame hs hs' hcf hknown hknown'
    refine ⟨v', m', hv', hshows', fun f => ?_, hdepicts'.only⟩
    have hnone : (Edit.changes edits)[f.key]? = none := by
      rw [← StdMap.notMem_iff]
      intro hmem
      obtain ⟨value, hvalue⟩ := StdMap.mem_iff.mp hmem
      have hrecord : (f.key, value) ∈ recordChanges (Edit.changes edits) :=
        List.mem_filter.mpr ⟨StdMap.mem_toList.mpr hvalue, by simpa using not_orphans_field f⟩
      rw [hrecords] at hrecord
      cases hrecord
    rw [record_applyAll, hnone, Option.getD_none]
    exact hdepicts'.record f
  | version hinit hrecords plan hplan =>
    exact depicted_version hcf hs hknown (validName_of_open hv) hviewed hshows hdepicts hplan hstore
      hknown' hhashed

end Commits

end ForkFs
