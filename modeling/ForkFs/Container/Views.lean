import ForkFs.Container.Versions

/-!
# Views of a closed store

In a closed store the view of a World or revision is the flat set of roots of the first World or
a stored version. Its reads succeed, and they all agree with one map of references.
-/

namespace ForkFs

open Bytes Treap Treap.KeyTree Outcome

variable [Digest] {payloads : Set Bytes} {s : LevelStore} {v : NamespaceView} {name : Bytes}
  {revision : Bool}

section Forms

/-- The form of a view of a closed store: the flat roots of the first World, or a stored version. -/
inductive Viewed (s : LevelStore) (name : Bytes) (revision : Bool) : NamespaceView → Prop
  /-- The first World, before it has a head. -/
  | flat (hname : name = ascii "main") (hworld : revision = false)
      (hhead : (RootName.world (ascii "main")).key ∉ s.roots) :
      Viewed s name revision ⟨s.catalog, .flat⟩
  /-- The head of a World. -/
  | world (hworld : revision = false) (id root : Hash) (tree : KeyTree Bytes Hash)
      (hhead : s.roots[(RootName.world name).key]? = some id)
      (hversion : HoldsVersion s.objects id root tree) :
      Viewed s name revision ⟨s.catalog, .tree root⟩
  /-- A revision. -/
  | revision (hrevision : revision = true) (id manifest root : Hash) (tree : KeyTree Bytes Hash)
      (parent : Hash) (sequence : ℕ)
      (hroot : s.roots[(RootName.revision name).key]? = some id)
      (hobject : s.objects.object id = .ok (Namespace.descriptor manifest parent sequence))
      (hversion : HoldsVersion s.objects manifest root tree) :
      Viewed s name revision ⟨s.catalog, .tree root⟩

omit [Digest] in
theorem length_descriptor (manifest parent : Hash) (sequence : ℕ) :
    (Namespace.descriptor manifest parent sequence).length = 80 := by
  simp [Namespace.descriptor, NamespaceView.revisionMagic, ascii, manifest.property, parent.property]

omit [Digest] in
theorem slice_descriptor_magic (manifest parent : Hash) (sequence : ℕ) :
    slice (Namespace.descriptor manifest parent sequence) 0 8 = NamespaceView.revisionMagic :=
  slice_append_self (by decide)

omit [Digest] in
theorem slice_descriptor_manifest (manifest parent : Hash) (sequence : ℕ) :
    Hash.ofBytes (slice (Namespace.descriptor manifest parent sequence) 8 32) = manifest := by
  have hslice : slice (Namespace.descriptor manifest parent sequence) 8 32 = manifest.val := by
    unfold Namespace.descriptor
    rw [slice_append_right (by decide)]
    exact slice_append_self manifest.property
  rw [hslice, Hash.ofBytes_val]

omit [Digest] in
theorem slice_descriptor_parent (manifest parent : Hash) (sequence : ℕ) :
    Hash.ofBytes (slice (Namespace.descriptor manifest parent sequence) 40 32) = parent := by
  have hslice : slice (Namespace.descriptor manifest parent sequence) 40 32 = parent.val := by
    unfold Namespace.descriptor
    rw [slice_append_right (by decide), slice_append_right (by rw [manifest.property]; decide),
      manifest.property]
    exact slice_append_self parent.property
  rw [hslice, Hash.ofBytes_val]

omit [Digest] in
/-- The manifest of a revision record. -/
theorem descriptorManifest_descriptor (manifest parent : Hash) (sequence : ℕ) :
    NamespaceView.descriptorManifest (Namespace.descriptor manifest parent sequence) =
      .ok manifest := by
  unfold NamespaceView.descriptorManifest
  rw [need_of ⟨length_descriptor _ _ _, slice_descriptor_magic _ _ _⟩, ok_bind,
    slice_descriptor_manifest]
  rfl

/-- A lineage begins with a revision record of a stored version. -/
theorem Lineage.record {objects : ObjectStore} {id : Hash} (h : Lineage objects id) :
    ∃ manifest parent sequence, objects.object id =
      .ok (Namespace.descriptor manifest parent sequence) ∧ ∃ m, Version objects manifest m := by
  cases h with
  | first hobject hversion => exact ⟨_, _, _, hobject, _, hversion⟩
  | next hobject hversion _ => exact ⟨_, _, _, hobject, _, hversion⟩

/-- Loading a stored version gives its tree. -/
theorem load_of_holdsVersion {id root : Hash} {tree : KeyTree Bytes Hash}
    (h : HoldsVersion s.objects id root tree) (hv : NamespaceView.load s.catalog id true = .ok v) :
    v = ⟨s.catalog, .tree root⟩ := by
  unfold NamespaceView.load at hv
  obtain ⟨layout, hlayout, hv⟩ := bind_eq_ok.mp hv
  rw [h.readManifest] at hlayout
  cases hlayout
  obtain ⟨found, -, hv⟩ := bind_eq_ok.mp hv
  obtain ⟨-, -, hv⟩ := bind_eq_ok.mp hv
  cases hv
  rfl

/-- Every view of a closed store has one of these forms. -/
theorem viewed_of_open {name : Bytes} {revision : Bool} (hs : s.Closed)
    (hv : NamespaceView.open_ s.catalog name revision true = .ok v) : Viewed s name revision v := by
  unfold NamespaceView.open_ at hv
  obtain ⟨-, -, hv⟩ := bind_eq_ok.mp hv
  split at hv
  · rename_i hflat
    cases hv
    exact .flat hflat.1 hflat.2.1 hflat.2.2
  · split at hv
    · rename_i hrevision
      obtain ⟨record, hget, hrest⟩ := bind_eq_ok.mp hv
      obtain ⟨manifest, hmanifest, hload⟩ := bind_eq_ok.mp hrest
      obtain ⟨id, hid, hrecord⟩ := bind_eq_ok.mp hget
      have hroot := Catalog.rootObject_eq_ok.mp hid
      obtain ⟨manifest', parent, sequence, hobject, m, root, tree, hversion, -⟩ :=
        Lineage.record (hs.leads (.revision name) id hroot)
      have hsame : s.catalog.getObject id = .ok (Namespace.descriptor manifest' parent sequence) :=
        hobject
      rw [hsame] at hrecord
      cases hrecord
      rw [descriptorManifest_descriptor] at hmanifest
      cases hmanifest
      rw [load_of_holdsVersion hversion hload]
      exact .revision hrevision id manifest root tree parent sequence hroot hobject hversion
    · rename_i hworld
      obtain ⟨id, hid, hv⟩ := bind_eq_ok.mp hv
      have hroot := Catalog.rootObject_eq_ok.mp hid
      obtain ⟨m, root, tree, hversion, -⟩ := hs.leads (.world name) id hroot
      rw [load_of_holdsVersion hversion hv]
      exact .world (by simpa using hworld) id root tree hroot hversion

end Forms

section Shows

/-- The map that all reads of a view agree with. -/
structure Shows (s : LevelStore) (v : NamespaceView) (m : StdMap Bytes Hash) : Prop where
  /-- The view reads the store. -/
  journal : v.journal = s.catalog
  /-- Single keys. -/
  lookup : ∀ key, namespacePrefix <+: key → v.lookup key = .ok m[key]?
  /-- The keys with a beginning, in order. -/
  keys : ∀ pre, namespacePrefix <+: pre →
    v.keys pre = .ok ((m.toList.map Prod.fst).filter (pre <+: ·))
  /-- The whole map. -/
  references : v.references = .ok m
  /-- Its values are objects. -/
  stored : ∀ (key : Bytes) id, m[key]? = some id → ∃ b, s.objects.object id = .ok b

omit [Digest] in
theorem toList_treeMap {priority : Bytes → Hash} {t : KeyTree Bytes Hash} (h : Wf priority t) :
    (treeMap t).toList = t.toList :=
  StdMap.toList_eq_of_sorted h.sorted fun k v => by
    rw [getElem?_treeMap h, find?_eq_some_iff h]

theorem HoldsVersion.shows {id root : Hash} {t : KeyTree Bytes Hash}
    (h : HoldsVersion s.objects id root t) (hcf : CollisionFree payloads)
    (hknown : Known s payloads) : Shows s ⟨s.catalog, .tree root⟩ (treeMap t) := by
  refine ⟨rfl, fun key _ => h.lookup hcf hknown key, fun pre _ => ?_, h.references hcf hknown,
    fun key id hid => ?_⟩
  · rw [toList_treeMap h.tree.wf]
    exact h.keys hcf hknown pre
  · rw [getElem?_treeMap h.tree.wf, find?_eq_some_iff h.tree.wf] at hid
    exact h.values _ hid

/-- The references of the flat World. -/
def flatMap (s : LevelStore) : StdMap Bytes Hash :=
  StdMap.insertAll ∅ (s.roots.toList.filter (namespacePrefix <+: ·.1))

theorem getElem?_flatMap (s : LevelStore) (key : Bytes) :
    (flatMap s)[key]? = if namespacePrefix <+: key then s.roots[key]? else none := by
  have hnodup : ((s.roots.toList.filter (namespacePrefix <+: ·.1)).map Prod.fst).Nodup :=
    s.roots.nodup_toList.sublist (List.filter_sublist.map _)
  refine Option.ext fun id => ?_
  rw [flatMap, StdMap.getElem?_insertAll hnodup, List.mem_filter, StdMap.mem_toList]
  split <;> simp [*]

theorem toList_flatMap (s : LevelStore) :
    (flatMap s).toList = s.roots.toList.filter (namespacePrefix <+: ·.1) := by
  refine StdMap.toList_eq_of_sorted (s.roots.sorted_toList.filter _) fun key id => ?_
  rw [getElem?_flatMap, List.mem_filter, StdMap.mem_toList]
  split <;> simp [*]

theorem shows_flat (hs : s.Closed) : Shows s ⟨s.catalog, .flat⟩ (flatMap s) := by
  refine ⟨rfl, fun key hkey => ?_, fun pre hpre => ?_, rfl, fun key id hid => ?_⟩
  · rw [getElem?_flatMap, if_pos hkey]
    rfl
  · change Except.ok ((s.roots.toList.map Prod.fst).filter (pre <+: ·)) = _
    rw [toList_flatMap, List.filter_map, List.filter_map, List.filter_filter]
    congr 3
    funext e
    simp only [Function.comp_apply, ← Bool.decide_and]
    exact decide_eq_decide.mpr ⟨fun h => ⟨h, hpre.trans h⟩, fun h => h.1⟩
  · rw [getElem?_flatMap] at hid
    split at hid
    · exact hs.named key id hid
    · cases hid

/-- All reads of a view agree. -/
theorem Viewed.shows (hv : Viewed s name revision v) (hs : s.Closed) (hcf : CollisionFree payloads)
    (hknown : Known s payloads) : ∃ m, Shows s v m := by
  cases hv with
  | flat hname hworld hhead => exact ⟨_, shows_flat hs⟩
  | world hworld id root tree hhead hversion => exact ⟨_, hversion.shows hcf hknown⟩
  | revision hrevision id manifest root tree parent sequence hroot hobject hversion =>
    exact ⟨_, hversion.shows hcf hknown⟩

/-- A stored version loads. -/
theorem HoldsVersion.load {id root : Hash} {t : KeyTree Bytes Hash}
    (h : HoldsVersion s.objects id root t) (hcf : CollisionFree payloads)
    (hknown : Known s payloads) :
    NamespaceView.load s.catalog id true = .ok ⟨s.catalog, .tree root⟩ := by
  obtain ⟨value, hvalue⟩ := mem_keys_iff.mp h.named
  have hsome : (treeMap t)[namespaceRoot]? = some value := by
    rw [getElem?_treeMap h.tree.wf, find?_eq_some_iff h.tree.wf]
    exact hvalue
  unfold NamespaceView.load
  rw [h.readManifest, ok_bind]
  dsimp only
  rw [if_pos rfl, h.lookup hcf hknown, ok_bind, hsome]
  rfl

omit [Digest] in
theorem validName_main : NamespaceView.validName (ascii "main") := by decide +kernel

/-- The flat World opens. -/
theorem open_flat (hhead : (RootName.world (ascii "main")).key ∉ s.roots) :
    NamespaceView.open_ s.catalog (ascii "main") false true = .ok ⟨s.catalog, .flat⟩ := by
  unfold NamespaceView.open_
  rw [NamespaceView.checkName, need_of validName_main, ok_bind, if_pos ⟨rfl, rfl, hhead⟩]
  rfl

/-- A World with a head opens. -/
theorem open_world {id root : Hash} {t : KeyTree Bytes Hash} (hname : NamespaceView.validName name)
    (hhead : s.roots[(RootName.world name).key]? = some id)
    (h : HoldsVersion s.objects id root t) (hcf : CollisionFree payloads)
    (hknown : Known s payloads) :
    NamespaceView.open_ s.catalog name false true = .ok ⟨s.catalog, .tree root⟩ := by
  have hflat : ¬ (name = ascii "main" ∧ false = false ∧
      (RootName.world (ascii "main")).key ∉ s.catalog.roots) := by
    rintro ⟨rfl, -, hnone⟩
    exact hnone (StdMap.mem_iff.mpr ⟨id, hhead⟩)
  unfold NamespaceView.open_
  rw [NamespaceView.checkName, need_of hname, ok_bind, if_neg hflat]
  change (s.catalog.rootObject _ >>= fun manifest => _) = _
  rw [Catalog.rootObject_eq_ok.mpr hhead]
  exact h.load hcf hknown

/-- A revision opens. -/
theorem open_revision {id manifest parent root : Hash} {sequence : ℕ} {t : KeyTree Bytes Hash}
    (hname : NamespaceView.validName name)
    (hroot : s.roots[(RootName.revision name).key]? = some id)
    (hobject : s.objects.object id = .ok (Namespace.descriptor manifest parent sequence))
    (h : HoldsVersion s.objects manifest root t) (hcf : CollisionFree payloads)
    (hknown : Known s payloads) :
    NamespaceView.open_ s.catalog name true true = .ok ⟨s.catalog, .tree root⟩ := by
  have hget : s.catalog.get (RootName.revision name).key =
      .ok (Namespace.descriptor manifest parent sequence) := by
    unfold Catalog.get
    rw [Catalog.rootObject_eq_ok.mpr hroot]
    exact hobject
  unfold NamespaceView.open_
  rw [NamespaceView.checkName, need_of hname, ok_bind, if_neg (by simp), if_pos rfl, hget, ok_bind,
    descriptorManifest_descriptor]
  exact h.load hcf hknown

theorem open_invalid (revision : Bool) (hname : ¬ NamespaceView.validName name) :
    NamespaceView.open_ s.catalog name revision true = .error "invalid World/revision name" := by
  unfold NamespaceView.open_
  rw [NamespaceView.checkName, need_of_not hname]
  rfl

theorem open_missing_world (hname : NamespaceView.validName name) (hmain : name ≠ ascii "main")
    (hhead : s.roots[(RootName.world name).key]? = none) :
    NamespaceView.open_ s.catalog name false true = .error "object root not found" := by
  have hnone : s.catalog.rootObject (RootName.world name).key = .error "object root not found" := by
    unfold Catalog.rootObject
    rw [show s.catalog.roots[(RootName.world name).key]? = none from hhead]
  unfold NamespaceView.open_
  rw [NamespaceView.checkName, need_of hname, ok_bind, if_neg fun h => hmain h.1]
  change (s.catalog.rootObject _ >>= fun manifest => _) = _
  rw [hnone]
  rfl

theorem open_missing_revision (hname : NamespaceView.validName name)
    (hroot : s.roots[(RootName.revision name).key]? = none) :
    NamespaceView.open_ s.catalog name true true = .error "object root not found" := by
  have hnone : s.catalog.get (RootName.revision name).key = .error "object root not found" := by
    unfold Catalog.get Catalog.rootObject
    rw [show s.catalog.roots[(RootName.revision name).key]? = none from hroot]
    rfl
  unfold NamespaceView.open_
  rw [NamespaceView.checkName, need_of hname, ok_bind, if_neg (by simp), if_pos rfl, hnone]
  rfl

/-- Opening a view of a closed store fails for a wrong name or one that does not exist. -/
theorem open_cases (name : Bytes) (revision : Bool) (hs : s.Closed) (hcf : CollisionFree payloads)
    (hknown : Known s payloads) :
    NamespaceView.open_ s.catalog name revision true = .error "invalid World/revision name" ∨
      NamespaceView.open_ s.catalog name revision true = .error "object root not found" ∨
      ∃ v, NamespaceView.open_ s.catalog name revision true = .ok v := by
  by_cases hname : NamespaceView.validName name
  swap
  · exact Or.inl (open_invalid revision hname)
  refine Or.inr ?_
  cases revision with
  | false =>
    cases hhead : s.roots[(RootName.world name).key]? with
    | some id =>
      obtain ⟨m, root, t, ht, -⟩ := hs.leads (.world name) id hhead
      exact Or.inr ⟨_, open_world hname hhead ht hcf hknown⟩
    | none =>
      by_cases hmain : name = ascii "main"
      · rw [hmain] at hhead ⊢
        exact Or.inr ⟨_, open_flat (StdMap.notMem_iff.mpr hhead)⟩
      · exact Or.inl (open_missing_world hname hmain hhead)
  | true =>
    cases hroot : s.roots[(RootName.revision name).key]? with
    | some id =>
      obtain ⟨manifest, parent, sequence, hobject, m, root, t, ht, -⟩ :=
        Lineage.record (hs.leads (.revision name) id hroot)
      exact Or.inr ⟨_, open_revision hname hroot hobject ht hcf hknown⟩
    | none => exact Or.inl (open_missing_revision hname hroot)

end Shows

end ForkFs
