import ForkFs.Container.Worlds
import ForkFs.MetadataTree.Listing
import ForkFs.MetadataTree.Publication

/-!
# Stored versions

A version is a manifest whose metadata tree is stored completely: every node and every value is
an object. A lineage is a revision whose version is stored, and so on through its parents. Both
only speak of objects that exist, so they survive every growth of the object store.
-/

namespace ForkFs

open Bytes Treap Treap.KeyTree Outcome

variable [Digest] {objects objects' : ObjectStore} {payloads : Set Bytes}

section Versions

/-- A manifest with a stored tree. -/
structure HoldsVersion (objects : ObjectStore) (id root : Hash) (s : KeyTree Bytes Hash) : Prop where
  /-- The manifest names the root. -/
  manifest : objects.object id = .ok (MetadataTree.manifest root)
  /-- There is a root. -/
  nonzero : root ≠ Hash.zero
  /-- The tree is stored. -/
  tree : MetadataTree.Persisted objects.object metadataPriority 256 root s
  /-- The root directory is named. -/
  named : namespaceRoot ∈ s.keys
  /-- All values are stored. -/
  values : ∀ e ∈ s.toList, ∃ b, objects.object e.2 = .ok b

/-- The map of a tree. -/
def treeMap (s : KeyTree Bytes Hash) : StdMap Bytes Hash := StdMap.emplaceAll ∅ s.toList

omit [Digest] in
theorem getElem?_treeMap {priority : Bytes → Hash} {s : KeyTree Bytes Hash} (h : Wf priority s)
    (key : Bytes) : (treeMap s)[key]? = find? s key :=
  MetadataTree.getElem?_emplaceAll_toList h key

/-- The map of a stored version. -/
def Version (objects : ObjectStore) (id : Hash) (m : StdMap Bytes Hash) : Prop :=
  ∃ root s, HoldsVersion objects id root s ∧ m = treeMap s

/-- A revision whose version is stored, as are those of its ancestors. -/
inductive Lineage (objects : ObjectStore) : Hash → Prop
  /-- The first revision of a World. -/
  | first {id manifest : Hash} {sequence : ℕ} {m : StdMap Bytes Hash}
      (hobject : objects.object id = .ok (Namespace.descriptor manifest Hash.zero sequence))
      (hversion : Version objects manifest m) : Lineage objects id
  /-- A revision after another one. -/
  | next {id manifest parent : Hash} {sequence : ℕ} {m : StdMap Bytes Hash}
      (hobject : objects.object id = .ok (Namespace.descriptor manifest parent sequence))
      (hversion : Version objects manifest m) (hparent : Lineage objects parent) :
      Lineage objects id

theorem HoldsVersion.mono {id root : Hash} {s : KeyTree Bytes Hash}
    (h : HoldsVersion objects id root s) (hext : objects.Extends objects') :
    HoldsVersion objects' id root s := by
  refine ⟨hext _ _ h.manifest, h.nonzero, h.tree.mono hext, h.named, fun e he => ?_⟩
  obtain ⟨b, hb⟩ := h.values e he
  exact ⟨b, hext _ _ hb⟩

theorem Version.mono {id : Hash} {m : StdMap Bytes Hash} (h : Version objects id m)
    (hext : objects.Extends objects') : Version objects' id m := by
  obtain ⟨root, s, hs, hm⟩ := h
  exact ⟨root, s, hs.mono hext, hm⟩

theorem Lineage.mono {id : Hash} (h : Lineage objects id) (hext : objects.Extends objects') :
    Lineage objects' id := by
  induction h with
  | first hobject hversion => exact .first (hext _ _ hobject) (hversion.mono hext)
  | next hobject hversion _ ih => exact .next (hext _ _ hobject) (hversion.mono hext) ih

end Versions

section Reads

variable {s : LevelStore} {id root : Hash} {t : KeyTree Bytes Hash}

/-- Every object of the store is a known payload. -/
def Known (s : LevelStore) (payloads : Set Bytes) : Prop := s.objects.contents ⊆ payloads

theorem Known.mem (h : Known s payloads) (id : Hash) (b : Bytes)
    (hb : s.catalog.getObject id = .ok b) : b ∈ payloads :=
  h (ObjectStore.mem_contents_of_object hb)

omit [Digest] in
theorem length_manifest (root : Hash) : (MetadataTree.manifest root).length = 40 := by
  simp [MetadataTree.manifest, MetadataTree.manifestMagic, ascii, root.property]

omit [Digest] in
theorem slice_manifest_magic (root : Hash) :
    slice (MetadataTree.manifest root) 0 8 = MetadataTree.manifestMagic :=
  slice_append_self (by decide)

omit [Digest] in
theorem slice_manifest_root (root : Hash) :
    Hash.ofBytes (slice (MetadataTree.manifest root) 8 32) = root := by
  have hslice : slice (MetadataTree.manifest root) 8 32 = root.val := by
    unfold MetadataTree.manifest
    rw [slice_append_right (by decide)]
    exact slice_self (by rw [root.property])
  rw [hslice, Hash.ofBytes_val]

theorem HoldsVersion.readManifest (h : HoldsVersion s.objects id root t) :
    NamespaceView.readManifest s.catalog id = .ok (.tree root) := by
  have hget : s.catalog.getObject id = .ok (MetadataTree.manifest root) := h.manifest
  unfold NamespaceView.readManifest
  rw [hget, ok_bind, if_pos ⟨length_manifest root, slice_manifest_magic root⟩, slice_manifest_root]
  dsimp only
  rw [need_of h.nonzero]
  rfl

/-- The editor that reads a version. -/
theorem HoldsVersion.editing (h : HoldsVersion s.objects id root t) (hknown : Known s payloads) :
    MetadataTree.Editing s.catalog.getObject metadataPriority payloads (MetadataTree.new root) t :=
  MetadataTree.Persisted.editing h.tree hknown.mem

/-- A lookup in a version is a lookup in its map. -/
theorem HoldsVersion.lookup (h : HoldsVersion s.objects id root t) (hcf : CollisionFree payloads)
    (hknown : Known s payloads) (key : Bytes) :
    (⟨s.catalog, .tree root⟩ : NamespaceView).lookup key = .ok (treeMap t)[key]? := by
  have hediting := h.editing hknown
  have hfind := MetadataTree.lookup_treeId hcf hediting.holds hediting.height hediting.root key
  rw [getElem?_treeMap h.tree.wf]
  exact hfind

/-- The keys of a version with a beginning are those of its map, in order. -/
theorem HoldsVersion.keys (h : HoldsVersion s.objects id root t) (hcf : CollisionFree payloads)
    (hknown : Known s payloads) (pre : Bytes) :
    (⟨s.catalog, .tree root⟩ : NamespaceView).keys pre = .ok (t.keys.filter (pre <+: ·)) := by
  have hediting := h.editing hknown
  exact MetadataTree.keys_treeId hcf hediting.wf hediting.holds hediting.height hediting.root pre

/-- The references of a version are its map. -/
theorem HoldsVersion.references (h : HoldsVersion s.objects id root t)
    (hcf : CollisionFree payloads) (hknown : Known s payloads) :
    (⟨s.catalog, .tree root⟩ : NamespaceView).references = .ok (treeMap t) :=
  h.tree.entries hcf hknown.mem

/-- No read of a version fails. -/
theorem HoldsVersion.get (h : HoldsVersion s.objects id root t) (hcf : CollisionFree payloads)
    (hknown : Known s payloads) {key : Bytes} {value : Hash} (hvalue : (treeMap t)[key]? = some value) :
    ∃ b, (⟨s.catalog, .tree root⟩ : NamespaceView).get key = .ok b ∧ s.objects.object value = .ok b := by
  have hmem : (key, value) ∈ t.toList := by
    rw [getElem?_treeMap h.tree.wf] at hvalue
    exact (find?_eq_some_iff h.tree.wf).mp hvalue
  obtain ⟨b, hb⟩ := h.values _ hmem
  refine ⟨b, ?_, hb⟩
  unfold NamespaceView.get
  rw [h.lookup hcf hknown, Outcome.ok_bind, hvalue]
  exact hb

end Reads

section Closed

variable {s s' : LevelStore} {mutations : List Mutation}

/-- What a root of the filesystem leads to: a registry entry names its object, a head is a stored
version, a revision has a lineage, and a base is a reference to such a revision. -/
def RootName.LeadsTo (objects : ObjectStore) (target : Hash) : RootName → Prop
  | .object id => target = id
  | .world _ => ∃ m, Version objects target m
  | .revision _ => Lineage objects target
  | .base _ => ∃ parent : Hash, objects.object target = .ok parent.val ∧ Lineage objects parent
  | _ => True

theorem RootName.LeadsTo.mono {n : RootName} {target : Hash} (h : n.LeadsTo objects target)
    (hext : objects.Extends objects') : n.LeadsTo objects' target := by
  cases n with
  | world name =>
    obtain ⟨m, hm⟩ := h
    exact ⟨m, hm.mono hext⟩
  | revision name => exact Lineage.mono h hext
  | base name =>
    obtain ⟨parent, hobject, hparent⟩ := h
    exact ⟨parent, hext _ _ hobject, hparent.mono hext⟩
  | _ => exact h

/-- Everything that the roots of the filesystem lead to is stored. -/
structure LevelStore.Closed (s : LevelStore) : Prop where
  /-- The counters are right. -/
  counted : s.Counted
  /-- Every root names an object. -/
  named : s.Named
  /-- Every root of the filesystem leads to stored objects. -/
  leads : ∀ (n : RootName) (target : Hash), s.roots[n.key]? = some target →
    n.LeadsTo s.objects target

/-- A mutation that binds no root of the filesystem to something else. -/
def Mutation.Closed (objects : ObjectStore) (m : Mutation) : Prop :=
  ∀ (n : RootName) (target : Hash), n.key = m.key → m.target = some target →
    n.LeadsTo objects target

/-- A root after a transaction was bound by it or was there before. -/
theorem LevelStore.Transacted.root_cases (h : LevelStore.Transacted s mutations s') {key : Bytes}
    {id : Hash} (hroot : s'.roots[key]? = some id) :
    (∃ m ∈ mutations, m.key = key ∧ m.target = some id) ∨ s.roots[key]? = some id := by
  by_cases hmem : key ∈ mutations.map Mutation.key
  · obtain ⟨m, hm, rfl⟩ := List.mem_map.mp hmem
    exact Or.inl ⟨m, hm, rfl, by rw [← h.bound m hm, hroot]⟩
  · exact Or.inr (by rw [← h.frame key hmem, hroot])

/-- A transaction keeps a store closed if its mutations do. -/
theorem LevelStore.Closed.transacted (hs : s.Closed) (h : LevelStore.Transacted s mutations s')
    (hbatch : ∀ m ∈ mutations, m.Closed s'.objects) : s'.Closed := by
  refine ⟨h.counted hs.counted, h.named hs.named, fun n target hroot => ?_⟩
  rcases h.root_cases hroot with ⟨m, hm, hkey, htarget⟩ | hold
  · exact hbatch m hm n target hkey.symm htarget
  · exact (hs.leads n target hold).mono h.extends_

/-- A new repository is closed. -/
theorem closed_create : LevelStore.create.Closed := by
  refine ⟨⟨rfl, rfl⟩, ?_, ?_⟩ <;> simp [LevelStore.create, LevelStore.Named]

/-- A payload that a batch stores, or finds in the registry, reads back. -/
theorem object_of_registered (hcf : CollisionFree payloads) (hs : s.Closed)
    (h : LevelStore.Transacted s mutations s') (hknown : Known s' payloads) {b : Bytes}
    (hb : b ∈ payloads)
    (hregistered : (RootName.object (objectHash b)).key ∈ s.roots ∨
      ∃ m ∈ mutations, m.target = some (objectHash b)) :
    s'.objects.object (objectHash b) = .ok b := by
  have hreadable : ∃ b', s'.objects.object (objectHash b) = .ok b' := by
    rcases hregistered with hroot | ⟨m, hm, htarget⟩
    · obtain ⟨target, htarget⟩ := StdMap.mem_iff.mp hroot
      obtain rfl : target = objectHash b := hs.leads _ _ htarget
      obtain ⟨b', hb'⟩ := hs.named _ _ htarget
      exact ⟨b', h.extends_ _ _ hb'⟩
    · exact h.readable m hm _ htarget
  obtain ⟨b', hb'⟩ := hreadable
  have hsame : b' = b := hcf.injOn (hknown (ObjectStore.mem_contents_of_object hb')) hb
    (s'.objects.checked_object _ _ hb')
  rw [hb', hsame]

end Closed

section Publication

variable {s s' : LevelStore} {t t' : MetadataTree} {tree : KeyTree Bytes Hash}
  {m : StdMap Bytes Hash} {changes : TreeChanges} {plan : MetadataTree.Plan}

/-- The checks of a batch leave a namespace root. -/
theorem namespaceRoot_of_apply (hcf : CollisionFree payloads)
    (ht : MetadataTree.Editing s.objects.object metadataPriority payloads t tree)
    (hm : ∀ key : Bytes, m[key]? = find? tree key)
    (happly : MetadataTree.apply s.objects.object metadataPriority changes t = .ok plan t') :
    ∃ id, (m.override changes)[namespaceRoot]? = some id := by
  obtain ⟨hchecks, hroot, -⟩ := MetadataTree.apply_eq_ok.mp happly
  rw [StdMap.getElem?_override]
  cases hchange : changes[namespaceRoot]? with
  | some o =>
    have hcheck := forM_eq_ok.mp hchecks _ (StdMap.mem_toList.mpr hchange)
    obtain ⟨-, hcheck⟩ := need_bind_eq_ok.mp hcheck
    obtain ⟨-, hcheck⟩ := need_bind_eq_ok.mp hcheck
    exact Option.isSome_iff_exists.mp ((need_eq_ok.mp hcheck).resolve_left (by simp))
  | none =>
    unfold MetadataTree.checkRoot at hroot
    rw [if_neg (StdMap.notMem_iff.mpr hchange),
      MetadataTree.lookup_treeId hcf ht.holds ht.height ht.root, ok_bind] at hroot
    rw [← hm] at hroot
    exact Option.isSome_iff_exists.mp (need_eq_ok.mp hroot)

/-- A batch that stores the objects, the manifest and the values of a planned version holds it. -/
theorem holdsVersion_of_apply (hcf : CollisionFree payloads)
    (ht : MetadataTree.Editing s.objects.object metadataPriority payloads t tree)
    (hm : ∀ key : Bytes, m[key]? = find? tree key)
    (happly : MetadataTree.apply s.objects.object metadataPriority changes t = .ok plan t')
    (hpay : t'.pendingPayloads ⊆ payloads) (hext : s.objects.Extends s'.objects)
    (hobjects : ∀ b ∈ plan.objects, s'.objects.object (objectHash b) = .ok b)
    (hmanifest : s'.objects.object (objectHash plan.manifest) = .ok plan.manifest)
    (hvalues : ∀ (key : Bytes) id, (m.override changes)[key]? = some id →
      ∃ b, s'.objects.object id = .ok b) :
    ∃ tree', HoldsVersion s'.objects (objectHash plan.manifest) t'.root tree' ∧
      treeMap tree' = m.override changes := by
  obtain ⟨ht', hplan, hpending⟩ := MetadataTree.apply_spec hcf ht happly hpay
  have hfind := MetadataTree.find?_applyAll ht.wf hm changes
  have hnamed : namespaceRoot ∈
      (MetadataTree.applyAll metadataPriority tree changes.toList).keys := by
    obtain ⟨id, hid⟩ := namespaceRoot_of_apply hcf ht hm happly
    rw [hfind, find?_eq_some_iff ht'.wf] at hid
    exact mem_keys_iff.mpr ⟨id, hid⟩
  have hzero := MetadataTree.treeId_eq_zero_iff hcf ht'.holds
  have hnonzero : t'.root ≠ Hash.zero := by
    intro hroot
    rw [hzero.mp (ht'.root.symm.trans hroot)] at hnamed
    simp at hnamed
  have hstored := MetadataTree.stored_of_published ht'.holds hext fun b hb =>
    hobjects b (by rwa [hpending])
  refine ⟨_, ⟨by rw [hmanifest, hplan], hnonzero, ?_, hnamed, fun e he => ?_⟩, ?_⟩
  · exact ⟨ht'.root.symm, fun hroot => absurd hroot hnonzero, hstored, ht'.wf, ht'.height,
      fun e he => ht'.holds.valid he⟩
  · exact hvalues e.1 e.2 (by rw [hfind, find?_eq_some_iff ht'.wf]; exact he)
  · exact StdMap.ext fun key => by rw [getElem?_treeMap ht'.wf, hfind]

/-- The editor of an empty tree. -/
theorem editing_empty (getObject : Hash → Except String Bytes) :
    MetadataTree.Editing getObject metadataPriority payloads (MetadataTree.new Hash.zero) .leaf :=
  ⟨rfl, trivial, trivial, Nat.zero_le _⟩

end Publication

end ForkFs
