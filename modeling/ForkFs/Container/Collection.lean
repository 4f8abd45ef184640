import ForkFs.Container.Marking

/-!
# Collection keeps what the roots lead to

A collection keeps the live objects and the registry entries of live objects. The store stays
closed: every version, every lineage and every root outside the registry reads as before.
-/

namespace ForkFs

open Bytes Treap Treap.KeyTree Outcome

variable [Digest] {payloads : Set Bytes} {s s' : LevelStore} {id : Hash}

section Retained

/-- An object store that has the live objects of another one. -/
def Keeps (s : LevelStore) (objects : ObjectStore) : Prop :=
  ∀ id b, Live s id → s.objects.object id = .ok b → objects.object id = .ok b

variable {objects : ObjectStore}

theorem Keeps.reached (h : Keeps s objects) {link : Link} (hid : Reached s link id) {b : Bytes}
    (hb : s.objects.object id = .ok b) : objects.object id = .ok b :=
  h id b (Or.inr ⟨link, hid⟩) hb

theorem StoredTree.treeId_ne_zero {t : KeyTree Bytes Hash} (h : StoredTree s.objects t)
    (hcf : CollisionFree payloads) (hknown : Known s payloads) (hleaf : t ≠ .leaf) :
    treeId t ≠ Hash.zero := by
  cases t with
  | leaf => exact absurd rfl hleaf
  | node => exact ne_zero_of_object hcf hknown h.nodes.1

/-- The values of a reached tree are reached. -/
theorem StoredTree.reached_values {t : KeyTree Bytes Hash} (h : StoredTree s.objects t)
    (hcf : CollisionFree payloads) (hknown : Known s payloads)
    (hreached : t ≠ .leaf → Reached s .node (treeId t)) :
    ∀ e ∈ t.toList, Reached s .value e.2 := by
  induction t with
  | leaf => simp
  | node l k v r ihl ihr =>
    have hnode := hreached (by simp)
    have hdecode := MetadataTree.decode_of_stored h.nodes h.valid
    intro e he
    rw [toList_node, List.mem_append, List.mem_cons] at he
    rcases he with he | rfl | he
    · exact ihl h.left (fun hleaf => hnode.child
        (.left hdecode (h.left.treeId_ne_zero hcf hknown hleaf))) e he
    · exact hnode.child (.value hdecode)
    · exact ihr h.right (fun hleaf => hnode.child
        (.right hdecode (h.right.treeId_ne_zero hcf hknown hleaf))) e he

/-- The nodes of a reached tree are kept. -/
theorem StoredTree.retained {t : KeyTree Bytes Hash} (h : StoredTree s.objects t)
    (hkeeps : Keeps s objects) (hcf : CollisionFree payloads) (hknown : Known s payloads)
    (hreached : t ≠ .leaf → Reached s .node (treeId t)) : Stored objects.object t := by
  induction t with
  | leaf => trivial
  | node l k v r ihl ihr =>
    have hnode := hreached (by simp)
    have hdecode := MetadataTree.decode_of_stored h.nodes h.valid
    exact ⟨hkeeps.reached hnode h.nodes.1,
      ihl h.left fun hleaf => hnode.child (.left hdecode (h.left.treeId_ne_zero hcf hknown hleaf)),
      ihr h.right fun hleaf => hnode.child (.right hdecode (h.right.treeId_ne_zero hcf hknown hleaf))⟩

theorem HoldsVersion.reached_values {root : Hash} {t : KeyTree Bytes Hash}
    (h : HoldsVersion s.objects id root t) (hcf : CollisionFree payloads) (hknown : Known s payloads)
    (hreached : Reached s .manifest id) : ∀ e ∈ t.toList, Reached s .value e.2 :=
  h.storedTree.reached_values hcf hknown fun _ => by
    rw [h.tree.id_eq]
    exact hreached.child (.tree h.readManifest)

theorem HoldsVersion.retained {root : Hash} {t : KeyTree Bytes Hash}
    (h : HoldsVersion s.objects id root t) (hkeeps : Keeps s objects)
    (hcf : CollisionFree payloads) (hknown : Known s payloads) (hreached : Reached s .manifest id) :
    HoldsVersion objects id root t := by
  have hstored := h.storedTree.retained hkeeps hcf hknown fun _ => by
    rw [h.tree.id_eq]
    exact hreached.child (.tree h.readManifest)
  refine ⟨hkeeps.reached hreached h.manifest, h.nonzero,
    ⟨h.tree.id_eq, h.tree.empty, hstored, h.tree.wf, h.tree.height, h.tree.valid⟩, h.named,
    fun e he => ?_⟩
  obtain ⟨b, hb⟩ := h.values e he
  exact ⟨b, hkeeps.reached (h.reached_values hcf hknown hreached e he) hb⟩

theorem Version.retained {m : StdMap Bytes Hash} (h : Version s.objects id m)
    (hkeeps : Keeps s objects) (hcf : CollisionFree payloads) (hknown : Known s payloads)
    (hreached : Reached s .manifest id) : Version objects id m := by
  obtain ⟨root, t, ht, hm⟩ := h
  exact ⟨root, t, ht.retained hkeeps hcf hknown hreached, hm⟩

/-- A revision record leads to its parent. -/
theorem Reached.parent {manifest parent : Hash} {sequence : ℕ} (h : Reached s .revision id)
    (hobject : s.objects.object id = .ok (Namespace.descriptor manifest parent sequence))
    (hparent : parent ≠ Hash.zero) : Reached s .revision parent := by
  have hfield := slice_descriptor_parent manifest parent sequence
  have hchild : Child s .revision id .revision
      (Hash.ofBytes (slice (Namespace.descriptor manifest parent sequence) 40 32)) :=
    .parent hobject ⟨length_descriptor _ _ _, slice_descriptor_magic _ _ _⟩ (by rwa [hfield])
  rw [hfield] at hchild
  exact h.child hchild

theorem Lineage.retained (h : Lineage s.objects id) (hkeeps : Keeps s objects)
    (hcf : CollisionFree payloads) (hknown : Known s payloads) (hreached : Reached s .revision id) :
    Lineage objects id := by
  induction h with
  | first hobject hversion =>
    have hmanifest := hreached.child (.manifest hobject (descriptorManifest_descriptor _ _ _))
    exact .first (hkeeps.reached hreached hobject) (hversion.retained hkeeps hcf hknown hmanifest)
  | @next id manifest parent sequence m hobject hversion hlineage ih =>
    have hmanifest := hreached.child (.manifest hobject (descriptorManifest_descriptor _ _ _))
    obtain ⟨_, _, _, hrecord, -⟩ := hlineage.record
    have hparent := hreached.parent hobject (ne_zero_of_object hcf hknown hrecord)
    exact .next (hkeeps.reached hreached hobject) (hversion.retained hkeeps hcf hknown hmanifest)
      (ih hparent)

/-- What a root leads to is kept. -/
theorem RootName.LeadsTo.retained {n : RootName} (h : n.LeadsTo s.objects id)
    (hroot : s.roots[n.key]? = some id) (hkeeps : Keeps s objects) (hcf : CollisionFree payloads)
    (hknown : Known s payloads) : n.LeadsTo objects id := by
  cases n with
  | world name =>
    obtain ⟨m, hm⟩ := h
    exact ⟨m, hm.retained hkeeps hcf hknown (.start (.world hroot))⟩
  | revision name => exact Lineage.retained h hkeeps hcf hknown (.start (.revision hroot))
  | base name =>
    obtain ⟨parent, hobject, hlineage⟩ := h
    have hreached : Reached s .revision parent := by
      have hstart := Start.base hroot hobject parent.property
      rw [Hash.ofBytes_val] at hstart
      exact .start hstart
    have hregistry : ¬ history ++ ascii "object/" <+: (RootName.base name).key :=
      not_isPrefix_of_isPrefix (a := ascii "base/") ⟨name, by simp [RootName.key]⟩ (by decide)
    exact ⟨parent, hkeeps id _ (Or.inl ⟨_, hroot, hregistry⟩) hobject,
      hlineage.retained hkeeps hcf hknown hreached⟩
  | _ => exact h

end Retained

section Collect

variable {removed : ℕ}

/-- What a collection does. -/
structure Collected (s : LevelStore) (removed : ℕ) (s' : LevelStore) : Prop where
  /-- One batch is committed. -/
  sequence : s'.sequence = s.sequence + 1
  /-- The live objects stay. -/
  object : ∀ id b, s'.objects.object id = .ok b ↔ Live s id ∧ s.objects.object id = .ok b
  /-- The roots stay, but for registry entries of other objects. -/
  root : ∀ (key : Bytes) id, s'.roots[key]? = some id ↔
    s.roots[key]? = some id ∧ (history ++ ascii "object/" <+: key → Live s id)
  /-- The result is the number of deleted objects. -/
  removed : removed + s'.objects.payloads.size = s.objects.payloads.size
  /-- The counters are right. -/
  counted : s'.Counted

theorem object_retain {objects : ObjectStore} {live : Finset Hash} {b : Bytes} :
    (objects.retain live).object id = .ok b ↔ id ∈ live ∧ objects.object id = .ok b := by
  rw [ObjectStore.object_eq_ok, ObjectStore.object_eq_ok, ObjectStore.retain,
    StdMap.getElem?_filterKeys]
  split <;> simp [*]

theorem Live.readable (h : Live s id) (hs : s.Closed) : ∃ b, s.objects.object id = .ok b := by
  rcases h with ⟨key, hroot, -⟩ | ⟨link, hreached⟩
  · exact hs.named key id hroot
  · exact (hreached.sound hs).readable

/-- The registry entries that a collection deletes. -/
def obsoleteKeys (s : LevelStore) (live : Finset Hash) : List Bytes :=
  (s.catalog.keys (history ++ ascii "object/")).filter fun key => ∀ id ∈ s.roots[key]?, id ∉ live

theorem mem_obsoleteKeys {live : Finset Hash} {key : Bytes} :
    key ∈ obsoleteKeys s live ↔
      history ++ ascii "object/" <+: key ∧ ∃ id, s.roots[key]? = some id ∧ id ∉ live := by
  unfold obsoleteKeys
  rw [List.mem_filter, Catalog.mem_keys, decide_eq_true_eq]
  constructor
  · rintro ⟨⟨hmem, hkey⟩, hall⟩
    obtain ⟨id, hid⟩ := StdMap.mem_iff.mp hmem
    exact ⟨hkey, id, hid, hall id hid⟩
  · rintro ⟨hkey, id, hid, hdead⟩
    refine ⟨⟨StdMap.mem_iff.mpr ⟨id, hid⟩, hkey⟩, fun id' hid' => ?_⟩
    cases hid.symm.trans hid'
    exact hdead

theorem nodup_obsoleteKeys (live : Finset Hash) : (obsoleteKeys s live).Nodup :=
  (s.roots.nodup_toList.filter _).filter _

/-- A store after a collection. -/
def LevelStore.collected (s : LevelStore) (live : Finset Hash) : LevelStore :=
  ⟨s.objects.retain live, (obsoleteKeys s live).foldl (fun roots key => roots.erase key) s.roots,
    s.sequence + 1, s.objectCount - (s.objects.payloads.size - (s.objects.retain live).payloads.size),
    s.rootCount - (obsoleteKeys s live).length⟩

/-- Obsolete roots are there. -/
theorem mem_roots_of_obsolete {live : Finset Hash} {key : Bytes} (h : key ∈ obsoleteKeys s live) :
    key ∈ s.roots := by
  obtain ⟨-, id, hid, -⟩ := mem_obsoleteKeys.mp h
  exact StdMap.mem_iff.mpr ⟨id, hid⟩

/-- A collection of a closed store fails only when there are no sequence numbers left. -/
theorem planCollect_eq (hs : s.Closed) {live : Finset Hash} (hlive : Container.liveObjects s = .ok live)
    (hmem : ∀ id, id ∈ live ↔ Live s id) :
    Container.planCollect s = if s.sequence = 2 ^ 64 - 1 then .error "GC sequence conflict"
      else .ok (s.objects.payloads.size - (s.objects.retain live).payloads.size, s.collected live) := by
  have hpresent : ∀ id ∈ live, id ∈ s.objects.payloads := by
    intro id hid
    obtain ⟨b, hb⟩ := ((hmem id).mp hid).readable hs
    exact StdMap.mem_iff.mpr ⟨b, ObjectStore.object_eq_ok.mp hb⟩
  have hsize := StdMap.size_foldl_erase (nodup_obsoleteKeys (s := s) live)
    fun _ => mem_roots_of_obsolete
  have hcounters : s.objects.payloads.size - (s.objects.retain live).payloads.size ≤ s.objectCount ∧
      (obsoleteKeys s live).length ≤ s.rootCount := by
    rw [hs.counted.1, hs.counted.2]
    omega
  have hplan : Container.planCollect s = (do
      s.verify
      let live ← Container.liveObjects s
      s.collect s.sequence live (obsoleteKeys s live)) := rfl
  rw [hplan, LevelStore.verify_of hs.counted hs.named, ok_bind, hlive, ok_bind]
  unfold LevelStore.collect
  split
  · rename_i hsequence
    rw [need_of_not fun h => h.2 hsequence]
    rfl
  · rename_i hsequence
    rw [need_of ⟨rfl, hsequence⟩, ok_bind, need_of hpresent, ok_bind]
    dsimp only
    rw [need_of fun key hkey => mem_roots_of_obsolete hkey, ok_bind, need_of hcounters]
    rfl

theorem collected_spec (hs : s.Closed) {live : Finset Hash} (hmem : ∀ id, id ∈ live ↔ Live s id) :
    Collected s (s.objects.payloads.size - (s.objects.retain live).payloads.size)
      (s.collected live) := by
  have hsize := StdMap.size_foldl_erase (nodup_obsoleteKeys (s := s) live)
    fun _ => mem_roots_of_obsolete
  have hretained : (s.objects.retain live).payloads.size ≤ s.objects.payloads.size :=
    Std.ExtTreeMap.size_filter_le_size
  refine ⟨rfl, fun id b => ?_, fun key id => ?_, ?_, ?_, ?_⟩
  · change (s.objects.retain live).object id = .ok b ↔ _
    rw [object_retain, hmem]
  · change ((obsoleteKeys s live).foldl (fun roots key => roots.erase key) s.roots)[key]? = _ ↔ _
    rw [StdMap.getElem?_foldl_erase]
    split
    · rename_i hobsolete
      obtain ⟨hkey, id', hid', hdead⟩ := mem_obsoleteKeys.mp hobsolete
      refine ⟨fun h => (by cases h), fun ⟨hid, hregistry⟩ => ?_⟩
      cases hid'.symm.trans hid
      exact absurd ((hmem _).mpr (hregistry hkey)) hdead
    · rename_i hkept
      refine ⟨fun hid => ⟨hid, fun hkey => ?_⟩, fun h => h.1⟩
      by_contra hdead
      exact hkept (mem_obsoleteKeys.mpr ⟨hkey, id, hid, fun h => hdead ((hmem id).mp h)⟩)
  · change _ + (s.objects.retain live).payloads.size = _
    omega
  · change s.objectCount - _ = (s.objects.retain live).payloads.size
    rw [hs.counted.1]
    omega
  · change s.rootCount - _ = _
    rw [hs.counted.2]
    change _ = ((obsoleteKeys s live).foldl (fun roots key => roots.erase key) s.roots).size
    omega

theorem planCollect_spec (hs : s.Closed) (hcf : CollisionFree payloads) (hknown : Known s payloads)
    (h : Container.planCollect s = .ok (removed, s')) : Collected s removed s' := by
  obtain ⟨live, hlive, hmem⟩ := liveObjects_spec hs hcf hknown
  rw [planCollect_eq hs hlive hmem] at h
  split at h
  · cases h
  · cases h
    exact collected_spec hs hmem

theorem planCollect_sequence (hs : s.Closed) (hcf : CollisionFree payloads)
    (hknown : Known s payloads) (h : Container.planCollect s = .ok (removed, s')) :
    s.sequence ≠ 2 ^ 64 - 1 := by
  obtain ⟨live, hlive, hmem⟩ := liveObjects_spec hs hcf hknown
  rw [planCollect_eq hs hlive hmem] at h
  split at h
  · cases h
  · assumption

theorem Collected.keeps (h : Collected s removed s') : Keeps s s'.objects :=
  fun id b hlive hb => (h.object id b).mpr ⟨hlive, hb⟩

/-- A collection keeps the store closed. -/
theorem Collected.closed (h : Collected s removed s') (hs : s.Closed) (hcf : CollisionFree payloads)
    (hknown : Known s payloads) : s'.Closed := by
  refine ⟨h.counted, fun key id hroot => ?_, fun n target hroot => ?_⟩
  · obtain ⟨hold, hregistry⟩ := (h.root key id).mp hroot
    have hlive : Live s id := by
      by_cases hkey : history ++ ascii "object/" <+: key
      · exact hregistry hkey
      · exact Or.inl ⟨key, hold, hkey⟩
    obtain ⟨b, hb⟩ := hs.named key id hold
    exact ⟨b, h.keeps id b hlive hb⟩
  · obtain ⟨hold, -⟩ := (h.root n.key target).mp hroot
    exact (hs.leads n target hold).retained hold h.keeps hcf hknown

theorem Collected.known (h : Collected s removed s') (hknown : Known s payloads) :
    Known s' payloads := by
  intro b hb
  exact hknown.mem _ b ((h.object _ b).mp (ObjectStore.mem_contents.mp hb)).2

end Collect

end ForkFs
