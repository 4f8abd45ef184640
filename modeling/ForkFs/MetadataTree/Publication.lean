import ForkFs.LevelStore.Objects
import ForkFs.MetadataTree.Reads

/-!
# Publishing tree edits

Between batches an editor holds the treap of its root. A batch edits that treap and plans the
nodes that are not yet stored. Adding them to the store completes the tree, which is then closed
under child references and has the original entries overridden by the changes.
-/

namespace ForkFs

open Bytes Treap Treap.KeyTree

namespace MetadataTree

variable [Digest] {getObject getObject' : Hash → Except String Bytes} {priority : Bytes → Hash}
  {payloads : Set Bytes} {t t' : MetadataTree} {s : KeyTree Bytes Hash} {changes : TreeChanges}
  {plan : Plan}

section Apply

theorem stored_mono (hext : ∀ id b, getObject id = .ok b → getObject' id = .ok b)
    (h : Stored getObject s) : Stored getObject' s := by
  induction s with
  | leaf => trivial
  | node l k v r ihl ihr => exact ⟨hext _ _ h.1, ihl h.2.1, ihr h.2.2⟩

/-- Everything held stays held when objects are added to the store. -/
theorem Holds.mono (hext : ∀ id b, getObject id = .ok b → getObject' id = .ok b)
    (h : Holds getObject payloads t s) : Holds getObject' payloads t s := by
  induction s with
  | leaf => trivial
  | node l k v r ihl ihr =>
    obtain ⟨⟨hread, hpayload, hvalid, hbacked⟩, hl, hr⟩ := h
    refine ⟨⟨?_, hpayload, hvalid, hbacked.imp_right (stored_mono hext)⟩, ihl hl, ihr hr⟩
    unfold MetadataTree.node at hread ⊢
    split at hread
    · exact hread
    · obtain ⟨b, hget, hdecode⟩ := Outcome.bind_eq_ok.mp hread
      rw [hext _ _ hget, Outcome.ok_bind, hdecode]

/-- Moving the root does not change what is held. -/
theorem Holds.withRoot (h : Holds getObject payloads t s) (root : Hash) :
    Holds getObject payloads { t with root := root } s := by
  induction s with
  | leaf => trivial
  | node l k v r ihl ihr => exact ⟨⟨h.1.read, h.1.payload, h.1.valid, h.1.backed⟩, ihl h.2.1, ihr h.2.2⟩

theorem pendingObjects_withRoot (t : MetadataTree) (root : Hash) (s : KeyTree Bytes Hash) :
    pendingObjects { t with root := root } s = pendingObjects t s := by
  induction s with
  | leaf => rfl
  | node l k v r ihl ihr =>
    rw [pendingObjects, pendingObjects, ihl, ihr]
    rfl

/-- What a plan publishes was pending. -/
theorem mem_pending_of_mem_pendingObjects {b : Bytes} (h : b ∈ pendingObjects t s) :
    b ∈ t.pending := by
  induction s with
  | leaf => cases h
  | node l k v r ihl ihr =>
    rw [pendingObjects] at h
    cases hfind : t.findPending (treeId (.node l k v r)) with
    | none => simp [hfind] at h
    | some payload =>
      simp only [hfind, List.mem_append, List.mem_singleton] at h
      rcases h with (h | h) | rfl
      · exact ihl h
      · exact ihr h
      · exact List.mem_of_find?_eq_some hfind

/-- Publishing the pending payloads of a held tree stores the whole tree. -/
theorem stored_of_published (hs : Holds getObject payloads t s)
    (hext : ∀ id b, getObject id = .ok b → getObject' id = .ok b)
    (hput : ∀ b ∈ pendingObjects t s, getObject' (objectHash b) = .ok b) :
    Stored getObject' s := by
  induction s with
  | leaf => trivial
  | node l k v r ihl ihr =>
    rcases hs.1.backed with hpending | hstored
    · simp only [pendingObjects, hpending] at hput
      exact ⟨hput (rootNode l k v r).encode (by simp), ihl hs.2.1 fun b hb => hput b (by simp [hb]),
        ihr hs.2.2 fun b hb => hput b (by simp [hb])⟩
    · exact stored_mono hext hstored

/-- What holds of an editor between batches: its root is that of a held treap. -/
structure Editing (getObject : Hash → Except String Bytes) (priority : Bytes → Hash)
    (payloads : Set Bytes) (t : MetadataTree) (s : KeyTree Bytes Hash) : Prop where
  /-- The root names the tree. -/
  root : t.root = treeId s
  /-- Every node can be read and published. -/
  holds : Holds getObject payloads t s
  /-- The tree is a treap. -/
  wf : Wf priority s
  /-- It is within the depth limit. -/
  height : s.height ≤ 256

theorem Editing.mono (hext : ∀ id b, getObject id = .ok b → getObject' id = .ok b)
    (h : Editing getObject priority payloads t s) : Editing getObject' priority payloads t s :=
  ⟨h.root, h.holds.mono hext, h.wf, h.height⟩

theorem Persisted.editing {root : Hash} (h : Persisted getObject priority 256 root s)
    (hmem : ∀ id b, getObject id = .ok b → b ∈ payloads) :
    Editing getObject priority payloads (new root) s :=
  ⟨h.id_eq.symm, holds_new h.stored hmem h.valid, h.wf, h.height⟩

theorem Persisted.mono {root : Hash} {limit : ℕ}
    (hext : ∀ id b, getObject id = .ok b → getObject' id = .ok b)
    (h : Persisted getObject priority limit root s) : Persisted getObject' priority limit root s :=
  ⟨h.id_eq, h.empty, stored_mono hext h.stored, h.wf, h.height, h.valid⟩

/-- The steps of a successful batch. -/
theorem apply_eq_ok :
    apply getObject priority changes t = .ok plan t' ↔
      changes.toList.forM checkChange = .ok () ∧ t.checkRoot getObject changes = .ok () ∧
      ∃ candidate edited,
        setAll getObject priority changes.toList t.root t = .ok candidate edited ∧
        edited.checkHeight getObject candidate = .ok () ∧
        (∃ visited, edited.collect getObject 257 candidate (∅, []) = .ok (visited, plan.objects)) ∧
        plan.manifest = manifest candidate ∧ t' = { edited with root := candidate } := by
  unfold apply
  constructor
  · intro h
    obtain ⟨⟨⟩, _, hattempt, h⟩ := Outcome.run_bind_eq_ok.mp h
    obtain ⟨hchecks, rfl⟩ := attempt_eq_ok.mp hattempt
    obtain ⟨⟨⟩, _, hattempt, h⟩ := Outcome.run_bind_eq_ok.mp h
    obtain ⟨hroot, rfl⟩ := attempt_eq_ok.mp hattempt
    obtain ⟨candidate, edited, hset, h⟩ := Outcome.run_bind_eq_ok.mp h
    obtain ⟨_, _, hget, h⟩ := Outcome.run_bind_eq_ok.mp h
    cases hget
    obtain ⟨⟨⟩, _, hattempt, h⟩ := Outcome.run_bind_eq_ok.mp h
    obtain ⟨hheight, rfl⟩ := attempt_eq_ok.mp hattempt
    obtain ⟨⟨visited, objects⟩, _, hattempt, h⟩ := Outcome.run_bind_eq_ok.mp h
    obtain ⟨hcollect, rfl⟩ := attempt_eq_ok.mp hattempt
    obtain ⟨_, _, hput, h⟩ := Outcome.run_bind_eq_ok.mp h
    cases hput
    obtain ⟨rfl, rfl⟩ := Outcome.run_pure_eq_ok.mp h
    exact ⟨hchecks, hroot, candidate, edited, hset, hheight, ⟨visited, hcollect⟩, rfl, rfl⟩
  · rintro ⟨hchecks, hroot, candidate, edited, hset, hheight, ⟨visited, hcollect⟩, hmanifest, rfl⟩
    obtain ⟨_, objects⟩ := plan
    cases hmanifest
    refine Outcome.run_bind_eq_ok.mpr ⟨(), t, attempt_eq_ok.mpr ⟨hchecks, rfl⟩, ?_⟩
    refine Outcome.run_bind_eq_ok.mpr ⟨(), t, attempt_eq_ok.mpr ⟨hroot, rfl⟩, ?_⟩
    refine Outcome.run_bind_eq_ok.mpr ⟨candidate, edited, hset, ?_⟩
    refine Outcome.run_bind_eq_ok.mpr ⟨edited, edited, rfl, ?_⟩
    refine Outcome.run_bind_eq_ok.mpr ⟨(), edited, attempt_eq_ok.mpr ⟨hheight, rfl⟩, ?_⟩
    refine Outcome.run_bind_eq_ok.mpr ⟨_, edited, attempt_eq_ok.mpr ⟨hcollect, rfl⟩, ?_⟩
    exact Outcome.run_bind_eq_ok.mpr ⟨(), _, rfl, rfl⟩

theorem pending_apply (h : apply getObject priority changes t = .ok plan t') :
    t.pending <+: t'.pending := by
  obtain ⟨-, -, candidate, edited, hset, -, -, -, rfl⟩ := apply_eq_ok.mp h
  have hpending := (grows_setAll _ _).of_ok hset
  exact hpending

/-- A successful batch edits the treap and plans the pending nodes of the result. -/
theorem apply_spec (hcf : CollisionFree payloads) (ht : Editing getObject priority payloads t s)
    (h : apply getObject priority changes t = .ok plan t')
    (hpay : t'.pendingPayloads ⊆ payloads) :
    Editing getObject priority payloads t' (applyAll priority s changes.toList) ∧
      plan.manifest = manifest t'.root ∧
      plan.objects = pendingObjects t' (applyAll priority s changes.toList) := by
  obtain ⟨-, -, candidate, edited, hset, hheight, ⟨visited, hcollect⟩, hmanifest, rfl⟩ :=
    apply_eq_ok.mp h
  rw [ht.root] at hset
  obtain ⟨rfl, hholds, hevolves⟩ := setAll_yields hcf ht.wf ht.holds hset hpay
  have hwf := wf_applyAll ht.wf changes.toList
  have hlimit : (applyAll priority s changes.toList).height ≤ 256 := by
    unfold checkHeight at hheight
    split at hheight
    · rename_i hroot
      rw [hevolves.root, ht.root] at hroot
      rw [treeId_inj hcf hholds (hevolves.holds s ht.holds) hroot]
      exact ht.height
    · obtain ⟨n, hn, -⟩ := Outcome.bind_eq_ok.mp hheight
      rw [height, heightFrom_treeId hcf hholds] at hn
      by_contra hlt
      rw [if_neg hlt] at hn
      cases hn
  refine ⟨⟨rfl, hholds.withRoot _, hwf, hlimit⟩, hmanifest, ?_⟩
  rw [collect_treeId hcf hwf hholds hpay (by omega) ∅ [] (by simp)] at hcollect
  simp only [List.nil_append, Except.ok.injEq, Prod.mk.injEq] at hcollect
  rw [pendingObjects_withRoot, hcollect.2]

end Apply

section Publish

variable {store : ObjectStore}

/-- A published plan completes the tree of its manifest in the store. -/
theorem published (hcf : CollisionFree payloads) (hstore : store.contents ⊆ payloads)
    (ht : Editing store.object priority payloads t s)
    (h : apply store.object priority changes t = .ok plan t')
    (hpay : t'.pendingPayloads ⊆ payloads) :
    Persisted (store.putAll plan.objects).object priority 256 t'.root
        (applyAll priority s changes.toList) ∧
      (store.putAll plan.objects).contents ⊆ payloads := by
  obtain ⟨ht', -, hobjects⟩ := apply_spec hcf ht h hpay
  have hsubset : { b | b ∈ plan.objects } ⊆ payloads := by
    intro b hb
    apply hpay
    apply mem_pending_of_mem_pendingObjects (s := applyAll priority s changes.toList)
    rw [← hobjects]
    exact hb
  have hempty : t'.root = Hash.zero → applyAll priority s changes.toList = .leaf := fun hzero =>
    (treeId_eq_zero_iff hcf ht'.holds).mp (ht'.root.symm.trans hzero)
  refine ⟨⟨ht'.root.symm, hempty, ?_, ht'.wf, ht'.height, fun e he => ht'.holds.valid he⟩, ?_⟩
  · apply stored_of_published ht'.holds (store.extends_putAll plan.objects)
    intro b hb
    rw [← hobjects] at hb
    exact ObjectStore.object_putAll hcf hstore hsubset hb
  · exact (ObjectStore.contents_putAll_subset _).trans (Set.union_subset hstore hsubset)

/-- Nodes reachable from a root through child references. -/
inductive NodeReachable (getObject : Hash → Except String Bytes) (root : Hash) : Hash → Prop
  | root : root ≠ Hash.zero → NodeReachable getObject root root
  | left {id : Hash} {n : Node} : NodeReachable getObject root id →
      (getObject id >>= Node.decode) = .ok n → n.left ≠ Hash.zero →
      NodeReachable getObject root n.left
  | right {id : Hash} {n : Node} : NodeReachable getObject root id →
      (getObject id >>= Node.decode) = .ok n → n.right ≠ Hash.zero →
      NodeReachable getObject root n.right

theorem decode_of_stored {l r : KeyTree Bytes Hash} {k : Bytes} {v : Hash}
    (hs : Stored getObject (.node l k v r))
    (hvalid : ∀ e ∈ (KeyTree.node l k v r).toList, validKey e.1 ∧ e.2 ≠ Hash.zero) :
    (getObject (treeId (.node l k v r)) >>= Node.decode) = .ok (rootNode l k v r) := by
  have hv : (rootNode l k v r).Valid := hvalid (k, v) (by simp)
  rw [hs.1, Outcome.ok_bind, Node.decode_encode hv]

/-- A persisted tree is closed under child references. -/
theorem Persisted.decode_of_reachable {root id : Hash}
    (hs : Persisted getObject priority 256 root s) (h : NodeReachable getObject root id) :
    ∃ n, (getObject id >>= Node.decode) = .ok n := by
  -- Every reachable identity is that of a stored subtree.
  have hsub : ∃ s', treeId s' = id ∧ s' ≠ .leaf ∧ Stored getObject s' ∧
      ∀ e ∈ s'.toList, validKey e.1 ∧ e.2 ≠ Hash.zero := by
    induction h with
    | root hne =>
      refine ⟨s, hs.id_eq, ?_, hs.stored, hs.valid⟩
      rintro rfl
      exact hne hs.id_eq.symm
    | left _ hn hne ih =>
      obtain ⟨s', rfl, hleaf, hstored, hvalid⟩ := ih
      cases s' with
      | leaf => exact absurd rfl hleaf
      | node l k v r =>
        rw [decode_of_stored hstored hvalid] at hn
        cases hn
        refine ⟨l, rfl, ?_, hstored.2.1, fun e he => hvalid e (by simp [he])⟩
        rintro rfl
        exact hne rfl
    | right _ hn hne ih =>
      obtain ⟨s', rfl, hleaf, hstored, hvalid⟩ := ih
      cases s' with
      | leaf => exact absurd rfl hleaf
      | node l k v r =>
        rw [decode_of_stored hstored hvalid] at hn
        cases hn
        refine ⟨r, rfl, ?_, hstored.2.2, fun e he => hvalid e (by simp [he])⟩
        rintro rfl
        exact hne rfl
  obtain ⟨s', rfl, hleaf, hstored, hvalid⟩ := hsub
  cases s' with
  | leaf => exact absurd rfl hleaf
  | node l k v r => exact ⟨_, decode_of_stored hstored hvalid⟩

omit [Digest] in
/-- The map of an edited treap is the overridden map. -/
theorem find?_applyAll {m : StdMap Bytes Hash} (hwf : Wf priority s)
    (hm : ∀ key : Bytes, m[key]? = find? s key) (changes : TreeChanges) (key : Bytes) :
    (m.override changes)[key]? = find? (applyAll priority s changes.toList) key := by
  rw [StdMap.override, Std.ExtTreeMap.foldl_eq_foldl_toList]
  generalize changes.toList = l
  induction l generalizing m s with
  | nil => exact hm key
  | cons change l ih =>
    rw [List.foldl_cons]
    apply ih (hwf.set change.1 change.2)
    intro x
    rw [hwf.find?_set]
    cases change.2 with
    | none => rw [StdMap.getElem?_erase, hm]
    | some v => rw [StdMap.getElem?_insert, hm]

/-- The entries of a persisted tree. -/
theorem Persisted.entries {root : Hash} (hcf : CollisionFree payloads)
    (hmem : ∀ id b, getObject id = .ok b → b ∈ payloads)
    (hs : Persisted getObject priority 256 root s) :
    (new root).entries getObject priority = .ok (StdMap.emplaceAll ∅ s.toList) :=
  entries_treeId hcf hs.wf (holds_new hs.stored hmem hs.valid) hs.height hs.id_eq.symm

end Publish

end MetadataTree

end ForkFs
