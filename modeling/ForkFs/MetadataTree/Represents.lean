import ForkFs.MetadataTree.Editor

/-!
# Trees behind identities

`treeId` is the identity under which a tree is stored. An editor holds a tree if each of its
nodes reads back under its identity, either from the editor's pending payloads or, with its
whole subtree, from the object store. Collisions are excluded on a set of payloads that
contains every node in question.
-/

namespace ForkFs

open Bytes Treap Treap.KeyTree

variable [Digest]

/-- The identity of a tree: the identity of its root node, zero for the empty tree. -/
def treeId : KeyTree Bytes Hash → Hash
  | leaf => Hash.zero
  | node l k v r => objectHash (Node.encode ⟨k, v, treeId l, treeId r⟩)

/-- The stored node of a tree with the given root entry and subtrees. -/
def rootNode (l : KeyTree Bytes Hash) (k : Bytes) (v : Hash) (r : KeyTree Bytes Hash) : Node :=
  ⟨k, v, treeId l, treeId r⟩

@[simp] theorem treeId_leaf : treeId leaf = Hash.zero := rfl

theorem treeId_node (l r : KeyTree Bytes Hash) (k : Bytes) (v : Hash) :
    treeId (node l k v r) = objectHash (rootNode l k v r).encode := rfl

/-- The identities of all nodes of a tree. -/
def nodeIds : KeyTree Bytes Hash → Finset Hash
  | leaf => ∅
  | node l k v r => insert (treeId (node l k v r)) (nodeIds l ∪ nodeIds r)

/-- Every node of the tree is an object of the store. -/
def Stored (getObject : Hash → Except String Bytes) : KeyTree Bytes Hash → Prop
  | leaf => True
  | node l k v r =>
    getObject (treeId (node l k v r)) = .ok (rootNode l k v r).encode ∧
      Stored getObject l ∧ Stored getObject r

namespace MetadataTree

variable (getObject : Hash → Except String Bytes) (payloads : Set Bytes)

/-- What an editor knows of one node of a tree it holds. -/
structure HoldsNode (t : MetadataTree) (l : KeyTree Bytes Hash) (k : Bytes) (v : Hash)
    (r : KeyTree Bytes Hash) : Prop where
  /-- The node reads back. -/
  read : t.node getObject (treeId (.node l k v r)) = .ok (rootNode l k v r)
  /-- Its payload is one of those without collisions. -/
  payload : (rootNode l k v r).encode ∈ payloads
  /-- It satisfies the checks of `make`. -/
  valid : (rootNode l k v r).Valid
  /-- It is pending or stored together with its subtree. -/
  backed : t.findPending (treeId (.node l k v r)) = some (rootNode l k v r).encode ∨
    Stored getObject (.node l k v r)

/-- The editor can read, and publish, every node of the tree. -/
def Holds (t : MetadataTree) : KeyTree Bytes Hash → Prop
  | .leaf => True
  | .node l k v r => HoldsNode getObject payloads t l k v r ∧ Holds t l ∧ Holds t r

/-- Everything a later editor state keeps of an earlier one. -/
structure Evolves (t t' : MetadataTree) : Prop where
  /-- Trees held before are still held. -/
  holds : ∀ s, Holds getObject payloads t s → Holds getObject payloads t' s
  /-- Pending payloads stay. -/
  pending : t.pending <+: t'.pending
  /-- Edits alone do not move the root. -/
  root : t'.root = t.root

/-- The payloads of all pending nodes. -/
def pendingPayloads (t : MetadataTree) : Set Bytes := { b | b ∈ t.pending }

variable {getObject payloads}

theorem Evolves.refl (t : MetadataTree) : Evolves getObject payloads t t :=
  ⟨fun _ h => h, List.prefix_rfl, rfl⟩

theorem Evolves.trans {t₁ t₂ t₃ : MetadataTree} (h : Evolves getObject payloads t₁ t₂)
    (h' : Evolves getObject payloads t₂ t₃) : Evolves getObject payloads t₁ t₃ :=
  ⟨fun s hs => h'.holds s (h.holds s hs), h.pending.trans h'.pending, h'.root.trans h.root⟩

omit [Digest] in
/-- Earlier pending payloads are among the later ones. -/
theorem pendingPayloads_mono {t t' : MetadataTree} (h : t.pending <+: t'.pending) :
    t.pendingPayloads ⊆ t'.pendingPayloads :=
  fun _ hb => h.subset hb

variable {t t' : MetadataTree} {s : KeyTree Bytes Hash}

/-- A held nonempty tree has a nonzero identity. -/
theorem treeId_ne_zero (hcf : CollisionFree payloads) {l r : KeyTree Bytes Hash} {k : Bytes} {v : Hash}
    (h : Holds getObject payloads t (.node l k v r)) : treeId (.node l k v r) ≠ Hash.zero :=
  hcf.ne_zero _ h.1.payload

theorem treeId_eq_zero_iff (hcf : CollisionFree payloads) (h : Holds getObject payloads t s) :
    treeId s = Hash.zero ↔ s = .leaf := by
  cases s with
  | leaf => simp
  | node l k v r => simp [treeId_ne_zero hcf h]

/-- The node read under an identity of a held tree carries a key of the tree. -/
theorem key_of_mem_nodeIds (h : Holds getObject payloads t s) {id : Hash} (hid : id ∈ nodeIds s) :
    ∃ n, t.node getObject id = .ok n ∧ n.key ∈ s.keys := by
  induction s with
  | leaf => simp [nodeIds] at hid
  | node l k v r ihl ihr =>
    simp only [nodeIds, Finset.mem_insert, Finset.mem_union] at hid
    rcases hid with rfl | hid | hid
    · exact ⟨_, h.1.read, by simp [rootNode]⟩
    · obtain ⟨n, hn, hkey⟩ := ihl h.2.1 hid
      exact ⟨n, hn, by simp [hkey]⟩
    · obtain ⟨n, hn, hkey⟩ := ihr h.2.2 hid
      exact ⟨n, hn, by simp [hkey]⟩

/-- Held trees without a common key share no node. -/
theorem disjoint_nodeIds {s₁ s₂ : KeyTree Bytes Hash} (h₁ : Holds getObject payloads t s₁)
    (h₂ : Holds getObject payloads t s₂) (hkeys : ∀ k ∈ s₁.keys, k ∉ s₂.keys) :
    ∀ id ∈ nodeIds s₁, id ∉ nodeIds s₂ := by
  intro id hid₁ hid₂
  obtain ⟨n, hn, hkey⟩ := key_of_mem_nodeIds h₁ hid₁
  obtain ⟨n', hn', hkey'⟩ := key_of_mem_nodeIds h₂ hid₂
  rw [hn] at hn'
  cases hn'
  exact hkeys _ hkey hkey'

theorem treeId_mem_nodeIds (l r : KeyTree Bytes Hash) (k : Bytes) (v : Hash) :
    treeId (.node l k v r) ∈ nodeIds (.node l k v r) :=
  Finset.mem_insert_self _ _

/-- The root of a held tree is not a node of a held tree without its key. -/
theorem treeId_notMem_nodeIds {l r s₂ : KeyTree Bytes Hash} {k : Bytes} {v : Hash}
    (h : Holds getObject payloads t (.node l k v r)) (h₂ : Holds getObject payloads t s₂)
    (hkey : k ∉ s₂.keys) : treeId (.node l k v r) ∉ nodeIds s₂ := by
  intro hid
  obtain ⟨n, hn, hmem⟩ := key_of_mem_nodeIds h₂ hid
  rw [h.1.read] at hn
  cases hn
  exact hkey hmem

/-- Held trees with one identity are the same tree. -/
theorem treeId_inj (hcf : CollisionFree payloads) {s₁ s₂ : KeyTree Bytes Hash}
    (h₁ : Holds getObject payloads t s₁) (h₂ : Holds getObject payloads t s₂)
    (h : treeId s₁ = treeId s₂) : s₁ = s₂ := by
  induction s₁ generalizing s₂ with
  | leaf => exact ((treeId_eq_zero_iff hcf h₂).mp h.symm).symm
  | node l k v r ihl ihr =>
    cases s₂ with
    | leaf => exact absurd h (treeId_ne_zero hcf h₁)
    | node l' k' v' r' =>
      have hread := h₁.1.read
      rw [h, h₂.1.read] at hread
      simp only [Except.ok.injEq, rootNode, Node.mk.injEq] at hread
      obtain ⟨rfl, rfl, hl, hr⟩ := hread
      rw [ihl h₁.2.1 h₂.2.1 hl.symm, ihr h₁.2.2 h₂.2.2 hr.symm]

/-- A fresh editor holds every stored tree. -/
theorem holds_new {root : Hash} (hstored : Stored getObject s)
    (hmem : ∀ id b, getObject id = .ok b → b ∈ payloads)
    (hvalid : ∀ e ∈ s.toList, validKey e.1 ∧ e.2 ≠ Hash.zero) :
    Holds getObject payloads (new root) s := by
  induction s with
  | leaf => trivial
  | node l k v r ihl ihr =>
    have hv : (rootNode l k v r).Valid := hvalid (k, v) (by simp)
    refine ⟨⟨?_, hmem _ _ hstored.1, hv, Or.inr hstored⟩,
      ihl hstored.2.1 fun e he => hvalid e (by simp [he]),
      ihr hstored.2.2 fun e he => hvalid e (by simp [he])⟩
    simp only [MetadataTree.node, new, Std.ExtTreeMap.getElem?_empty, hstored.1, Outcome.ok_bind]
    exact Node.decode_encode hv

/-- A held tree has valid entries. -/
theorem Holds.valid (h : Holds getObject payloads t s) {e : Bytes × Hash} (he : e ∈ s.toList) :
    validKey e.1 ∧ e.2 ≠ Hash.zero := by
  induction s with
  | leaf => simp at he
  | node l k v r ihl ihr =>
    rcases List.mem_append.mp he with he | he
    · exact ihl h.2.1 he
    · rcases List.mem_cons.mp he with rfl | he
      · exact h.1.valid
      · exact ihr h.2.2 he

end MetadataTree

end ForkFs
