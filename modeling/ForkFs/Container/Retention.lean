import ForkFs.Container.Closure

/-!
# What the roots lead to

The references of a repository as the reading code decodes them: revisions name a manifest and
their parent, a manifest names the root of its tree, and a node names its children and its value.
In a closed store everything that is reached from heads, revisions and bases is stored.
-/

namespace ForkFs

open Bytes Treap Treap.KeyTree Outcome

variable [Digest] {payloads : Set Bytes} {s : LevelStore} {id id' : Hash}

/-- What an object is read as. -/
inductive Link
  /-- A revision record. -/
  | revision
  /-- The manifest of a version. -/
  | manifest
  /-- A node of a metadata tree. -/
  | node
  /-- The value of an entry. -/
  | value
deriving DecidableEq

/-- The references that are decoded from an object. -/
inductive Child (s : LevelStore) : Link → Hash → Link → Hash → Prop
  /-- The manifest of a revision. -/
  | manifest {id manifest : Hash} {b : Bytes} (hobject : s.objects.object id = .ok b)
      (hmanifest : NamespaceView.descriptorManifest b = .ok manifest) :
      Child s .revision id .manifest manifest
  /-- The revision before. -/
  | parent {id : Hash} {b : Bytes} (hobject : s.objects.object id = .ok b)
      (hrecord : b.length = 80 ∧ slice b 0 8 = NamespaceView.revisionMagic)
      (hparent : Hash.ofBytes (slice b 40 32) ≠ Hash.zero) :
      Child s .revision id .revision (Hash.ofBytes (slice b 40 32))
  /-- The tree of a manifest. -/
  | tree {id root : Hash} (hroot : NamespaceView.readManifest s.catalog id = .ok (.tree root)) :
      Child s .manifest id .node root
  /-- The left child of a node. -/
  | left {id : Hash} {n : Node} (hnode : (s.objects.object id >>= Node.decode) = .ok n)
      (hleft : n.left ≠ Hash.zero) : Child s .node id .node n.left
  /-- The right child of a node. -/
  | right {id : Hash} {n : Node} (hnode : (s.objects.object id >>= Node.decode) = .ok n)
      (hright : n.right ≠ Hash.zero) : Child s .node id .node n.right
  /-- The value of a node. -/
  | value {id : Hash} {n : Node} (hnode : (s.objects.object id >>= Node.decode) = .ok n) :
      Child s .node id .value n.value

/-- The references that are decoded from a root. -/
inductive Start (s : LevelStore) : Bytes → Link → Hash → Prop
  /-- The head of a World. -/
  | world {name : Bytes} {id : Hash} (hroot : s.roots[(RootName.world name).key]? = some id) :
      Start s (RootName.world name).key .manifest id
  /-- A revision. -/
  | revision {name : Bytes} {id : Hash} (hroot : s.roots[(RootName.revision name).key]? = some id) :
      Start s (RootName.revision name).key .revision id
  /-- The revision that a base names. -/
  | base {name : Bytes} {id : Hash} {b : Bytes}
      (hroot : s.roots[(RootName.base name).key]? = some id) (hobject : s.objects.object id = .ok b)
      (hlength : b.length = 32) : Start s (RootName.base name).key .revision (Hash.ofBytes b)

/-- What is reached from heads, revisions and bases. -/
inductive Reached (s : LevelStore) : Link → Hash → Prop
  /-- A root. -/
  | start {key : Bytes} {link : Link} {id : Hash} (h : Start s key link id) : Reached s link id
  /-- A reference. -/
  | child {link link' : Link} {id id' : Hash} (h : Reached s link id)
      (hchild : Child s link id link' id') : Reached s link' id'

section Sound

/-- A tree whose nodes and values are stored. -/
structure StoredTree (objects : ObjectStore) (t : KeyTree Bytes Hash) : Prop where
  /-- The nodes are objects. -/
  nodes : Stored objects.object t
  /-- The entries pass the checks of a node. -/
  valid : ∀ e ∈ t.toList, validKey e.1 ∧ e.2 ≠ Hash.zero
  /-- The values are objects. -/
  values : ∀ e ∈ t.toList, ∃ b, objects.object e.2 = .ok b

/-- An object that is stored with everything it leads to. -/
def Link.Sound (objects : ObjectStore) (id : Hash) : Link → Prop
  | .revision => Lineage objects id
  | .manifest => ∃ m, Version objects id m
  | .node => ∃ t, t ≠ .leaf ∧ treeId t = id ∧ StoredTree objects t
  | .value => ∃ b, objects.object id = .ok b

variable {objects : ObjectStore} {link link' : Link}

theorem HoldsVersion.storedTree {root : Hash} {t : KeyTree Bytes Hash}
    (h : HoldsVersion objects id root t) : StoredTree objects t :=
  ⟨h.tree.stored, h.tree.valid, h.values⟩

theorem StoredTree.left {l r : KeyTree Bytes Hash} {k : Bytes} {v : Hash}
    (h : StoredTree objects (.node l k v r)) : StoredTree objects l :=
  ⟨h.nodes.2.1, fun e he => h.valid e (by simp [he]), fun e he => h.values e (by simp [he])⟩

theorem StoredTree.right {l r : KeyTree Bytes Hash} {k : Bytes} {v : Hash}
    (h : StoredTree objects (.node l k v r)) : StoredTree objects r :=
  ⟨h.nodes.2.2, fun e he => h.valid e (by simp [he]), fun e he => h.values e (by simp [he])⟩

theorem Link.Sound.readable (h : link.Sound objects id) : ∃ b, objects.object id = .ok b := by
  cases link with
  | revision =>
    obtain ⟨manifest, parent, sequence, hobject, -⟩ := Lineage.record h
    exact ⟨_, hobject⟩
  | manifest =>
    obtain ⟨m, root, t, ht, -⟩ := h
    exact ⟨_, ht.manifest⟩
  | node =>
    obtain ⟨t, hleaf, rfl, ht⟩ := h
    cases t with
    | leaf => exact absurd rfl hleaf
    | node l k v r => exact ⟨_, ht.nodes.1⟩
  | value => exact h

/-- What a sound object names is sound. -/
theorem Link.Sound.child (h : link.Sound s.objects id) (hchild : Child s link id link' id') :
    link'.Sound s.objects id' := by
  cases hchild with
  | manifest hobject hmanifest =>
    obtain ⟨manifest, parent, sequence, hobject', hversion⟩ := Lineage.record h
    rw [hobject] at hobject'
    cases hobject'
    rw [descriptorManifest_descriptor] at hmanifest
    cases hmanifest
    exact hversion
  | parent hobject hrecord hparent =>
    cases h with
    | first hobject' =>
      rw [hobject] at hobject'
      cases hobject'
      exact absurd (slice_descriptor_parent _ _ _) hparent
    | next hobject' hversion hlineage =>
      rw [hobject] at hobject'
      cases hobject'
      rw [slice_descriptor_parent]
      exact hlineage
  | tree hroot =>
    obtain ⟨m, root, t, ht, -⟩ := h
    rw [ht.readManifest] at hroot
    cases hroot
    refine ⟨t, ?_, ht.tree.id_eq, ht.storedTree⟩
    rintro rfl
    simpa using ht.named
  | left hnode hleft =>
    obtain ⟨t, hleaf, rfl, ht⟩ := h
    cases t with
    | leaf => exact absurd rfl hleaf
    | node l k v r =>
      rw [MetadataTree.decode_of_stored ht.nodes ht.valid] at hnode
      cases hnode
      refine ⟨l, ?_, rfl, ht.left⟩
      rintro rfl
      exact hleft rfl
  | right hnode hright =>
    obtain ⟨t, hleaf, rfl, ht⟩ := h
    cases t with
    | leaf => exact absurd rfl hleaf
    | node l k v r =>
      rw [MetadataTree.decode_of_stored ht.nodes ht.valid] at hnode
      cases hnode
      refine ⟨r, ?_, rfl, ht.right⟩
      rintro rfl
      exact hright rfl
  | value hnode =>
    obtain ⟨t, hleaf, rfl, ht⟩ := h
    cases t with
    | leaf => exact absurd rfl hleaf
    | node l k v r =>
      rw [MetadataTree.decode_of_stored ht.nodes ht.valid] at hnode
      cases hnode
      exact ht.values (k, v) (by simp)

theorem Start.sound {key : Bytes} (h : Start s key link id) (hs : s.Closed) :
    link.Sound s.objects id := by
  cases h with
  | world hroot => exact hs.leads (.world _) _ hroot
  | revision hroot => exact hs.leads (.revision _) _ hroot
  | @base name id b hroot hobject hlength =>
    obtain ⟨parent, hobject', hlineage⟩ := hs.leads (.base name) id hroot
    rw [hobject] at hobject'
    rw [Except.ok.inj hobject', Hash.ofBytes_val]
    exact hlineage

/-- Everything that is reached in a closed store is stored. -/
theorem Reached.sound (h : Reached s link id) (hs : s.Closed) : link.Sound s.objects id := by
  induction h with
  | start h => exact h.sound hs
  | child _ hchild ih => exact ih.child hchild

end Sound

end ForkFs
