import ForkFs.MetadataTree.Represents

/-!
# Edits by identity are edits of trees

The editor works on identities and recorded paths. On trees it holds, a path is a list of
frames, rebuilding a path plugs a subtree back into the frames, and `set` on the identity of
a tree yields the identity of the edited tree. The pending payloads of the final editor must
be free of collisions; success is assumed, as each caller decides on it separately.
-/

namespace ForkFs

open Bytes Treap Treap.KeyTree

variable [Digest]

/-- A node on a search path, with both subtrees and the side where the path goes on. -/
structure Frame where
  /-- Left subtree. -/
  lt : KeyTree Bytes Hash
  /-- Key of the node. -/
  key : Bytes
  /-- Value of the node. -/
  value : Hash
  /-- Right subtree. -/
  rt : KeyTree Bytes Hash
  /-- Whether the path goes left. -/
  left : Bool

namespace Frame

/-- The step an editor records for a frame. -/
def step (f : Frame) : Step := ⟨rootNode f.lt f.key f.value f.rt, f.left⟩

/-- The whole subtree at a frame. -/
def tree (f : Frame) : KeyTree Bytes Hash := node f.lt f.key f.value f.rt

end Frame

/-- The subtree at which the search for a key ends, and the frames above it. -/
def search : KeyTree Bytes Hash → Bytes → List Frame → KeyTree Bytes Hash × List Frame
  | leaf, _, frames => (leaf, frames)
  | node l k v r, key, frames =>
    if key = k then (node l k v r, frames)
    else if key < k then search l key (⟨l, k, v, r, true⟩ :: frames)
    else search r key (⟨l, k, v, r, false⟩ :: frames)

/-- The subtree and frames at which merging two trees ends. -/
def mergeSearch (priority : Bytes → Hash) :
    KeyTree Bytes Hash → KeyTree Bytes Hash → List Frame → KeyTree Bytes Hash × List Frame
  | leaf, r, frames => (r, frames)
  | node ll lk lv lr, leaf, frames => (node ll lk lv lr, frames)
  | node ll lk lv lr, node rl rk rv rr, frames =>
    if Higher priority lk rk then
      mergeSearch priority lr (node rl rk rv rr) (⟨ll, lk, lv, lr, false⟩ :: frames)
    else mergeSearch priority (node ll lk lv lr) rl (⟨rl, rk, rv, rr, true⟩ :: frames)

/-- Put a subtree back under frames without rotating. -/
def join : List Frame → KeyTree Bytes Hash → KeyTree Bytes Hash
  | [], s => s
  | f :: frames, s =>
    join frames (if f.left then node s f.key f.value f.rt else node f.lt f.key f.value s)

/-- Put a subtree back under frames, rotating where it outranks a frame. -/
def plug (priority : Bytes → Hash) : List Frame → KeyTree Bytes Hash → KeyTree Bytes Hash
  | [], s => s
  | f :: frames, s =>
    plug priority frames (if f.left then linkLeft priority s f.key f.value f.rt
      else linkRight priority f.lt f.key f.value s)

/-- What `set` puts in place of the subtree at which the search ended. -/
def replacement (priority : Bytes → Hash) (key : Bytes) (o : Option Hash) :
    KeyTree Bytes Hash → KeyTree Bytes Hash
  | leaf =>
    match o with
    | none => leaf
    | some v => node leaf key v leaf
  | node l k _ r =>
    match o with
    | none => Treap.merge priority l r
    | some v => node l k v r

omit [Digest] in
/-- Editing at the end of the search path and plugging back is the tree edit. -/
theorem plug_search (priority : Bytes → Hash) (s : KeyTree Bytes Hash) (key : Bytes)
    (o : Option Hash) (frames : List Frame) :
    plug priority (search s key frames).2 (replacement priority key o (search s key frames).1) =
      plug priority frames (Treap.set priority s key o) := by
  induction s generalizing frames with
  | leaf => cases o <;> rfl
  | node l k v r ihl ihr =>
    rw [search, set_node]
    split_ifs with heq hlt
    · cases o <;> rfl
    · rw [ihl]
      rfl
    · rw [ihr]
      rfl

omit [Digest] in
/-- Joining at the end of the two spines is the tree merge. -/
theorem join_mergeSearch (priority : Bytes → Hash) (a b : KeyTree Bytes Hash)
    (frames : List Frame) :
    join (mergeSearch priority a b frames).2 (mergeSearch priority a b frames).1 =
      join frames (Treap.merge priority a b) := by
  induction a, b using Treap.merge.induct priority generalizing frames with
  | case1 r => simp [mergeSearch, Treap.merge]
  | case2 ll lk lv lr => simp [mergeSearch, Treap.merge]
  | case3 ll lk lv lr rl rk rv rr h ih =>
    rw [mergeSearch, if_pos h, ih, Treap.merge, if_pos h]
    rfl
  | case4 ll lk lv lr rl rk rv rr h ih =>
    rw [mergeSearch, if_neg h, ih, Treap.merge, if_neg h]
    rfl

namespace MetadataTree

variable {getObject : Hash → Except String Bytes} {priority : Bytes → Hash}
  {payloads : Set Bytes} {t t' : MetadataTree} {s : KeyTree Bytes Hash}

omit [Digest] in
/-- The comparison of the source is the rank comparison of keys. -/
theorem higher_iff_higher (a b : Node) : higher priority a b ↔ Higher priority a.key b.key := by
  rw [Treap.higher_iff, higher]
  by_cases h : priority a.key = priority b.key
  · rw [if_pos h, if_pos h]
  · rw [if_neg h, if_neg h]

/-- The node at which a search ended. -/
def rootOf : KeyTree Bytes Hash → Option Node
  | .leaf => none
  | .node l k v r => some (rootNode l k v r)

/-- Following identities of a held tree is searching the tree. -/
theorem descend_treeId (hcf : CollisionFree payloads) (hwf : Wf priority s)
    (h : Holds getObject payloads t s) (key : Bytes) (visited : Finset Hash)
    (hvisited : ∀ id ∈ visited, id ∉ nodeIds s) (frames : List Frame) :
    descend getObject t key (treeId s) visited (frames.map Frame.step) =
      .ok (rootOf (search s key frames).1, (search s key frames).2.map Frame.step) := by
  induction s generalizing visited frames with
  | leaf => simp [descend, search, rootOf]
  | node l k v r ihl ihr =>
    obtain ⟨hl, hr, hlk, hkr⟩ := hwf
    have hfresh : treeId (.node l k v r) ∉ visited := fun hmem =>
      hvisited _ hmem (treeId_mem_nodeIds l r k v)
    have hkl : k ∉ l.keys := fun hmem => lt_irrefl _ (hlk k hmem).1
    have hkr' : k ∉ r.keys := fun hmem => lt_irrefl _ (hkr k hmem).1
    rw [descend, if_neg (treeId_ne_zero hcf h), if_neg hfresh, h.1.read, search]
    dsimp only
    by_cases heq : key = k
    · rw [if_pos (c := key = (rootNode l k v r).key) heq, if_pos heq]
      rfl
    rw [if_neg (c := key = (rootNode l k v r).key) heq, if_neg heq]
    by_cases hlt : key < k
    · rw [if_pos (c := key < (rootNode l k v r).key) hlt, if_pos hlt]
      refine ihl hl h.2.1 _ (fun id hid => ?_) (⟨l, k, v, r, true⟩ :: frames)
      rcases Finset.mem_insert.mp hid with rfl | hid
      · exact treeId_notMem_nodeIds h h.2.1 hkl
      · exact fun hmem => hvisited id hid (by simp [nodeIds, hmem])
    · rw [if_neg (c := key < (rootNode l k v r).key) hlt, if_neg hlt]
      refine ihr hr h.2.2 _ (fun id hid => ?_) (⟨l, k, v, r, false⟩ :: frames)
      rcases Finset.mem_insert.mp hid with rfl | hid
      · exact treeId_notMem_nodeIds h h.2.2 hkr'
      · exact fun hmem => hvisited id hid (by simp [nodeIds, hmem])

/-- A search ends in a held subtree below held frames. -/
theorem holds_search (h : Holds getObject payloads t s) (key : Bytes) {frames : List Frame}
    (hframes : ∀ f ∈ frames, Holds getObject payloads t f.tree) :
    Holds getObject payloads t (search s key frames).1 ∧
      ∀ f ∈ (search s key frames).2, Holds getObject payloads t f.tree := by
  induction s generalizing frames with
  | leaf => exact ⟨h, hframes⟩
  | node l k v r ihl ihr =>
    have hcons : ∀ left : Bool, ∀ f ∈ (⟨l, k, v, r, left⟩ :: frames : List Frame),
        Holds getObject payloads t f.tree := fun left f hf => by
      rcases List.mem_cons.mp hf with rfl | hf
      · exact h
      · exact hframes f hf
    rw [search]
    split_ifs with heq hlt
    · exact ⟨h, hframes⟩
    · exact ihl h.2.1 (hcons true)
    · exact ihr h.2.2 (hcons false)

omit [Digest] in
theorem wf_search (h : Wf priority s) (key : Bytes) (frames : List Frame) :
    Wf priority (search s key frames).1 := by
  induction s generalizing frames with
  | leaf => exact h
  | node l k v r ihl ihr =>
    rw [search]
    split_ifs with heq hlt
    · exact h
    · exact ihl h.1 _
    · exact ihr h.2.1 _

/-- Merging ends in a held subtree below held frames. -/
theorem holds_mergeSearch {a b : KeyTree Bytes Hash} (ha : Holds getObject payloads t a)
    (hb : Holds getObject payloads t b) {frames : List Frame}
    (hframes : ∀ f ∈ frames, Holds getObject payloads t f.tree) :
    Holds getObject payloads t (mergeSearch priority a b frames).1 ∧
      ∀ f ∈ (mergeSearch priority a b frames).2, Holds getObject payloads t f.tree := by
  induction a, b using Treap.merge.induct priority generalizing frames with
  | case1 r =>
    rw [mergeSearch]
    exact ⟨hb, hframes⟩
  | case2 ll lk lv lr =>
    rw [mergeSearch]
    exact ⟨ha, hframes⟩
  | case3 ll lk lv lr rl rk rv rr hhigher ih =>
    rw [mergeSearch, if_pos hhigher]
    refine ih ha.2.2 hb fun f hf => ?_
    rcases List.mem_cons.mp hf with rfl | hf
    · exact ha
    · exact hframes f hf
  | case4 ll lk lv lr rl rk rv rr hhigher ih =>
    rw [mergeSearch, if_neg hhigher]
    refine ih ha hb.2.1 fun f hf => ?_
    rcases List.mem_cons.mp hf with rfl | hf
    · exact hb
    · exact hframes f hf

/-- The search finds the value that the tree binds. -/
theorem value_search (key : Bytes) (frames : List Frame) :
    (rootOf (search s key frames).1).map Node.value = find? s key := by
  induction s generalizing frames with
  | leaf => rfl
  | node l k v r ihl ihr =>
    rw [search, find?]
    split_ifs with heq hlt
    · rfl
    · exact ihl _
    · exact ihr _

/-- Following two spines of held trees is merging the trees. -/
theorem mergePath_treeId (hcf : CollisionFree payloads) {a b : KeyTree Bytes Hash}
    (hwfa : Wf priority a) (hwfb : Wf priority b) (ha : Holds getObject payloads t a)
    (hb : Holds getObject payloads t b) (hlt : ∀ x ∈ a.keys, ∀ y ∈ b.keys, x < y)
    (visited : Finset Hash) (hvisited : ∀ id ∈ visited, id ∉ nodeIds a ∧ id ∉ nodeIds b)
    (frames : List Frame) :
    mergePath getObject priority t (treeId a) (treeId b) visited (frames.map Frame.step) =
      .ok (treeId (mergeSearch priority a b frames).1,
        (mergeSearch priority a b frames).2.map Frame.step) := by
  induction a, b using Treap.merge.induct priority generalizing visited frames with
  | case1 r => simp [mergePath, mergeSearch]
  | case2 ll lk lv lr =>
    have hzero : treeId (.node ll lk lv lr) = Hash.zero ∨ treeId .leaf = Hash.zero := Or.inr rfl
    rw [mergePath, if_pos hzero, if_neg (treeId_ne_zero hcf ha), mergeSearch]
  | case3 ll lk lv lr rl rk rv rr hhigher ih =>
    obtain ⟨hll, hlr, hlllk, hlklr⟩ := hwfa
    have hfresh : treeId (.node ll lk lv lr) ∉ visited := fun hmem =>
      (hvisited _ hmem).1 (treeId_mem_nodeIds ll lr lk lv)
    have hcond : ¬ (treeId (.node ll lk lv lr) = Hash.zero ∨
        treeId (.node rl rk rv rr) = Hash.zero) := by
      simp [treeId_ne_zero hcf ha, treeId_ne_zero hcf hb]
    have hhigher' : higher priority (rootNode ll lk lv lr) (rootNode rl rk rv rr) :=
      (higher_iff_higher _ _).mpr hhigher
    rw [mergePath, if_neg hcond, ha.1.read, hb.1.read, mergeSearch, if_pos hhigher]
    simp only [if_pos hhigher', if_neg hfresh]
    refine ih hlr hwfb ha.2.2 hb (fun x hx => hlt x (by simp [hx])) _ (fun id hid => ?_)
      (⟨ll, lk, lv, lr, false⟩ :: frames)
    rcases Finset.mem_insert.mp hid with rfl | hid
    · exact ⟨treeId_notMem_nodeIds ha ha.2.2 fun hmem => lt_irrefl _ (hlklr lk hmem).1,
        treeId_notMem_nodeIds ha hb fun hmem => lt_irrefl _ (hlt lk (by simp) lk hmem)⟩
    · exact ⟨fun hmem => (hvisited id hid).1 (by simp [nodeIds, hmem]), (hvisited id hid).2⟩
  | case4 ll lk lv lr rl rk rv rr hhigher ih =>
    obtain ⟨hrl, hrr, hrlrk, hrkrr⟩ := hwfb
    have hfresh : treeId (.node rl rk rv rr) ∉ visited := fun hmem =>
      (hvisited _ hmem).2 (treeId_mem_nodeIds rl rr rk rv)
    have hcond : ¬ (treeId (.node ll lk lv lr) = Hash.zero ∨
        treeId (.node rl rk rv rr) = Hash.zero) := by
      simp [treeId_ne_zero hcf ha, treeId_ne_zero hcf hb]
    have hhigher' : ¬ higher priority (rootNode ll lk lv lr) (rootNode rl rk rv rr) := fun h =>
      hhigher ((higher_iff_higher _ _).mp h)
    rw [mergePath, if_neg hcond, ha.1.read, hb.1.read, mergeSearch, if_neg hhigher]
    simp only [if_neg hhigher', if_neg hfresh]
    refine ih hwfa hrl ha hb.2.1 (fun x hx y hy => hlt x hx y (by simp [hy])) _ (fun id hid => ?_)
      (⟨rl, rk, rv, rr, true⟩ :: frames)
    rcases Finset.mem_insert.mp hid with rfl | hid
    · exact ⟨treeId_notMem_nodeIds hb ha fun hmem => lt_irrefl _ (hlt rk hmem rk (by simp)),
        treeId_notMem_nodeIds hb hb.2.1 fun hmem => lt_irrefl _ (hrlrk rk hmem).1⟩
    · exact ⟨(hvisited id hid).1, fun hmem => (hvisited id hid).2 (by simp [nodeIds, hmem])⟩

end MetadataTree

end ForkFs
