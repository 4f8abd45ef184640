import ForkFs.MetadataTree.Edits

/-!
# Reading a held tree

Reads through identities agree with the tree as long as its height is within their fuel. A
tree that `entries` accepts is a stored treap, and a stored treap within the depth limit is
accepted.
-/

namespace ForkFs

open Bytes Treap Treap.KeyTree

namespace MetadataTree

variable [Digest] {getObject : Hash → Except String Bytes} {priority : Bytes → Hash}
  {payloads : Set Bytes} {t : MetadataTree} {s : KeyTree Bytes Hash}

/-- Search by identity is search in the tree. -/
theorem lookupFrom_treeId (hcf : CollisionFree payloads) (hs : Holds getObject payloads t s)
    (key : Bytes) {fuel : ℕ} (hfuel : s.height ≤ fuel) :
    lookupFrom getObject t key fuel (treeId s) = .ok (find? s key) := by
  induction s generalizing fuel with
  | leaf =>
    rw [lookupFrom.eq_def, if_pos treeId_leaf]
    rfl
  | node l k v r ihl ihr =>
    rw [KeyTree.height] at hfuel
    obtain ⟨fuel, rfl⟩ : ∃ n, fuel = n + 1 := ⟨fuel - 1, by omega⟩
    rw [lookupFrom, if_neg (treeId_ne_zero hcf hs), find?, hs.1.read, Outcome.ok_bind]
    by_cases heq : key = k
    · rw [if_pos (c := key = (rootNode l k v r).key) heq, if_pos heq]
      rfl
    rw [if_neg (c := key = (rootNode l k v r).key) heq, if_neg heq]
    by_cases hlt : key < k
    · rw [if_pos (c := key < (rootNode l k v r).key) hlt, if_pos hlt]
      exact ihl hs.2.1 (by omega)
    · rw [if_neg (c := key < (rootNode l k v r).key) hlt, if_neg hlt]
      exact ihr hs.2.2 (by omega)

theorem lookup_treeId (hcf : CollisionFree payloads) (hs : Holds getObject payloads t s)
    (hheight : s.height ≤ 256) (hroot : t.root = treeId s) (key : Bytes) :
    t.lookup getObject key = .ok (find? s key) := by
  rw [lookup, hroot, lookupFrom_treeId hcf hs key hheight]

/-- The height check passes exactly for trees within the fuel. -/
theorem heightFrom_treeId (hcf : CollisionFree payloads) (hs : Holds getObject payloads t s)
    (fuel : ℕ) :
    heightFrom getObject t fuel (treeId s) =
      if s.height ≤ fuel then .ok s.height else .error "metadata tree depth limit" := by
  induction s generalizing fuel with
  | leaf =>
    rw [heightFrom.eq_def, if_pos treeId_leaf]
    rfl
  | node l k v r ihl ihr =>
    rw [heightFrom.eq_def, if_neg (treeId_ne_zero hcf hs)]
    cases fuel with
    | zero =>
      rw [if_neg (by rw [KeyTree.height]; omega)]
    | succ fuel =>
      dsimp only
      rw [hs.1.read, Outcome.ok_bind]
      change (heightFrom getObject t fuel (treeId l) >>= fun left =>
        heightFrom getObject t fuel (treeId r) >>= fun right => pure (1 + max left right)) = _
      rw [ihl hs.2.1, ihr hs.2.2, KeyTree.height]
      by_cases hl : l.height ≤ fuel
      · rw [if_pos hl, Outcome.ok_bind]
        by_cases hr : r.height ≤ fuel
        · rw [if_pos hr, Outcome.ok_bind, if_pos (by omega)]
          rfl
        · rw [if_neg hr, Outcome.error_bind, if_neg (by omega)]
      · rw [if_neg hl, Outcome.error_bind, if_neg (by omega)]

/-- The pending payloads of a tree in the order in which `collect` finds them. -/
def pendingObjects (t : MetadataTree) : KeyTree Bytes Hash → List Bytes
  | .leaf => []
  | .node l k v r =>
    match t.findPending (treeId (.node l k v r)) with
    | none => []
    | some payload => pendingObjects t l ++ pendingObjects t r ++ [payload]

/-- The identities that `collect` visits in a tree. -/
def pendingIds (t : MetadataTree) : KeyTree Bytes Hash → Finset Hash
  | .leaf => ∅
  | .node l k v r =>
    match t.findPending (treeId (.node l k v r)) with
    | none => ∅
    | some _ => insert (treeId (.node l k v r)) (pendingIds t l ∪ pendingIds t r)

theorem pendingIds_subset (t : MetadataTree) (s : KeyTree Bytes Hash) :
    pendingIds t s ⊆ nodeIds s := by
  induction s with
  | leaf => simp [pendingIds]
  | node l k v r ihl ihr =>
    rw [pendingIds, nodeIds]
    split
    · simp
    · exact Finset.insert_subset_insert _ (Finset.union_subset_union ihl ihr)

section Fresh

variable {l r : KeyTree Bytes Hash} {k : Bytes} {v : Hash} {visited : Finset Hash}

/-- A walk that enters a tree for the first time has seen nothing of its left subtree. -/
theorem fresh_left (hwf : Wf priority (.node l k v r))
    (hs : Holds getObject payloads t (.node l k v r))
    (hvisited : ∀ id ∈ visited, id ∉ nodeIds (.node l k v r)) :
    ∀ id ∈ insert (treeId (.node l k v r)) visited, id ∉ nodeIds l := by
  intro id hid
  rcases Finset.mem_insert.mp hid with rfl | hid
  · exact treeId_notMem_nodeIds hs hs.2.1 fun hmem => lt_irrefl _ (hwf.2.2.1 k hmem).1
  · exact fun hmem => hvisited id hid (by simp [nodeIds, hmem])

/-- After the left subtree it has seen nothing of the right one. -/
theorem fresh_right (hwf : Wf priority (.node l k v r))
    (hs : Holds getObject payloads t (.node l k v r))
    (hvisited : ∀ id ∈ visited, id ∉ nodeIds (.node l k v r)) {found : Finset Hash}
    (hfound : found ⊆ nodeIds l) :
    ∀ id ∈ insert (treeId (.node l k v r)) visited ∪ found, id ∉ nodeIds r := by
  obtain ⟨-, -, hlk, hkr⟩ := hwf
  intro id hid
  rcases Finset.mem_union.mp hid with hid | hid
  · rcases Finset.mem_insert.mp hid with rfl | hid
    · exact treeId_notMem_nodeIds hs hs.2.2 fun hmem => lt_irrefl _ (hkr k hmem).1
    · exact fun hmem => hvisited id hid (by simp [nodeIds, hmem])
  · exact disjoint_nodeIds hs.2.1 hs.2.2
      (fun x hx hx' => lt_asymm (hlk x hx).1 (hkr x hx').1) id (hfound hid)

end Fresh

/-- `collect` finds the pending payloads of a held tree. -/
theorem collect_treeId (hcf : CollisionFree payloads) (hwf : Wf priority s)
    (hs : Holds getObject payloads t s) (hpay : t.pendingPayloads ⊆ payloads) {fuel : ℕ}
    (hfuel : s.height < fuel) (visited : Finset Hash) (objects : List Bytes)
    (hvisited : ∀ id ∈ visited, id ∉ nodeIds s) :
    collect getObject t fuel (treeId s) (visited, objects) =
      .ok (visited ∪ pendingIds t s, objects ++ pendingObjects t s) := by
  induction s generalizing fuel visited objects with
  | leaf =>
    obtain ⟨fuel, rfl⟩ : ∃ n, fuel = n + 1 := ⟨fuel - 1, by omega⟩
    have hnone : t.findPending Hash.zero = none := by
      rw [findPending, List.find?_eq_none]
      intro b hb hzero
      exact hcf.ne_zero b (hpay hb) (by simpa using hzero)
    rw [collect, treeId_leaf, hnone]
    simp [pendingIds, pendingObjects]
  | node l k v r ihl ihr =>
    rw [KeyTree.height] at hfuel
    obtain ⟨fuel, rfl⟩ : ∃ n, fuel = n + 1 := ⟨fuel - 1, by omega⟩
    have hfresh : treeId (.node l k v r) ∉ visited := fun hmem =>
      hvisited _ hmem (treeId_mem_nodeIds l r k v)
    rw [collect, pendingIds, pendingObjects]
    cases hfind : t.findPending (treeId (.node l k v r)) with
    | none => simp
    | some payload =>
      dsimp only
      rw [if_neg hfresh, hs.1.read, Outcome.ok_bind]
      change (collect getObject t fuel (treeId l) _ >>= fun found =>
        collect getObject t fuel (treeId r) found >>= fun found =>
          pure (found.1, found.2 ++ [payload])) = _
      rw [ihl hwf.1 hs.2.1 (by omega) _ _ (fresh_left hwf hs hvisited), Outcome.ok_bind,
        ihr hwf.2.1 hs.2.2 (by omega) _ _ (fresh_right hwf hs hvisited (pendingIds_subset t l)),
        Outcome.ok_bind]
      have hunion : insert (treeId (.node l k v r)) visited ∪ pendingIds t l ∪ pendingIds t r =
          visited ∪ insert (treeId (.node l k v r)) (pendingIds t l ∪ pendingIds t r) := by
        rw [Finset.union_insert, Finset.insert_union, Finset.insert_union, Finset.union_assoc]
      simp only [hunion, List.append_assoc]
      rfl

/-- A held subtree passes the heap check below a node that ranks above its keys. -/
theorem checkChild_treeId (hcf : CollisionFree payloads) {n : Node}
    (hs : Holds getObject payloads t s) (hheap : ∀ k ∈ s.keys, Higher priority n.key k) :
    checkChild getObject priority t n (treeId s) = .ok () := by
  cases s with
  | leaf => exact if_pos treeId_leaf
  | node l k v r =>
    have hnot : ¬ higher priority (rootNode l k v r) n := fun hhigher =>
      (hheap k (by simp)).asymm ((higher_iff_higher _ _).mp hhigher)
    rw [checkChild, if_neg (treeId_ne_zero hcf hs), hs.1.read, Outcome.ok_bind, need_of hnot]

/-- `entries` accepts a held treap within its bounds and collects its entries in order. -/
theorem entriesFrom_treeId (hcf : CollisionFree payloads) (hwf : Wf priority s)
    (hs : Holds getObject payloads t s) {fuel : ℕ} (hfuel : s.height ≤ fuel)
    {lo hi : Option Bytes} (hlo : ∀ bound ∈ lo, ∀ k ∈ s.keys, bound < k)
    (hhi : ∀ bound ∈ hi, ∀ k ∈ s.keys, k < bound) (visited : Finset Hash)
    (result : StdMap Bytes Hash) (hvisited : ∀ id ∈ visited, id ∉ nodeIds s) :
    entriesFrom getObject priority t fuel (treeId s) lo hi visited result =
      .ok (visited ∪ nodeIds s, result.emplaceAll s.toList) := by
  induction s generalizing fuel lo hi visited result with
  | leaf =>
    rw [entriesFrom.eq_def, if_pos treeId_leaf]
    simp [nodeIds, StdMap.emplaceAll]
  | node l k v r ihl ihr =>
    rw [KeyTree.height] at hfuel
    obtain ⟨fuel, rfl⟩ : ∃ n, fuel = n + 1 := ⟨fuel - 1, by omega⟩
    obtain ⟨-, -, hlk, hkr⟩ := id hwf
    have hfresh : treeId (.node l k v r) ∉ visited := fun hmem =>
      hvisited _ hmem (treeId_mem_nodeIds l r k v)
    have hbounds : (∀ bound ∈ lo, bound < (rootNode l k v r).key) ∧
        ∀ bound ∈ hi, (rootNode l k v r).key < bound :=
      ⟨fun bound hb => hlo bound hb k (by simp), fun bound hb => hhi bound hb k (by simp)⟩
    rw [entriesFrom, if_neg (treeId_ne_zero hcf hs), need_of hfresh, Outcome.ok_bind, hs.1.read,
      Outcome.ok_bind, need_of hbounds, Outcome.ok_bind]
    change (checkChild getObject priority t (rootNode l k v r) (treeId l) >>= fun _ =>
      checkChild getObject priority t (rootNode l k v r) (treeId r) >>= fun _ =>
        entriesFrom getObject priority t fuel (treeId l) lo (some k) _ result >>= fun found =>
          entriesFrom getObject priority t fuel (treeId r) (some k) hi found.1
            (found.2.insertIfNew k v)) = _
    rw [checkChild_treeId hcf hs.2.1 fun x hx => (hlk x hx).2, Outcome.ok_bind,
      checkChild_treeId hcf hs.2.2 fun x hx => (hkr x hx).2, Outcome.ok_bind,
      ihl hwf.1 hs.2.1 (by omega) (fun bound hb x hx => hlo bound hb x (by simp [hx]))
        (by simpa using fun x hx => (hlk x hx).1) _ _ (fresh_left hwf hs hvisited),
      Outcome.ok_bind,
      ihr hwf.2.1 hs.2.2 (by omega) (by simpa using fun x hx => (hkr x hx).1)
        (fun bound hb x hx => hhi bound hb x (by simp [hx])) _ _
        (fresh_right hwf hs hvisited subset_rfl)]
    have hunion : insert (treeId (.node l k v r)) visited ∪ nodeIds l ∪ nodeIds r =
        visited ∪ nodeIds (.node l k v r) := by
      rw [nodeIds, Finset.union_insert, Finset.insert_union, Finset.insert_union,
        Finset.union_assoc]
    rw [hunion, KeyTree.toList, StdMap.emplaceAll_append]
    rfl

/-- A whole held treap within the depth limit. -/
theorem entries_treeId (hcf : CollisionFree payloads) (hwf : Wf priority s)
    (hs : Holds getObject payloads t s) (hheight : s.height ≤ 256) (hroot : t.root = treeId s) :
    t.entries getObject priority = .ok (StdMap.emplaceAll ∅ s.toList) := by
  rw [entries, hroot, entriesFrom_treeId hcf hwf hs hheight (by simp) (by simp) _ _ (by simp)]
  rfl

omit [Digest] in
/-- Emplacing the entries of a treap gives its finite map. -/
theorem getElem?_emplaceAll_toList (hwf : Wf priority s) (key : Bytes) :
    (StdMap.emplaceAll ∅ s.toList)[key]? = find? s key := by
  apply Option.ext
  intro v
  rw [StdMap.getElem?_emplaceAll hwf.sorted (by simp), find?_eq_some_iff hwf]
  simp

section Accepted

variable {root : Hash} {id : Hash}

/-- Objects are read under their own identity only, as `get_object` checks. -/
def Checked (getObject : Hash → Except String Bytes) : Prop :=
  ∀ id b, getObject id = .ok b → objectHash b = id

/-- A node read by a fresh editor is valid and stored under its identity. -/
theorem node_new (hchecked : Checked getObject) {n : Node}
    (h : (new root).node getObject id = .ok n) :
    getObject id = .ok n.encode ∧ objectHash n.encode = id ∧ n.Valid := by
  simp only [MetadataTree.node, new, Std.ExtTreeMap.getElem?_empty] at h
  obtain ⟨b, hget, hdecode⟩ := Outcome.bind_eq_ok.mp h
  obtain ⟨rfl, hvalid⟩ := Node.encode_of_decode hdecode
  exact ⟨hget, hchecked _ _ hget, hvalid⟩

/-- A stored treap of valid entries under an identity, at most `limit` nodes high. -/
structure Persisted (getObject : Hash → Except String Bytes) (priority : Bytes → Hash) (limit : ℕ)
    (id : Hash) (s : KeyTree Bytes Hash) : Prop where
  /-- The identity is that of the tree. -/
  id_eq : treeId s = id
  /-- The zero identity stands for the empty tree. -/
  empty : id = Hash.zero → s = .leaf
  /-- All nodes are objects. -/
  stored : Stored getObject s
  /-- Keys are ordered and priorities form a heap. -/
  wf : Wf priority s
  /-- The tree is within the depth limit. -/
  height : s.height ≤ limit
  /-- Keys and values pass the checks of a node. -/
  valid : ∀ e ∈ s.toList, validKey e.1 ∧ e.2 ≠ Hash.zero

theorem persisted_leaf (limit : ℕ) : Persisted getObject priority limit Hash.zero .leaf :=
  ⟨rfl, fun _ => rfl, trivial, trivial, Nat.zero_le _, by simp⟩

/-- A persisted tree whose root passes the heap check lies below the checked node. -/
theorem Persisted.higher (hchecked : Checked getObject) {limit : ℕ} {n : Node}
    (hs : Persisted getObject priority limit id s) (hne : ∀ k ∈ s.keys, k ≠ n.key)
    (h : checkChild getObject priority (new root) n id = .ok ()) :
    ∀ k ∈ s.keys, Higher priority n.key k := by
  cases s with
  | leaf => simp
  | node l k v r =>
    rw [checkChild, if_neg fun hid => by simpa using hs.empty hid] at h
    obtain ⟨child, hread, hcheck⟩ := Outcome.bind_eq_ok.mp h
    obtain ⟨hget, -, hchild⟩ := node_new hchecked hread
    have hvalid : (rootNode l k v r).Valid := hs.valid (k, v) (by simp)
    have hstored := hs.stored.1
    rw [hs.id_eq, hget] at hstored
    obtain rfl := Node.encode_inj hvalid hchild (Except.ok.inj hstored).symm
    have hroot : Higher priority n.key k := by
      apply higher_of_not_higher
      · exact hne k (by simp)
      · exact fun hhigher => need_eq_ok.mp hcheck ((higher_iff_higher _ _).mpr hhigher)
    intro x hx
    rw [mem_keys_node] at hx
    rcases hx with hx | rfl | hx
    · exact hroot.trans (hs.wf.2.2.1 x hx).2
    · exact hroot
    · exact hroot.trans (hs.wf.2.2.2 x hx).2

/-- Persisted subtrees below a stored node that passes the checks of `entries`. -/
theorem Persisted.node {limit : ℕ} {l r : KeyTree Bytes Hash} {n : Node}
    (hl : Persisted getObject priority limit n.left l)
    (hr : Persisted getObject priority limit n.right r)
    (hget : getObject id = .ok n.encode) (hhash : objectHash n.encode = id) (hvalid : n.Valid)
    (hzero : id ≠ Hash.zero) (hlt : ∀ k ∈ l.keys, k < n.key ∧ Higher priority n.key k)
    (hgt : ∀ k ∈ r.keys, n.key < k ∧ Higher priority n.key k) :
    Persisted getObject priority (limit + 1) id (.node l n.key n.value r) := by
  have hnode : rootNode l n.key n.value r = n := by
    rw [rootNode, hl.id_eq, hr.id_eq]
  have htree : treeId (.node l n.key n.value r) = id := by
    rw [treeId_node, hnode, hhash]
  refine ⟨htree, fun hz => absurd hz hzero, ⟨by rw [htree, hnode, hget], hl.stored, hr.stored⟩,
    ⟨hl.wf, hr.wf, hlt, hgt⟩, ?_, fun e he => ?_⟩
  · have := hl.height
    have := hr.height
    rw [KeyTree.height]
    omega
  · rcases List.mem_append.mp he with he | he
    · exact hl.valid e he
    · rcases List.mem_cons.mp he with rfl | he
      · exact hvalid
      · exact hr.valid e he

/-- A subtree that `entries` accepts is persisted and lies within its bounds. -/
theorem persisted_of_entriesFrom (hchecked : Checked getObject) {fuel : ℕ} {lo hi : Option Bytes}
    {visited visited' : Finset Hash} {result result' : StdMap Bytes Hash}
    (h : entriesFrom getObject priority (new root) fuel id lo hi visited result =
      .ok (visited', result')) :
    ∃ s, Persisted getObject priority fuel id s ∧
      (∀ k ∈ s.keys, (∀ bound ∈ lo, bound < k) ∧ ∀ bound ∈ hi, k < bound) ∧
      result' = result.emplaceAll s.toList := by
  induction fuel generalizing id lo hi visited visited' result result' with
  | zero =>
    rw [entriesFrom.eq_def] at h
    split at h
    · rename_i hid
      subst hid
      simp only [Except.ok.injEq, Prod.mk.injEq] at h
      exact ⟨.leaf, persisted_leaf _, by simp, h.2.symm⟩
    · cases h
  | succ fuel ih =>
    rw [entriesFrom.eq_def] at h
    split at h
    · rename_i hid
      subst hid
      simp only [Except.ok.injEq, Prod.mk.injEq] at h
      exact ⟨.leaf, persisted_leaf _, by simp, h.2.symm⟩
    · rename_i hid
      obtain ⟨-, h⟩ := need_bind_eq_ok.mp h
      obtain ⟨n, hread, h⟩ := Outcome.bind_eq_ok.mp h
      obtain ⟨hbounds, h⟩ := need_bind_eq_ok.mp h
      obtain ⟨⟨⟩, hleft, h⟩ := Outcome.bind_eq_ok.mp h
      obtain ⟨⟨⟩, hright, h⟩ := Outcome.bind_eq_ok.mp h
      obtain ⟨⟨visited₁, result₁⟩, h₁, h₂⟩ := Outcome.bind_eq_ok.mp h
      obtain ⟨l, hl, hbl, rfl⟩ := ih h₁
      obtain ⟨r, hr, hbr, rfl⟩ := ih h₂
      obtain ⟨hget, hhash, hvalid⟩ := node_new hchecked hread
      have hlt : ∀ k ∈ l.keys, k < n.key := fun k hk => (hbl k hk).2 _ rfl
      have hgt : ∀ k ∈ r.keys, n.key < k := fun k hk => (hbr k hk).1 _ rfl
      have hheapl := hl.higher hchecked (fun k hk => (hlt k hk).ne) hleft
      have hheapr := hr.higher hchecked (fun k hk => (hgt k hk).ne') hright
      refine ⟨.node l n.key n.value r,
        hl.node hr hget hhash hvalid hid (fun k hk => ⟨hlt k hk, hheapl k hk⟩)
          (fun k hk => ⟨hgt k hk, hheapr k hk⟩), fun k hk => ?_, ?_⟩
      · rw [mem_keys_node] at hk
        rcases hk with hk | rfl | hk
        · exact ⟨(hbl k hk).1, fun bound hb => (hlt k hk).trans (hbounds.2 bound hb)⟩
        · exact hbounds
        · exact ⟨fun bound hb => (hbounds.1 bound hb).trans (hgt k hk), (hbr k hk).2⟩
      · rw [KeyTree.toList, StdMap.emplaceAll_append]
        rfl

/-- A root whose entries can be read is a persisted tree with these entries. -/
theorem persisted_of_entries (hchecked : Checked getObject) {entries : StdMap Bytes Hash}
    (h : (new root).entries getObject priority = .ok entries) :
    ∃ s, Persisted getObject priority 256 root s ∧ entries = StdMap.emplaceAll ∅ s.toList := by
  obtain ⟨⟨visited, result⟩, hfrom, hresult⟩ := Outcome.bind_eq_ok.mp h
  obtain ⟨s, hs, -, rfl⟩ := persisted_of_entriesFrom hchecked hfrom
  exact ⟨s, hs, (Except.ok.inj hresult).symm⟩

end Accepted

end MetadataTree

end ForkFs
