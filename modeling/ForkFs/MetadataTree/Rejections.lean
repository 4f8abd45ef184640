import ForkFs.MetadataTree.Listing
import ForkFs.MetadataTree.Progress
import ForkFs.MetadataTree.Session

/-!
# Rejected batches

An editor remembers the heights that it has computed, also those of candidates that it rejected.
Identities determine trees, so this changes no result. A rejected batch leaves the tree of the
editor as it was, and an accepted one has a tree within the depth limit.
-/

namespace ForkFs

open Bytes Treap Treap.KeyTree

namespace MetadataTree

variable [Digest] {getObject getObject' : Hash → Except String Bytes} {priority : Bytes → Hash}
  {payloads : Set Bytes} {t t' : MetadataTree} {s : KeyTree Bytes Hash} {changes : TreeChanges}

section Heights

omit [Digest] in
/-- The height of a subtree, at most `fuel`. Heights that are known are not computed again. -/
def heightMemo (getObject : Hash → Except String Bytes) (t : MetadataTree) (fuel : ℕ) (id : Hash) :
    EStateM String (StdMap Hash ℕ) ℕ := fun heights =>
  if id = Hash.zero then .ok 0 heights
  else
    match fuel with
    | 0 => .error "metadata tree depth limit" heights
    | fuel + 1 =>
      match heights[id]? with
      | some known =>
        if known ≤ fuel + 1 then .ok known heights else .error "metadata tree depth limit" heights
      | none =>
        (do
          let n ← attempt (t.node getObject id)
          let left ← heightMemo getObject t fuel n.left
          let right ← heightMemo getObject t fuel n.right
          modify fun (heights : StdMap Hash ℕ) => heights.insertIfNew id (1 + max left right)
          return 1 + max left right) heights

/-- Every known height is that of a held tree. -/
def HeightsKnown (getObject : Hash → Except String Bytes) (payloads : Set Bytes) (t : MetadataTree)
    (heights : StdMap Hash ℕ) : Prop :=
  ∀ (id : Hash) n, heights[id]? = some n →
    ∃ s, Holds getObject payloads t s ∧ treeId s = id ∧ s.height = n

variable {heights : StdMap Hash ℕ}

theorem HeightsKnown.evolves (h : HeightsKnown getObject payloads t heights)
    (ht : ∀ s, Holds getObject payloads t s → Holds getObject' payloads t' s) :
    HeightsKnown getObject' payloads t' heights := by
  intro id n hn
  obtain ⟨s, hs, hid, hheight⟩ := h id n hn
  exact ⟨s, ht s hs, hid, hheight⟩

theorem HeightsKnown.insert (h : HeightsKnown getObject payloads t heights)
    (hs : Holds getObject payloads t s) :
    HeightsKnown getObject payloads t (heights.insertIfNew (treeId s) s.height) := by
  intro id n hn
  rw [StdMap.getElem?_insertIfNew] at hn
  split at hn
  · rename_i hid
    cases hn
    exact ⟨s, hs, hid.1.symm, rfl⟩
  · exact h id n hn

/-- Computing a height with the known ones is computing the height. -/
theorem heightMemo_treeId (hcf : CollisionFree payloads) (hs : Holds getObject payloads t s)
    (hk : HeightsKnown getObject payloads t heights) (fuel : ℕ) :
    ∃ heights', HeightsKnown getObject payloads t heights' ∧
      heightMemo getObject t fuel (treeId s) heights =
        if s.height ≤ fuel then .ok s.height heights'
        else .error "metadata tree depth limit" heights' := by
  induction s generalizing fuel heights with
  | leaf =>
    refine ⟨heights, hk, ?_⟩
    rw [heightMemo.eq_def, if_pos treeId_leaf]
    rfl
  | node l k v r ihl ihr =>
    rw [heightMemo.eq_def, if_neg (treeId_ne_zero hcf hs)]
    cases fuel with
    | zero =>
      refine ⟨heights, hk, ?_⟩
      rw [if_neg (by rw [KeyTree.height]; omega)]
    | succ fuel =>
      dsimp only
      cases hknown : heights[treeId (.node l k v r)]? with
      | some n =>
        obtain ⟨s', hs', hid, hheight⟩ := hk _ n hknown
        refine ⟨heights, hk, ?_⟩
        rw [← hheight, treeId_inj hcf hs' hs hid]
      | none =>
        obtain ⟨heights₁, hk₁, hleft⟩ := ihl hs.2.1 hk fuel
        obtain ⟨heights₂, hk₂, hright⟩ := ihr hs.2.2 hk₁ fuel
        dsimp only
        rw [attempt_bind_of_ok hs.1.read]
        change ∃ heights', _ ∧ (heightMemo getObject t fuel (treeId l) >>= fun left =>
          heightMemo getObject t fuel (treeId r) >>= fun right => _) heights = _
        by_cases hl : l.height ≤ fuel
        swap
        · refine ⟨heights₁, hk₁, ?_⟩
          rw [if_neg hl] at hleft
          rw [if_neg (by rw [KeyTree.height]; omega)]
          change EStateM.bind _ _ _ = _
          rw [EStateM.bind, hleft]
        rw [if_pos hl] at hleft
        rw [Outcome.bind_of_ok hleft]
        by_cases hr : r.height ≤ fuel
        swap
        · refine ⟨heights₂, hk₂, ?_⟩
          rw [if_neg hr] at hright
          rw [if_neg (by rw [KeyTree.height]; omega)]
          change EStateM.bind _ _ _ = _
          rw [EStateM.bind, hright]
        rw [if_pos hr] at hright
        rw [Outcome.bind_of_ok hright]
        refine ⟨_, hk₂.insert hs, ?_⟩
        rw [if_pos (by rw [KeyTree.height]; omega)]
        rfl

end Heights

section Accepted

/-- A batch that is accepted on a tree. -/
structure Acceptable (priority : Bytes → Hash) (s : KeyTree Bytes Hash) (changes : TreeChanges) :
    Prop where
  /-- Its changes pass their checks. -/
  valid : ValidChanges changes
  /-- The result has a namespace root. -/
  root : KeepsRoot s changes
  /-- The result is within the depth limit. -/
  height : (applyAll priority s changes.toList).height ≤ 256

theorem Yields.editing {edited : MetadataTree} {candidate : Hash} {s' : KeyTree Bytes Hash}
    (h : Yields getObject payloads t edited candidate s')
    (ht : Editing getObject priority payloads t s) : Editing getObject priority payloads edited s :=
  ⟨h.evolves.root.trans ht.root, h.evolves.holds s ht.holds, ht.wf, ht.height⟩

end Accepted

end MetadataTree

/-- An editor with the heights that it remembers. -/
structure TreeEditor where
  /-- The edited tree. -/
  tree : MetadataTree
  /-- Heights of nodes by their identities. -/
  heights : StdMap Hash ℕ

namespace TreeEditor

open MetadataTree

section Editors

variable [Digest] {getObject getObject' : Hash → Except String Bytes} {priority : Bytes → Hash}
  {payloads : Set Bytes} {e e' : TreeEditor} {s : KeyTree Bytes Hash} {changes : TreeChanges}
  {plan : Plan} {message : String}

omit [Digest] in
/-- A fresh editor at a root. -/
def new (root : Hash) : TreeEditor := ⟨MetadataTree.new root, ∅⟩

omit [Digest] in
/-- Validate the height of a candidate with the known heights. -/
def checkHeight (getObject : Hash → Except String Bytes) (t : MetadataTree) (candidate : Hash) :
    EStateM String (StdMap Hash ℕ) Unit :=
  if candidate = t.root then pure ()
  else do
    let _ ← heightMemo getObject t 256 candidate

/-- Apply a batch of changes and plan its publication. -/
def apply (getObject : Hash → Except String Bytes) (priority : Bytes → Hash)
    (changes : TreeChanges) : EStateM String TreeEditor Plan := fun e =>
  match edit getObject priority changes e.tree with
  | .error message t => .error message ⟨t, e.heights⟩
  | .ok candidate edited =>
    match checkHeight getObject edited candidate e.heights with
    | .error message heights => .error message ⟨edited, heights⟩
    | .ok _ heights =>
      match edited.collect getObject 257 candidate (∅, []) with
      | .error message => .error message ⟨edited, heights⟩
      | .ok (_, objects) =>
        .ok ⟨manifest candidate, objects⟩ ⟨{ edited with root := candidate }, heights⟩

/-- What holds of an editor between batches, rejected or not. -/
structure Editing (getObject : Hash → Except String Bytes) (priority : Bytes → Hash)
    (payloads : Set Bytes) (e : TreeEditor) (s : KeyTree Bytes Hash) : Prop where
  /-- The root is that of a held treap. -/
  tree : MetadataTree.Editing getObject priority payloads e.tree s
  /-- The remembered heights are right. -/
  heights : HeightsKnown getObject payloads e.tree e.heights

/-- The height check with the known heights is the height check. -/
theorem checkHeight_treeId (hcf : CollisionFree payloads) {t : MetadataTree}
    {heights : StdMap Hash ℕ} (hroot : ∀ s', Holds getObject payloads t s' → treeId s' = t.root →
      s'.height ≤ 256)
    (hs : Holds getObject payloads t s) (hk : HeightsKnown getObject payloads t heights) :
    ∃ heights', HeightsKnown getObject payloads t heights' ∧
      ((s.height ≤ 256 ∧ checkHeight getObject t (treeId s) heights = .ok () heights' ∧
          t.checkHeight getObject (treeId s) = .ok ()) ∨
        (¬ s.height ≤ 256 ∧
          checkHeight getObject t (treeId s) heights =
            .error "metadata tree depth limit" heights' ∧
          t.checkHeight getObject (treeId s) = .error "metadata tree depth limit")) := by
  unfold checkHeight MetadataTree.checkHeight
  by_cases hid : treeId s = t.root
  · refine ⟨heights, hk, Or.inl ⟨hroot s hs hid, ?_, if_pos hid⟩⟩
    rw [if_pos hid]
    rfl
  rw [if_neg hid, if_neg hid, MetadataTree.height, heightFrom_treeId hcf hs]
  obtain ⟨heights', hk', hmemo⟩ := heightMemo_treeId hcf hs hk 256
  refine ⟨heights', hk', ?_⟩
  change (_ ∧ EStateM.bind _ _ _ = _ ∧ _) ∨ (_ ∧ EStateM.bind _ _ _ = _ ∧ _)
  rw [EStateM.bind, hmemo]
  by_cases hheight : s.height ≤ 256
  · rw [if_pos hheight, if_pos hheight]
    exact Or.inl ⟨hheight, rfl, rfl⟩
  · rw [if_neg hheight, if_neg hheight]
    exact Or.inr ⟨hheight, rfl, rfl⟩

/-- A batch is accepted exactly if it is acceptable, with the tree and plan of an editor that
remembers nothing. A rejected one leaves the editor at its tree. -/
theorem apply_spec (hcf : CollisionFree payloads) (he : e.Editing getObject priority payloads s)
    (hpay : (Outcome.after (edit getObject priority changes) e.tree).pendingPayloads ⊆ payloads) :
    (Acceptable priority s changes ∧ ∃ plan e', apply getObject priority changes e = .ok plan e' ∧
      MetadataTree.apply getObject priority changes e.tree = .ok plan e'.tree ∧
      e'.tree.pendingPayloads ⊆ payloads ∧
      e'.Editing getObject priority payloads (applyAll priority s changes.toList)) ∨
    (¬ Acceptable priority s changes ∧ ∃ message e',
      apply getObject priority changes e = .error message e' ∧
      e'.tree.pendingPayloads ⊆ payloads ∧ e'.Editing getObject priority payloads s) := by
  unfold apply
  obtain ⟨hvalid, hroot, candidate, edited, hedit, hyields⟩ | ⟨hnot, message, hedit⟩ :=
    edit_spec hcf he.tree hpay
  swap
  · rw [Outcome.after_of_error hedit] at hpay
    rw [hedit]
    exact Or.inr ⟨fun h => hnot ⟨h.valid, h.root⟩, message, e, rfl, hpay, he⟩
  rw [Outcome.after_of_ok hedit] at hpay
  have hediting := hyields.editing he.tree
  have hwf := wf_applyAll he.tree.wf changes.toList
  obtain ⟨heights, hk, hcheck⟩ := checkHeight_treeId hcf (fun s' hs' hid => by
      rw [treeId_inj hcf hs' hediting.holds (hid.trans hediting.root)]
      exact hediting.height) hyields.holds (he.heights.evolves hyields.evolves.holds)
  rw [hedit]
  dsimp only
  rw [hyields.id_eq] at hedit ⊢
  rcases hcheck with ⟨hheight, hmemo, hplain⟩ | ⟨hheight, hmemo, -⟩
  · have hcollect := collect_treeId hcf hwf hyields.holds hpay
      (show (applyAll priority s changes.toList).height < 257 by omega) ∅ [] (by simp)
    rw [hmemo]
    dsimp only
    rw [hcollect]
    refine Or.inl ⟨⟨hvalid, hroot, hheight⟩, _, _, rfl, ?_, hpay, ?_, ?_⟩
    · rw [apply_eq_edit, hedit]
      dsimp only
      rw [hplain, hcollect]
    · exact ⟨rfl, hyields.holds.withRoot _, hwf, hheight⟩
    · exact hk.evolves fun s' hs' => hs'.withRoot _
  · rw [hmemo]
    exact Or.inr ⟨fun h => hheight h.height, _, _, rfl, hpay, hediting, hk⟩

section Pending

theorem grows_edit : Grows (edit getObject priority changes) := by
  refine grows_of_cases fun t => ?_
  unfold edit
  cases hchecks : changes.toList.forM checkChange with
  | error message => exact Or.inl ⟨message, attempt_bind_of_error rfl⟩
  | ok u =>
    rw [attempt_bind_of_ok rfl]
    cases hroot : t.checkRoot getObject changes with
    | error message => exact Or.inl ⟨message, attempt_bind_of_error rfl⟩
    | ok u =>
      rw [attempt_bind_of_ok rfl]
      exact Or.inr (Or.inr ⟨_, grows_setAll _ _, rfl⟩)

/-- What is pending after a batch, accepted or not, is what its edits made. -/
theorem pending_after_apply (e : TreeEditor) :
    (Outcome.after (apply getObject priority changes) e).tree.pending =
      (Outcome.after (edit getObject priority changes) e.tree).pending := by
  unfold Outcome.after apply
  cases edit getObject priority changes e.tree with
  | error message t => rfl
  | ok candidate edited =>
    dsimp only
    cases checkHeight getObject edited candidate e.heights with
    | error message heights => rfl
    | ok u heights =>
      dsimp only
      cases edited.collect getObject 257 candidate (∅, []) with
      | error message => rfl
      | ok found => rfl

theorem pending_apply (e : TreeEditor) :
    e.tree.pending <+: (Outcome.after (apply getObject priority changes) e).tree.pending := by
  rw [pending_after_apply]
  exact grows_edit.after e.tree

end Pending

section Attempts

variable {store store' : ObjectStore} {batches : List Batch}

/-- Try batches with one editor on a store that receives the published plans. A rejected batch
leaves the editor as it was when the batch was rejected. -/
def attempts (priority : Bytes → Hash) :
    List Batch → ObjectStore → TreeEditor → ObjectStore × TreeEditor
  | [], store, e => (store, e)
  | batch :: batches, store, e =>
    match apply store.object priority batch.changes e with
    | .error _ e => attempts priority batches store e
    | .ok plan e =>
      attempts priority batches (if batch.published then store.putAll plan.objects else store) e

theorem pending_attempts (batches : List Batch) (store : ObjectStore) (e : TreeEditor) :
    e.tree.pending <+: (attempts priority batches store e).2.tree.pending := by
  induction batches generalizing store e with
  | nil => exact List.prefix_rfl
  | cons batch batches ih =>
    have hpending : e.tree.pending <+:
        (Outcome.after (apply store.object priority batch.changes) e).tree.pending := pending_apply e
    unfold attempts
    split
    · rename_i happly
      rw [Outcome.after_of_error happly] at hpending
      exact hpending.trans (ih store _)
    · rename_i happly
      rw [Outcome.after_of_ok happly] at hpending
      exact hpending.trans (ih _ _)

theorem Editing.mono (hext : ∀ id b, getObject id = .ok b → getObject' id = .ok b)
    (h : e.Editing getObject priority payloads s) : e.Editing getObject' priority payloads s :=
  ⟨h.tree.mono hext, h.heights.evolves fun _ hs => hs.mono hext⟩

/-- Whatever is tried, the editor holds the treap of its root and knows only true heights. -/
theorem attempts_spec (hcf : CollisionFree payloads) (hstore : store.contents ⊆ payloads)
    (he : e.Editing store.object priority payloads s)
    (h : attempts priority batches store e = (store', e'))
    (hpay : e'.tree.pendingPayloads ⊆ payloads) :
    store'.contents ⊆ payloads ∧ ∃ s', e'.Editing store'.object priority payloads s' := by
  induction batches generalizing store e s with
  | nil =>
    cases h
    exact ⟨hstore, s, he⟩
  | cons batch batches ih =>
    have hedits : (Outcome.after (edit store.object priority batch.changes) e.tree).pendingPayloads ⊆
        payloads := by
      refine (pendingPayloads_mono ?_).trans hpay
      have hlast : (attempts priority (batch :: batches) store e).2 = e' := by rw [h]
      rw [← pending_after_apply, ← hlast]
      unfold attempts Outcome.after
      cases apply store.object priority batch.changes e with
      | ok plan e₁ => exact pending_attempts _ _ e₁
      | error message e₁ => exact pending_attempts _ _ e₁
    unfold attempts at h
    obtain ⟨-, plan, e₁, happly, hplain, hpay₁, he₁⟩ | ⟨-, message, e₁, happly, -, he₁⟩ :=
      apply_spec hcf he hedits
    · rw [happly] at h
      dsimp only at h
      split at h
      · have hcontents := (published hcf hstore he.tree hplain hpay₁).2
        exact ih hcontents (he₁.mono (store.extends_putAll plan.objects)) h
      · exact ih hstore he₁ h
    · rw [happly] at h
      exact ih hstore he₁ h

/-- The manifest of an empty batch. -/
def emptyManifest (getObject : Hash → Except String Bytes) (priority : Bytes → Hash)
    (e : TreeEditor) : Except String Bytes :=
  match apply getObject priority ∅ e with
  | .ok plan _ => .ok plan.manifest
  | .error message _ => .error message

/-- The edits of an empty batch change nothing. -/
theorem edit_empty (t : MetadataTree) :
    edit getObject priority ∅ t =
      match t.checkRoot getObject ∅ with
      | .ok _ => .ok t.root t
      | .error message => .error message t := by
  unfold edit
  rw [attempt_bind_of_ok (forM_checkChange.mpr (by simp))]
  cases t.checkRoot getObject ∅ with
  | ok u => exact attempt_bind_of_ok rfl
  | error message => exact attempt_bind_of_error rfl

theorem after_edit_empty (t : MetadataTree) : Outcome.after (edit getObject priority ∅) t = t := by
  unfold Outcome.after
  rw [edit_empty]
  cases t.checkRoot getObject ∅ with
  | ok u => rfl
  | error message => rfl

/-- The manifest of an empty batch is that of the tree. -/
theorem emptyManifest_eq (hcf : CollisionFree payloads)
    (he : e.Editing getObject priority payloads s) (hpay : e.tree.pendingPayloads ⊆ payloads) :
    e.emptyManifest getObject priority =
      if (find? s namespaceRoot).isSome then .ok (manifest (treeId s))
      else .error "metadata tree missing namespace root" := by
  have hroot : e.tree.checkRoot getObject ∅ =
      need (find? s namespaceRoot).isSome "metadata tree missing namespace root" := by
    unfold checkRoot
    rw [if_neg (by simp), lookup_treeId hcf he.tree.holds he.tree.height he.tree.root,
      Outcome.ok_bind]
  have hcollect := collect_treeId hcf he.tree.wf he.tree.holds hpay
    (show s.height < 257 by have := he.tree.height; omega) ∅ [] (by simp)
  have hheight : checkHeight getObject e.tree (treeId s) e.heights = .ok () e.heights := by
    unfold checkHeight
    rw [if_pos he.tree.root.symm]
    rfl
  unfold emptyManifest apply
  rw [edit_empty, hroot]
  by_cases hfound : (find? s namespaceRoot).isSome
  · rw [need_of hfound, if_pos hfound]
    dsimp only
    rw [he.tree.root, hheight]
    dsimp only
    rw [hcollect]
  · rw [need_of_not hfound, if_neg hfound]

/-- What a rejected batch leaves as it was. -/
structure Keeps (store : ObjectStore) (priority : Bytes → Hash) (e e' : TreeEditor) : Prop where
  /-- Lookups are the same. -/
  lookup : ∀ key : Bytes, e'.tree.lookup store.object key = e.tree.lookup store.object key
  /-- Listings are the same. -/
  keys : ∀ pre : Bytes, e'.tree.keys store.object pre = e.tree.keys store.object pre
  /-- The entries are the same. -/
  entries : e'.tree.entries store.object priority = e.tree.entries store.object priority
  /-- An empty batch has the same manifest. -/
  manifest : e'.emptyManifest store.object priority = e.emptyManifest store.object priority
  /-- Publishing an empty batch completes the tree. -/
  complete : ∀ plan e'', apply store.object priority ∅ e' = .ok plan e'' →
    ∀ id, NodeReachable (store.putAll plan.objects).object e.tree.root id →
      ∃ n, ((store.putAll plan.objects).object id >>= Node.decode) = .ok n

/-- Every read from the root stays within the depth limit. -/
structure WithinDepth (store : ObjectStore) (priority : Bytes → Hash) (e : TreeEditor) : Prop where
  /-- The height is at most 256. -/
  height : ∃ n heights, heightMemo store.object e.tree 256 e.tree.root e.heights = .ok n heights ∧
    n ≤ 256
  /-- Lookups succeed. -/
  lookup : ∀ key : Bytes, ∃ value, e.tree.lookup store.object key = .ok value
  /-- Listings succeed. -/
  keys : ∀ pre : Bytes, ∃ keys, e.tree.keys store.object pre = .ok keys
  /-- Pages succeed for valid requests. -/
  page : ∀ pre after limit, 0 < limit ∧ limit ≤ 1025 ∧ (after = [] ∨ pre <+: after) →
    ∃ keys, e.tree.page store.object pre after limit = .ok keys
  /-- The entries can be read. -/
  entries : ∃ entries, e.tree.entries store.object priority = .ok entries

theorem Editing.keeps (hcf : CollisionFree payloads) (hstore : store.contents ⊆ payloads)
    (he : e.Editing store.object priority payloads s)
    (he' : e'.Editing store.object priority payloads s)
    (hpay : e.tree.pendingPayloads ⊆ payloads) (hpay' : e'.tree.pendingPayloads ⊆ payloads) :
    e.Keeps store priority e' := by
  obtain ⟨⟨hroot, hholds, hwf, hheight⟩, -⟩ := id he
  obtain ⟨⟨hroot', hholds', -, -⟩, -⟩ := id he'
  refine ⟨fun key => ?_, fun pre => ?_, ?_, ?_, fun plan e'' hplan id hid => ?_⟩
  · rw [lookup_treeId hcf hholds hheight hroot, lookup_treeId hcf hholds' hheight hroot']
  · rw [keys_treeId hcf hwf hholds hheight hroot, keys_treeId hcf hwf hholds' hheight hroot']
  · rw [entries_treeId hcf hwf hholds hheight hroot, entries_treeId hcf hwf hholds' hheight hroot']
  · rw [emptyManifest_eq hcf he hpay, emptyManifest_eq hcf he' hpay']
  · obtain ⟨-, plan', e₁, happly, hplain, hpay₁, he₁⟩ | ⟨-, message, e₁, happly, -⟩ :=
      apply_spec hcf he' (by rwa [after_edit_empty])
    · obtain ⟨rfl, rfl⟩ := EStateM.Result.ok.inj (happly.symm.trans hplan)
      have hs := (published hcf hstore he'.tree hplain hpay₁).1
      have htree : e₁.tree.root = e.tree.root := he₁.tree.root.trans hroot.symm
      rw [htree] at hs
      exact hs.decode_of_reachable hid
    · cases happly.symm.trans hplan

theorem Editing.withinDepth (hcf : CollisionFree payloads)
    (he : e.Editing store.object priority payloads s) : e.WithinDepth store priority := by
  obtain ⟨⟨hroot, hholds, hwf, hheight⟩, hk⟩ := he
  refine ⟨?_, fun key => ?_, fun pre => ?_, fun pre after limit hrequest => ?_, ?_⟩
  · obtain ⟨heights, -, hmemo⟩ := heightMemo_treeId hcf hholds hk 256
    rw [if_pos hheight] at hmemo
    rw [hroot]
    exact ⟨_, _, hmemo, hheight⟩
  · exact ⟨_, lookup_treeId hcf hholds hheight hroot key⟩
  · exact ⟨_, keys_treeId hcf hwf hholds hheight hroot pre⟩
  · exact ⟨_, page_treeId hcf hwf hholds hheight hroot ⟨hrequest.1, hrequest.2.1⟩ hrequest.2.2⟩
  · exact ⟨_, entries_treeId hcf hwf hholds hheight hroot⟩

/-- Rejected batches and the depth limit.

After any attempts, a rejected batch keeps what the editor reads and plans. An accepted one has a
tree within the depth limit. A batch is accepted exactly if its changes are valid, the result
has a namespace root, and the treap of the resulting entries is within the limit. -/
theorem apply_rejected_or_within_depth {root : Hash} {entries : StdMap Bytes Hash}
    (hentries : (MetadataTree.new root).entries store.object priority = .ok entries)
    (hattempts : attempts priority batches store (new root) = (store', e))
    (hcf : CollisionFree (store.contents ∪
      (Outcome.after (apply store'.object priority changes) e).tree.pendingPayloads)) :
    (∀ message e', apply store'.object priority changes e = .error message e' →
      e.Keeps store' priority e') ∧
    (∀ plan e', apply store'.object priority changes e = .ok plan e' →
      e'.WithinDepth store' priority) ∧
    ∃ current : StdMap Bytes Hash, e.tree.entries store'.object priority = .ok current ∧
      ∀ s, Wf priority s → (∀ key : Bytes, find? s key = (current.override changes)[key]?) →
        ((∃ plan e', apply store'.object priority changes e = .ok plan e') ↔
          ValidChanges changes ∧
            (namespaceRoot ∈ changes ∨ current[namespaceRoot]?.isSome) ∧ s.height ≤ 256) := by
  obtain ⟨s₀, hs₀, -⟩ := persisted_of_entries store.checked_object hentries
  have hpay : (Outcome.after (apply store'.object priority changes) e).tree.pendingPayloads ⊆
      store.contents ∪
        (Outcome.after (apply store'.object priority changes) e).tree.pendingPayloads :=
    Set.subset_union_right
  have hnew : (new root).Editing store.object priority (store.contents ∪
      (Outcome.after (apply store'.object priority changes) e).tree.pendingPayloads) s₀ :=
    ⟨hs₀.editing fun _ _ h => Or.inl (ObjectStore.mem_contents_of_object h), by
      intro id n hn
      simp [new] at hn⟩
  have hpay₀ := (pendingPayloads_mono (pending_apply e)).trans hpay
  obtain ⟨hstore, s, he⟩ := attempts_spec hcf Set.subset_union_left hnew hattempts hpay₀
  have hedits : (Outcome.after (edit store'.object priority changes) e.tree).pendingPayloads ⊆ _ :=
    (pendingPayloads_mono (pending_after_apply e ▸ List.prefix_rfl)).trans hpay
  have hcurrent := entries_treeId hcf he.tree.wf he.tree.holds he.tree.height he.tree.root
  have haccept : ∀ s', Wf priority s' → (∀ key : Bytes, find? s' key =
      ((StdMap.emplaceAll ∅ s.toList : StdMap Bytes Hash).override changes)[key]?) →
      (Acceptable priority s changes ↔ ValidChanges changes ∧
        (namespaceRoot ∈ changes ∨
          (StdMap.emplaceAll ∅ s.toList : StdMap Bytes Hash)[namespaceRoot]?.isSome) ∧
        s'.height ≤ 256) := by
    intro s' hwf' hfind
    -- A treap is determined by its entries.
    have heq : s' = applyAll priority s changes.toList := by
      have hwf := wf_applyAll he.tree.wf changes.toList
      apply hwf'.ext hwf
      intro entry
      rw [← find?_eq_some_iff hwf', ← find?_eq_some_iff hwf, hfind,
        find?_applyAll he.tree.wf (getElem?_emplaceAll_toList he.tree.wf)]
    rw [heq, getElem?_emplaceAll_toList he.tree.wf]
    exact ⟨fun h => ⟨h.valid, h.root, h.height⟩, fun h => ⟨h.1, h.2.1, h.2.2⟩⟩
  obtain ⟨hok, plan, e', happly, -, hpay', he'⟩ | ⟨hnot, message, e', happly, hpay', he'⟩ :=
    apply_spec hcf he hedits
  · refine ⟨fun message e'' h => ?_, fun plan' e'' h => ?_, _, hcurrent, fun s' hwf' hfind => ?_⟩
    · cases happly.symm.trans h
    · obtain ⟨-, rfl⟩ := EStateM.Result.ok.inj (happly.symm.trans h)
      exact he'.withinDepth hcf
    · exact ⟨fun _ => (haccept s' hwf' hfind).mp hok, fun _ => ⟨plan, e', happly⟩⟩
  · refine ⟨fun message e'' h => ?_, fun plan' e'' h => ?_, _, hcurrent, fun s' hwf' hfind => ?_⟩
    · obtain ⟨-, rfl⟩ := EStateM.Result.error.inj (happly.symm.trans h)
      exact he.keeps hcf hstore he' hpay₀ hpay'
    · cases happly.symm.trans h
    · refine ⟨fun ⟨plan, e'', h⟩ => ?_, fun h => absurd ((haccept s' hwf' hfind).mpr h) hnot⟩
      cases happly.symm.trans h

end Attempts

end Editors

section Samples

local instance rejectionsDigest : Digest := sha256

/-- A batch that deletes the namespace root. -/
def sampleDelete : TreeChanges := (∅ : TreeChanges).insert namespaceRoot none

theorem edit_sampleDelete (t : MetadataTree) :
    edit ObjectStore.empty.object metadataPriority sampleDelete t =
      .error "cannot delete namespace root" t := by
  have hchecks : sampleDelete.toList.forM checkChange = .error "cannot delete namespace root" := by
    decide +kernel
  exact attempt_bind_of_error hchecks

theorem attempts_sampleDelete :
    attempts metadataPriority [⟨sampleDelete, true⟩] ObjectStore.empty (new Hash.zero) =
      (ObjectStore.empty, new Hash.zero) := by
  unfold attempts apply
  dsimp only
  rw [edit_sampleDelete]
  rfl

theorem edit_sampleBind :
    edit ObjectStore.empty.object metadataPriority (sampleBind ∅) (MetadataTree.new Hash.zero) =
      make (sampleNode 1) (MetadataTree.new Hash.zero) := by
  have hchecks : (sampleBind ∅).toList.forM checkChange = .ok () := by decide +kernel
  have hroot : (MetadataTree.new Hash.zero).checkRoot ObjectStore.empty.object (sampleBind ∅) =
      .ok () := if_pos (by decide +kernel)
  have hset : MetadataTree.set ObjectStore.empty.object metadataPriority Hash.zero namespaceRoot
      (some (sampleValue 1)) (MetadataTree.new Hash.zero) =
      make (sampleNode 1) (MetadataTree.new Hash.zero) := by
    rw [MetadataTree.set, descend_zero]
    rfl
  have hlist : (sampleBind ∅).toList = [(namespaceRoot, some (sampleValue 1))] := rfl
  refine (attempt_bind_of_ok hchecks).trans ((attempt_bind_of_ok hroot).trans ?_)
  rw [hlist, setAll_singleton]
  exact hset

/-- After a batch that deletes the namespace root, one that binds it is accepted. -/
theorem apply_rejected_or_within_depth_sample :
    ∃ plan e', apply ObjectStore.empty.object metadataPriority (sampleBind ∅) (new Hash.zero) =
        .ok plan e' ∧
      e'.WithinDepth ObjectStore.empty metadataPriority := by
  have hentries : (MetadataTree.new Hash.zero).entries ObjectStore.empty.object metadataPriority =
      .ok ∅ := rfl
  have hedits : Outcome.after (edit ObjectStore.empty.object metadataPriority (sampleBind ∅))
      (MetadataTree.new Hash.zero) =
      Outcome.after (make (sampleNode 1)) (MetadataTree.new Hash.zero) := by
    unfold Outcome.after
    rw [edit_sampleBind]
  have hcollisions : NoCollisions
      (Outcome.after (make (sampleNode 1)) (MetadataTree.new Hash.zero)).pending := by
    decide +kernel
  have hcf : CollisionFree (ObjectStore.empty.contents ∪
      (Outcome.after (apply ObjectStore.empty.object metadataPriority (sampleBind ∅))
        (new Hash.zero)).tree.pendingPayloads) := by
    refine hcollisions.collisionFree.mono (Set.union_subset ?_ ?_)
    · intro b ⟨id, hid⟩
      simp [ObjectStore.empty] at hid
    · intro b hb
      rw [pendingPayloads, pending_after_apply] at hb
      change b ∈ (Outcome.after (edit ObjectStore.empty.object metadataPriority (sampleBind ∅))
        (MetadataTree.new Hash.zero)).pending at hb
      rwa [hedits] at hb
  obtain ⟨-, hwithin, current, hcurrent, haccept⟩ :=
    apply_rejected_or_within_depth hentries attempts_sampleDelete hcf
  cases Except.ok.inj (hentries.symm.trans hcurrent)
  have hwf : Wf metadataPriority (.leaf : KeyTree Bytes Hash) := trivial
  have hfind : ∀ key : Bytes, (∅ : StdMap Bytes Hash)[key]? = find? .leaf key := fun key => by
    simp [find?]
  have hchanges : ValidChanges (sampleBind ∅) := forM_checkChange.mp (by decide +kernel)
  have hroot : namespaceRoot ∈ sampleBind ∅ := by decide +kernel
  have hheight : (applyAll metadataPriority .leaf (sampleBind ∅).toList).height ≤ 256 := by
    decide +kernel
  have hiff := haccept _ (wf_applyAll hwf _) fun key =>
    (find?_applyAll hwf hfind (sampleBind ∅) key).symm
  obtain ⟨plan, e', happly⟩ := hiff.mpr ⟨hchanges, Or.inl hroot, hheight⟩
  exact ⟨plan, e', happly, hwithin plan e' happly⟩

end Samples

end TreeEditor

end ForkFs
