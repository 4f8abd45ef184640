import ForkFs.MetadataTree.Simulation

/-!
# Specifications of the editor's operations

Each operation that returns has only added pending nodes, and on a held tree its result is
the identity of the edited tree, which the editor then holds too.
-/

namespace ForkFs

open Bytes Treap Treap.KeyTree

namespace MetadataTree

variable [Digest] {getObject : Hash → Except String Bytes} {priority : Bytes → Hash}
  {payloads : Set Bytes} {t t' : MetadataTree} {s : KeyTree Bytes Hash} {id : Hash}

section Growth

theorem make_eq_ok {n : Node} :
    make n t = .ok id t' ↔
      n.Valid ∧ objectHash n.encode = id ∧
        { t with
          cache := t.cache.insert (objectHash n.encode) n
          pending := t.pending ++ [n.encode] } = t' := by
  unfold make
  split <;> simp [*]

/-- A computation that keeps the pending payloads, whether it returns or throws. -/
def Grows {α : Type} (x : EStateM String MetadataTree α) : Prop :=
  ∀ payloads : List Bytes, Outcome.Preserves (fun t => payloads <+: t.pending) x

omit [Digest] in
theorem Grows.after {α : Type} {x : EStateM String MetadataTree α} (h : Grows x)
    (t : MetadataTree) : t.pending <+: (Outcome.after x t).pending :=
  h t.pending t List.prefix_rfl

omit [Digest] in
theorem Grows.of_ok {α : Type} {x : EStateM String MetadataTree α} {a : α} (h : Grows x)
    (hx : x t = .ok a t') : t.pending <+: t'.pending := by
  have hafter := h.after t
  rwa [Outcome.after_of_ok hx] at hafter

omit [Digest] in
theorem Grows.bind {α β : Type} {x : EStateM String MetadataTree α}
    {f : α → EStateM String MetadataTree β} (hx : Grows x) (hf : ∀ a, Grows (f a)) :
    Grows (x >>= f) :=
  fun payloads => (hx payloads).bind fun a => hf a payloads

omit [Digest] in
/-- What comes first has kept its payloads when the whole ends. -/
theorem grows_bind_left {α β : Type} {x : EStateM String MetadataTree α}
    {f : α → EStateM String MetadataTree β} (hf : ∀ a, Grows (f a)) (t : MetadataTree) :
    (Outcome.after x t).pending <+: (Outcome.after (x >>= f) t).pending := by
  cases hx : x t with
  | ok a t₁ =>
    rw [Outcome.after_of_ok hx, Outcome.after_bind_of_ok hx]
    exact (hf a).after t₁
  | error e t₁ => rw [Outcome.after_of_error hx, Outcome.after_bind_of_error hx]

omit [Digest] in
theorem grows_pure {α : Type} (a : α) : Grows (pure a) := fun _ => Outcome.preserves_pure a

/-- Creating a node keeps the pending ones. -/
theorem grows_make (n : Node) : Grows (make n) := by
  intro payloads t ht
  unfold Outcome.after make
  split
  · rename_i heq
    split at heq
    · cases heq
      exact ht.trans (List.prefix_append _ _)
    · cases heq
  · rename_i heq
    split at heq
    · cases heq
    · cases heq
      exact ht

theorem grows_mergeUp (path : List Step) (result : Hash) : Grows (mergeUp path result) := by
  induction path generalizing result with
  | nil => exact grows_pure result
  | cons step path ih => exact (grows_make _).bind ih

theorem grows_rotate (left : Bool) (n top : Node) : Grows (rotate left n top) := by
  unfold rotate
  split
  · exact (grows_make _).bind fun _ => grows_make _
  · exact (grows_make _).bind fun _ => grows_make _

omit [Digest] in
/-- A computation that chooses what to run by the state. -/
theorem grows_of_cases {α : Type} {x : EStateM String MetadataTree α}
    (h : ∀ t, (∃ e, x t = .error e t) ∨ (∃ a, x t = .ok a t) ∨
      ∃ y : EStateM String MetadataTree α, Grows y ∧ x t = y t) : Grows x := by
  intro payloads t ht
  rcases h t with ⟨e, hx⟩ | ⟨a, hx⟩ | ⟨y, hy, hx⟩
  · rwa [Outcome.after_of_error hx]
  · rwa [Outcome.after_of_ok hx]
  · have hafter := hy payloads t ht
    unfold Outcome.after at hafter ⊢
    rwa [hx]

theorem grows_raise (step : Step) (child : Hash) :
    Grows (raise getObject priority step child) := by
  refine grows_of_cases fun t => ?_
  unfold raise
  split
  · exact Or.inr (Or.inr ⟨_, grows_make _, rfl⟩)
  · split
    · exact Or.inl ⟨_, rfl⟩
    · split
      · exact Or.inr (Or.inr ⟨_, grows_rotate _ _ _, rfl⟩)
      · exact Or.inr (Or.inr ⟨_, grows_make _, rfl⟩)

theorem grows_rebuild (path : List Step) (result : Hash) :
    Grows (rebuild getObject priority path result) := by
  induction path generalizing result with
  | nil => exact grows_pure result
  | cons step path ih => exact (grows_raise _ _).bind ih

theorem grows_merge (left right : Hash) : Grows (merge getObject priority left right) := by
  refine grows_of_cases fun t => ?_
  unfold merge
  split
  · exact Or.inl ⟨_, rfl⟩
  · exact Or.inr (Or.inr ⟨_, grows_mergeUp _ _, rfl⟩)

/-- An edit keeps the pending nodes. -/
theorem grows_set (root : Hash) (key : Bytes) (value : Option Hash) :
    Grows (set getObject priority root key value) := by
  refine grows_of_cases fun t => ?_
  unfold set
  split
  · exact Or.inl ⟨_, rfl⟩
  · split
    · exact Or.inr (Or.inl ⟨_, rfl⟩)
    · exact Or.inr (Or.inr ⟨_, (grows_make _).bind fun _ => grows_rebuild _ _, rfl⟩)
  · split
    · exact Or.inr (Or.inr ⟨_, (grows_merge _ _).bind fun _ => grows_rebuild _ _, rfl⟩)
    · split
      · exact Or.inr (Or.inl ⟨_, rfl⟩)
      · exact Or.inr (Or.inr ⟨_, (grows_make _).bind fun _ => grows_rebuild _ _, rfl⟩)

theorem grows_setAll (changes : List (Bytes × Option Hash)) (candidate : Hash) :
    Grows (setAll getObject priority changes candidate) := by
  induction changes generalizing candidate with
  | nil => exact grows_pure candidate
  | cons change changes ih => exact (grows_set _ _ _).bind ih

end Growth

section Specifications

/-- What an operation that yields the identity of a tree establishes. -/
structure Yields (getObject : Hash → Except String Bytes) (payloads : Set Bytes)
    (t t' : MetadataTree) (id : Hash) (s : KeyTree Bytes Hash) : Prop where
  /-- The result is the identity of the tree. -/
  id_eq : id = treeId s
  /-- The editor holds the tree afterwards. -/
  holds : Holds getObject payloads t' s
  /-- Nothing held before is lost. -/
  evolves : Evolves getObject payloads t t'

theorem Yields.after {t₁ : MetadataTree} (h : Yields getObject payloads t₁ t' id s)
    (hevolves : Evolves getObject payloads t t₁) : Yields getObject payloads t t' id s :=
  ⟨h.id_eq, h.holds, hevolves.trans h.evolves⟩

/-- Creating a node keeps every held tree: an equal identity means an equal node. -/
theorem evolves_make (getObject : Hash → Except String Bytes) (hcf : CollisionFree payloads)
    {n : Node} (h : make n t = .ok id t')
    (hpay : t'.pendingPayloads ⊆ payloads) : Evolves getObject payloads t t' := by
  have hpending := (grows_make _).of_ok h
  obtain ⟨hvalid, rfl, rfl⟩ := make_eq_ok.mp h
  refine ⟨fun s hs => ?_, hpending, rfl⟩
  induction s with
  | leaf => trivial
  | node l k v r ihl ihr =>
    obtain ⟨hnode, hl, hr⟩ := hs
    refine ⟨⟨?_, hnode.payload, hnode.valid, ?_⟩, ihl hl, ihr hr⟩
    · simp only [MetadataTree.node, StdMap.getElem?_insert]
      split
      next heq =>
        split at heq
        next hid =>
          cases heq
          have hmem : n.encode ∈ payloads := hpay (by simp [pendingPayloads])
          have hencode := hcf.injOn hnode.payload hmem hid
          rw [Node.encode_inj hnode.valid hvalid hencode]
        next hid =>
          have hread := hnode.read
          rw [MetadataTree.node, heq] at hread
          exact hread
      next heq =>
        split at heq
        next => cases heq
        next hid =>
          have hread := hnode.read
          rw [MetadataTree.node, heq] at hread
          exact hread
    · rcases hnode.backed with hpend | hstored
      · exact Or.inl (by rw [findPending, List.find?_append, ← findPending, hpend]; rfl)
      · exact Or.inr hstored

theorem make_yields (hcf : CollisionFree payloads) {l r : KeyTree Bytes Hash} {k : Bytes}
    {v : Hash} (hl : Holds getObject payloads t l) (hr : Holds getObject payloads t r)
    (h : make (rootNode l k v r) t = .ok id t') (hpay : t'.pendingPayloads ⊆ payloads) :
    Yields getObject payloads t t' id (.node l k v r) := by
  have hevolves := evolves_make getObject hcf h hpay
  obtain ⟨hvalid, rfl, rfl⟩ := make_eq_ok.mp h
  have hmem : (rootNode l k v r).encode ∈ payloads := hpay (by simp [pendingPayloads])
  refine ⟨rfl, ⟨⟨?_, hmem, hvalid, ?_⟩, hevolves.holds l hl, hevolves.holds r hr⟩, hevolves⟩
  · simp [MetadataTree.node, treeId_node]
  · -- An earlier pending payload of the same identity is the same payload.
    left
    rw [treeId_node, findPending, List.find?_append]
    cases hfind : t.pending.find? fun b => objectHash b = objectHash (rootNode l k v r).encode with
    | none => simp
    | some b =>
      have hb : objectHash b = objectHash (rootNode l k v r).encode := by
        simpa using List.find?_some hfind
      have hbmem : b ∈ payloads := hpay (by simp [pendingPayloads, List.mem_of_find?_eq_some hfind])
      rw [hcf.injOn hbmem hmem hb]
      rfl

theorem mergeUp_yields (hcf : CollisionFree payloads) {frames : List Frame}
    (hframes : ∀ f ∈ frames, Holds getObject payloads t f.tree)
    (hs : Holds getObject payloads t s)
    (h : mergeUp (frames.map Frame.step) (treeId s) t = .ok id t')
    (hpay : t'.pendingPayloads ⊆ payloads) :
    Yields getObject payloads t t' id (join frames s) := by
  induction frames generalizing t s with
  | nil =>
    obtain ⟨rfl, rfl⟩ := Outcome.run_pure_eq_ok.mp h
    exact ⟨rfl, hs, .refl _⟩
  | cons f frames ih =>
    obtain ⟨r, t₁, hmake, h⟩ := Outcome.run_bind_eq_ok.mp h
    have hpay₁ := (pendingPayloads_mono ((grows_mergeUp _ _).of_ok h)).trans hpay
    have hf := hframes f (by simp)
    have hyields : Yields getObject payloads t t₁ r
        (if f.left then .node s f.key f.value f.rt else .node f.lt f.key f.value s) := by
      cases hleft : f.left with
      | true =>
        simp only [Step.withChild, Frame.step, hleft, if_true] at hmake ⊢
        exact make_yields hcf hs hf.2.2 hmake hpay₁
      | false =>
        simp only [Step.withChild, Frame.step, hleft, Bool.false_eq_true, if_false] at hmake ⊢
        exact make_yields hcf hf.2.1 hs hmake hpay₁
    rw [hyields.id_eq] at h
    refine (ih (fun f' hf' => hyields.evolves.holds _ (hframes f' (by simp [hf'])))
      hyields.holds h).after hyields.evolves

theorem merge_yields (hcf : CollisionFree payloads) {a b : KeyTree Bytes Hash}
    (hwfa : Wf priority a) (hwfb : Wf priority b) (ha : Holds getObject payloads t a)
    (hb : Holds getObject payloads t b) (hlt : ∀ x ∈ a.keys, ∀ y ∈ b.keys, x < y)
    (h : merge getObject priority (treeId a) (treeId b) t = .ok id t')
    (hpay : t'.pendingPayloads ⊆ payloads) :
    Yields getObject payloads t t' id (Treap.merge priority a b) := by
  rw [merge, ← List.map_nil (f := Frame.step),
    mergePath_treeId hcf hwfa hwfb ha hb hlt ∅ (by simp) []] at h
  have hnil : ∀ f ∈ ([] : List Frame), Holds getObject payloads t f.tree := by simp
  obtain ⟨hsub, hframes⟩ := holds_mergeSearch ha hb hnil
  have hyields := mergeUp_yields hcf hframes hsub h hpay
  rwa [join_mergeSearch] at hyields

/-- One iteration of the upward loop links the subtree into its frame. -/
theorem raise_yields (hcf : CollisionFree payloads) {f : Frame}
    (hf : Holds getObject payloads t f.tree) (hs : Holds getObject payloads t s)
    (h : raise getObject priority f.step (treeId s) t = .ok id t')
    (hpay : t'.pendingPayloads ⊆ payloads) :
    Yields getObject payloads t t' id (if f.left then linkLeft priority s f.key f.value f.rt
      else linkRight priority f.lt f.key f.value s) := by
  have hkey : (f.step.withChild (treeId s)).key = f.key := by
    by_cases hleft : f.left = true <;> simp [Step.withChild, Frame.step, rootNode, hleft]
  -- Without a rotation the node is copied with its new child.
  have hplain : make (f.step.withChild (treeId s)) t = .ok id t' →
      Yields getObject payloads t t' id
        (if f.left then .node s f.key f.value f.rt else .node f.lt f.key f.value s) := by
    intro hmake
    cases hleft : f.left with
    | true =>
      simp only [Step.withChild, Frame.step, hleft, if_true] at hmake ⊢
      exact make_yields hcf hs hf.2.2 hmake hpay
    | false =>
      simp only [Step.withChild, Frame.step, hleft, Bool.false_eq_true, if_false] at hmake ⊢
      exact make_yields hcf hf.2.1 hs hmake hpay
  rw [raise] at h
  cases s with
  | leaf =>
    rw [if_pos (c := treeId .leaf = Hash.zero) rfl] at h
    exact hplain h
  | node a k v b =>
    rw [if_neg (treeId_ne_zero hcf hs), hs.1.read] at h
    dsimp only at h
    by_cases hhigher : Higher priority k f.key
    · have hhigher' : higher priority (rootNode a k v b)
          (f.step.withChild (treeId (.node a k v b))) := by
        rw [higher_iff_higher, hkey]
        exact hhigher
      rw [if_pos hhigher', rotate] at h
      cases hleft : f.left with
      | true =>
        simp only [Frame.step, hleft, if_true] at h ⊢
        obtain ⟨r, t₁, hmake, h⟩ := Outcome.run_bind_eq_ok.mp h
        have hpay₁ := (pendingPayloads_mono ((grows_make _).of_ok h)).trans hpay
        have hlow : Yields getObject payloads t t₁ r (.node b f.key f.value f.rt) :=
          make_yields hcf hs.2.2 hf.2.2 hmake hpay₁
        rw [hlow.id_eq] at h
        rw [linkLeft, if_pos hhigher]
        exact (make_yields hcf (hlow.evolves.holds _ hs.2.1) hlow.holds h hpay).after hlow.evolves
      | false =>
        simp only [Frame.step, hleft, Bool.false_eq_true, if_false] at h ⊢
        obtain ⟨r, t₁, hmake, h⟩ := Outcome.run_bind_eq_ok.mp h
        have hpay₁ := (pendingPayloads_mono ((grows_make _).of_ok h)).trans hpay
        have hlow : Yields getObject payloads t t₁ r (.node f.lt f.key f.value a) :=
          make_yields hcf hf.2.1 hs.2.1 hmake hpay₁
        rw [hlow.id_eq] at h
        rw [linkRight, if_pos hhigher]
        exact (make_yields hcf hlow.holds (hlow.evolves.holds _ hs.2.2) h hpay).after hlow.evolves
    · have hhigher' : ¬ higher priority (rootNode a k v b)
          (f.step.withChild (treeId (.node a k v b))) := by
        rw [higher_iff_higher, hkey]
        exact hhigher
      rw [if_neg hhigher'] at h
      rw [linkLeft, linkRight, if_neg hhigher, if_neg hhigher]
      exact hplain h

theorem rebuild_yields (hcf : CollisionFree payloads) {frames : List Frame}
    (hframes : ∀ f ∈ frames, Holds getObject payloads t f.tree)
    (hs : Holds getObject payloads t s)
    (h : rebuild getObject priority (frames.map Frame.step) (treeId s) t = .ok id t')
    (hpay : t'.pendingPayloads ⊆ payloads) :
    Yields getObject payloads t t' id (plug priority frames s) := by
  induction frames generalizing t s with
  | nil =>
    obtain ⟨rfl, rfl⟩ := Outcome.run_pure_eq_ok.mp h
    exact ⟨rfl, hs, .refl _⟩
  | cons f frames ih =>
    obtain ⟨r, t₁, hraise, h⟩ := Outcome.run_bind_eq_ok.mp h
    have hpay₁ := (pendingPayloads_mono ((grows_rebuild _ _).of_ok h)).trans hpay
    have hyields := raise_yields hcf (hframes f (by simp)) hs hraise hpay₁
    rw [hyields.id_eq] at h
    refine (ih (fun f' hf' => hyields.evolves.holds _ (hframes f' (by simp [hf'])))
      hyields.holds h).after hyields.evolves

/-- `set` on the identity of a held treap yields the identity of the edited treap. -/
theorem set_yields (hcf : CollisionFree payloads) (hwf : Wf priority s)
    (hs : Holds getObject payloads t s) {key : Bytes} {value : Option Hash}
    (h : set getObject priority (treeId s) key value t = .ok id t')
    (hpay : t'.pendingPayloads ⊆ payloads) :
    Yields getObject payloads t t' id (Treap.set priority s key value) := by
  have hfind := value_search (s := s) key []
  have hnil : ∀ f ∈ ([] : List Frame), Holds getObject payloads t f.tree := by simp
  obtain ⟨hsub, hframes⟩ := holds_search hs key hnil
  have hwfsub := wf_search hwf key []
  have hplug := plug_search priority s key value []
  rw [set, ← List.map_nil (f := Frame.step), descend_treeId hcf hwf hs key ∅ (by simp) []] at h
  generalize search s key [] = result at h hfind hsub hframes hwfsub hplug
  obtain ⟨sub, frames⟩ := result
  change plug priority frames (replacement priority key value sub) =
    Treap.set priority s key value at hplug
  cases sub with
  | leaf =>
    cases value with
    | none =>
      cases h
      have hkey : key ∉ s.keys := (find?_eq_none_iff hwf).mp hfind.symm
      rw [hwf.set_none_of_notMem hkey]
      exact ⟨rfl, hs, .refl _⟩
    | some v =>
      obtain ⟨r, t₁, hmake, h⟩ := Outcome.run_bind_eq_ok.mp h
      have hpay₁ := (pendingPayloads_mono ((grows_rebuild _ _).of_ok h)).trans hpay
      have hnew : Yields getObject payloads t t₁ r (.node .leaf key v .leaf) :=
        make_yields hcf trivial trivial hmake hpay₁
      rw [hnew.id_eq] at h
      rw [← hplug]
      exact (rebuild_yields hcf (fun f hf => hnew.evolves.holds _ (hframes f hf))
        hnew.holds h hpay).after hnew.evolves
  | node l k v r =>
    cases value with
    | none =>
      obtain ⟨r', t₁, hmerge, h⟩ := Outcome.run_bind_eq_ok.mp h
      have hpay₁ := (pendingPayloads_mono ((grows_rebuild _ _).of_ok h)).trans hpay
      obtain ⟨hwfl, hwfr, hlk, hkr⟩ := hwfsub
      have hnew : Yields getObject payloads t t₁ r' (Treap.merge priority l r) :=
        merge_yields hcf hwfl hwfr hsub.2.1 hsub.2.2
          (fun x hx y hy => (hlk x hx).1.trans (hkr y hy).1) hmerge hpay₁
      rw [hnew.id_eq] at h
      rw [← hplug]
      exact (rebuild_yields hcf (fun f hf => hnew.evolves.holds _ (hframes f hf))
        hnew.holds h hpay).after hnew.evolves
    | some v' =>
      dsimp only [rootOf] at h
      split at h
      next heq =>
        cases h
        have hmem : (key, v') ∈ s.toList := (find?_eq_some_iff hwf).mp (hfind.symm.trans (by rw [← heq]; rfl))
        rw [hwf.set_some_of_mem hmem]
        exact ⟨rfl, hs, .refl _⟩
      next hne =>
        obtain ⟨r', t₁, hmake, h⟩ := Outcome.run_bind_eq_ok.mp h
        have hpay₁ := (pendingPayloads_mono ((grows_rebuild _ _).of_ok h)).trans hpay
        have hnew : Yields getObject payloads t t₁ r' (.node l k v' r) :=
          make_yields hcf hsub.2.1 hsub.2.2 hmake hpay₁
        rw [hnew.id_eq] at h
        rw [← hplug]
        exact (rebuild_yields hcf (fun f hf => hnew.evolves.holds _ (hframes f hf))
          hnew.holds h hpay).after hnew.evolves

/-- Applying changes one after the other to a tree. -/
def applyAll (priority : Bytes → Hash) (s : KeyTree Bytes Hash)
    (changes : List (Bytes × Option Hash)) : KeyTree Bytes Hash :=
  changes.foldl (fun s change => Treap.set priority s change.1 change.2) s

omit [Digest] in
theorem wf_applyAll (h : Wf priority s) (changes : List (Bytes × Option Hash)) :
    Wf priority (applyAll priority s changes) := by
  induction changes generalizing s with
  | nil => exact h
  | cons change changes ih => exact ih (h.set _ _)

theorem setAll_yields (hcf : CollisionFree payloads) (hwf : Wf priority s)
    (hs : Holds getObject payloads t s) {changes : List (Bytes × Option Hash)}
    (h : setAll getObject priority changes (treeId s) t = .ok id t')
    (hpay : t'.pendingPayloads ⊆ payloads) :
    Yields getObject payloads t t' id (applyAll priority s changes) := by
  induction changes generalizing t s with
  | nil =>
    obtain ⟨rfl, rfl⟩ := Outcome.run_pure_eq_ok.mp h
    exact ⟨rfl, hs, .refl _⟩
  | cons change changes ih =>
    obtain ⟨r, t₁, hset, h⟩ := Outcome.run_bind_eq_ok.mp h
    have hpay₁ := (pendingPayloads_mono ((grows_setAll _ _).of_ok h)).trans hpay
    have hyields := set_yields hcf hwf hs hset hpay₁
    rw [hyields.id_eq] at h
    exact (ih (hwf.set _ _) hyields.holds h).after hyields.evolves

end Specifications

end MetadataTree

end ForkFs
