import ForkFs.MetadataTree.Publication

/-!
# Valid batches are carried out

On a held treap the edits of a valid batch never fail: every node they read is held, and every
node they make has a valid entry. So a batch is rejected by the checks of its changes, for a
missing namespace root, or because the edited treap is too high, and it is rejected then.
-/

namespace ForkFs

open Bytes Treap Treap.KeyTree

namespace MetadataTree

variable [Digest] {getObject : Hash → Except String Bytes} {priority : Bytes → Hash}
  {payloads : Set Bytes} {t t' : MetadataTree} {s : KeyTree Bytes Hash} {changes : TreeChanges}

section Edits

theorem make_returns {n : Node} (h : n.Valid) (t : MetadataTree) : ∃ id t', make n t = .ok id t' :=
  ⟨_, _, make_eq_ok.mpr ⟨h, rfl, rfl⟩⟩

theorem valid_withChild {f : Frame} (h : Holds getObject payloads t f.tree) (child : Hash) :
    (f.step.withChild child).Valid := by
  unfold Step.withChild
  split <;> exact h.1.valid

theorem mergeUp_returns {frames : List Frame} (h : ∀ f ∈ frames, ∀ child,
    (f.step.withChild child).Valid) (result : Hash) (t : MetadataTree) :
    ∃ id t', mergeUp (frames.map Frame.step) result t = .ok id t' := by
  induction frames generalizing result t with
  | nil => exact ⟨result, t, rfl⟩
  | cons f frames ih =>
    obtain ⟨r, t₁, hmake⟩ := make_returns (h f (by simp) result) t
    obtain ⟨id, t', hrest⟩ := ih (fun f' hf' => h f' (by simp [hf'])) r t₁
    exact ⟨id, t', Outcome.run_bind_eq_ok.mpr ⟨r, t₁, hmake, hrest⟩⟩

theorem merge_returns (hcf : CollisionFree payloads) {a b : KeyTree Bytes Hash}
    (hwfa : Wf priority a) (hwfb : Wf priority b) (ha : Holds getObject payloads t a)
    (hb : Holds getObject payloads t b) (hlt : ∀ x ∈ a.keys, ∀ y ∈ b.keys, x < y) :
    ∃ id t', merge getObject priority (treeId a) (treeId b) t = .ok id t' := by
  have hnil : ∀ f ∈ ([] : List Frame), Holds getObject payloads t f.tree := by simp
  obtain ⟨-, hframes⟩ := holds_mergeSearch ha hb hnil
  rw [merge, ← List.map_nil (f := Frame.step),
    mergePath_treeId hcf hwfa hwfb ha hb hlt ∅ (by simp) []]
  exact mergeUp_returns (fun f hf => valid_withChild (hframes f hf)) _ t

theorem rotate_returns {left : Bool} {n top : Node} (hn : n.Valid) (htop : top.Valid)
    (t : MetadataTree) : ∃ id t', rotate left n top t = .ok id t' := by
  unfold rotate
  split
  · obtain ⟨r, t₁, hlow⟩ := make_returns (n := { n with left := top.right }) hn t
    obtain ⟨id, t', hhigh⟩ := make_returns (n := { top with right := r }) htop t₁
    exact ⟨id, t', Outcome.run_bind_eq_ok.mpr ⟨r, t₁, hlow, hhigh⟩⟩
  · obtain ⟨r, t₁, hlow⟩ := make_returns (n := { n with right := top.left }) hn t
    obtain ⟨id, t', hhigh⟩ := make_returns (n := { top with left := r }) htop t₁
    exact ⟨id, t', Outcome.run_bind_eq_ok.mpr ⟨r, t₁, hlow, hhigh⟩⟩

theorem raise_returns (hcf : CollisionFree payloads) {f : Frame}
    (hf : Holds getObject payloads t f.tree) (hs : Holds getObject payloads t s) :
    ∃ id t', raise getObject priority f.step (treeId s) t = .ok id t' := by
  have hvalid := valid_withChild hf (treeId s)
  unfold raise
  cases s with
  | leaf =>
    rw [if_pos treeId_leaf]
    exact make_returns hvalid t
  | node l k v r =>
    rw [if_neg (treeId_ne_zero hcf hs), hs.1.read]
    dsimp only
    split
    · exact rotate_returns hvalid hs.1.valid t
    · exact make_returns hvalid t

theorem rebuild_returns (hcf : CollisionFree payloads) {frames : List Frame}
    (hframes : ∀ f ∈ frames, Holds getObject payloads t f.tree)
    (hs : Holds getObject payloads t s)
    (hpay : (Outcome.after (rebuild getObject priority (frames.map Frame.step) (treeId s))
      t).pendingPayloads ⊆ payloads) :
    ∃ id t', rebuild getObject priority (frames.map Frame.step) (treeId s) t = .ok id t' := by
  induction frames generalizing t s with
  | nil => exact ⟨_, t, rfl⟩
  | cons f frames ih =>
    obtain ⟨r, t₁, hraise⟩ : ∃ r t₁, raise getObject priority f.step (treeId s) t = .ok r t₁ :=
      raise_returns hcf (hframes f (by simp)) hs
    have hrest : Outcome.after (rebuild getObject priority ((f :: frames).map Frame.step) (treeId s))
        t = Outcome.after (rebuild getObject priority (frames.map Frame.step) r) t₁ :=
      Outcome.after_bind_of_ok hraise
    rw [hrest] at hpay
    have hpay₁ := (pendingPayloads_mono ((grows_rebuild _ r).after t₁)).trans hpay
    have hyields := raise_yields hcf (hframes f (by simp)) hs hraise hpay₁
    have hframes₁ : ∀ f' ∈ frames, Holds getObject payloads t₁ f'.tree := fun f' hf' =>
      hyields.evolves.holds _ (hframes f' (by simp [hf']))
    rw [hyields.id_eq] at hpay hraise
    obtain ⟨id, t', h⟩ := ih hframes₁ hyields.holds hpay
    exact ⟨id, t', Outcome.run_bind_eq_ok.mpr ⟨_, t₁, hraise, h⟩⟩

/-- What follows an edit that returns is rebuilt. -/
theorem bind_rebuild_returns (hcf : CollisionFree payloads) {x : EStateM String MetadataTree Hash}
    {frames : List Frame} {s' : KeyTree Bytes Hash} {id : Hash} {t₁ : MetadataTree}
    (hframes : ∀ f ∈ frames, Holds getObject payloads t f.tree) (hx : x t = .ok id t₁)
    (hyields : t₁.pendingPayloads ⊆ payloads → Yields getObject payloads t t₁ id s')
    (hpay : (Outcome.after (x >>= fun result =>
      rebuild getObject priority (frames.map Frame.step) result) t).pendingPayloads ⊆ payloads) :
    ∃ id t', (x >>= fun result =>
      rebuild getObject priority (frames.map Frame.step) result) t = .ok id t' := by
  rw [Outcome.after_bind_of_ok hx] at hpay
  have hpay₁ := (pendingPayloads_mono ((grows_rebuild _ id).after t₁)).trans hpay
  obtain ⟨rfl, hholds, hevolves⟩ := hyields hpay₁
  obtain ⟨id', t', h⟩ := rebuild_returns hcf (fun f hf => hevolves.holds _ (hframes f hf)) hholds hpay
  exact ⟨id', t', Outcome.run_bind_eq_ok.mpr ⟨_, t₁, hx, h⟩⟩

/-- A valid edit of a held treap returns. -/
theorem set_returns (hcf : CollisionFree payloads) (hwf : Wf priority s)
    (hs : Holds getObject payloads t s) {key : Bytes} {value : Option Hash} (hkey : validKey key)
    (hvalue : value ≠ some Hash.zero)
    (hpay : (Outcome.after (set getObject priority (treeId s) key value) t).pendingPayloads ⊆
      payloads) :
    ∃ id t', set getObject priority (treeId s) key value t = .ok id t' := by
  have hnil : ∀ f ∈ ([] : List Frame), Holds getObject payloads t f.tree := by simp
  obtain ⟨hsub, hframes⟩ := holds_search hs key hnil
  have hwfsub := wf_search hwf key []
  have hdescend := descend_treeId hcf hwf hs key ∅ (by simp) []
  rw [List.map_nil] at hdescend
  unfold Outcome.after at hpay
  rw [set, hdescend] at hpay ⊢
  generalize search s key [] = result at hpay hsub hframes hwfsub ⊢
  obtain ⟨sub, frames⟩ := result
  cases sub with
  | leaf =>
    cases value with
    | none => exact ⟨_, t, rfl⟩
    | some v =>
      obtain ⟨r, t₁, hmake⟩ := make_returns (n := ⟨key, v, Hash.zero, Hash.zero⟩)
        ⟨hkey, fun hzero => hvalue (congrArg some hzero)⟩ t
      have hnew : t₁.pendingPayloads ⊆ payloads →
          Yields getObject payloads t t₁ r (.node .leaf key v .leaf) :=
        make_yields hcf trivial trivial hmake
      exact bind_rebuild_returns hcf hframes hmake hnew hpay
  | node l k v r =>
    obtain ⟨hwfl, hwfr, hlk, hkr⟩ := hwfsub
    cases value with
    | none =>
      have hlt : ∀ x ∈ l.keys, ∀ y ∈ r.keys, x < y := fun x hx y hy =>
        (hlk x hx).1.trans (hkr y hy).1
      obtain ⟨r', t₁, hmerge⟩ := merge_returns hcf hwfl hwfr hsub.2.1 hsub.2.2 hlt
      exact bind_rebuild_returns hcf hframes hmerge
        (merge_yields hcf hwfl hwfr hsub.2.1 hsub.2.2 hlt hmerge) hpay
    | some v' =>
      dsimp only [rootOf] at hpay ⊢
      split
      · exact ⟨_, t, rfl⟩
      · rename_i hne
        rw [if_neg hne] at hpay
        obtain ⟨r', t₁, hmake⟩ := make_returns (n := rootNode l k v' r)
          ⟨hsub.1.valid.1, fun hzero => hvalue (congrArg some hzero)⟩ t
        exact bind_rebuild_returns hcf hframes hmake (make_yields hcf hsub.2.1 hsub.2.2 hmake) hpay

/-- The edits of a valid batch return. -/
theorem setAll_returns (hcf : CollisionFree payloads) (hwf : Wf priority s)
    (hs : Holds getObject payloads t s) {changes : List (Bytes × Option Hash)}
    (hvalid : ∀ change ∈ changes, validKey change.1 ∧ change.2 ≠ some Hash.zero)
    (hpay : (Outcome.after (setAll getObject priority changes (treeId s)) t).pendingPayloads ⊆
      payloads) :
    ∃ id t', setAll getObject priority changes (treeId s) t = .ok id t' := by
  induction changes generalizing t s with
  | nil => exact ⟨_, t, rfl⟩
  | cons change changes ih =>
    obtain ⟨hkey, hvalue⟩ := hvalid change (by simp)
    have hfirst := (pendingPayloads_mono
      (grows_bind_left (grows_setAll changes) t)).trans hpay
    obtain ⟨r, t₁, hset⟩ := set_returns hcf hwf hs hkey hvalue hfirst
    have hrest : Outcome.after (setAll getObject priority (change :: changes) (treeId s)) t =
        Outcome.after (setAll getObject priority changes r) t₁ := Outcome.after_bind_of_ok hset
    rw [hrest] at hpay
    rw [Outcome.after_of_ok hset] at hfirst
    have hyields := set_yields hcf hwf hs hset hfirst
    rw [hyields.id_eq] at hpay hset
    obtain ⟨id, t', h⟩ := ih (hwf.set _ _) hyields.holds
      (fun change' hchange' => hvalid change' (by simp [hchange'])) hpay
    exact ⟨id, t', Outcome.run_bind_eq_ok.mpr ⟨_, t₁, hset, h⟩⟩

end Edits

section Batches

/-- The checks of the changes of a batch pass. -/
def ValidChanges (changes : TreeChanges) : Prop :=
  ∀ change ∈ changes.toList, validKey change.1 ∧ change.2 ≠ some Hash.zero ∧
    (change.1 ≠ namespaceRoot ∨ change.2.isSome)

/-- A batch keeps or binds the namespace root. -/
def KeepsRoot (s : KeyTree Bytes Hash) (changes : TreeChanges) : Prop :=
  namespaceRoot ∈ changes ∨ (find? s namespaceRoot).isSome

/-- The checks of a batch and its edits. The result is the candidate for the new root. -/
def edit (getObject : Hash → Except String Bytes) (priority : Bytes → Hash)
    (changes : TreeChanges) : EStateM String MetadataTree Hash := fun t =>
  (do
    attempt (changes.toList.forM checkChange)
    attempt (t.checkRoot getObject changes)
    setAll getObject priority changes.toList t.root) t

/-- A batch is edited, its height is checked, and its nodes are planned. -/
theorem apply_eq_edit :
    apply getObject priority changes t =
      match edit getObject priority changes t with
      | .error message t' => .error message t'
      | .ok candidate edited =>
        match edited.checkHeight getObject candidate with
        | .error message => .error message edited
        | .ok _ =>
          match edited.collect getObject 257 candidate (∅, []) with
          | .error message => .error message edited
          | .ok (_, objects) =>
            .ok ⟨manifest candidate, objects⟩ { edited with root := candidate } := by
  unfold apply edit
  cases hchecks : changes.toList.forM checkChange with
  | error message => rw [attempt_bind_of_error rfl, attempt_bind_of_error rfl]
  | ok u =>
    rw [attempt_bind_of_ok rfl, attempt_bind_of_ok rfl]
    cases hroot : t.checkRoot getObject changes with
    | error message => rw [attempt_bind_of_error rfl, attempt_bind_of_error rfl]
    | ok u =>
      rw [attempt_bind_of_ok rfl, attempt_bind_of_ok rfl]
      cases hset : setAll getObject priority changes.toList t.root t with
      | error message t' =>
        change EStateM.bind _ _ _ = _
        rw [EStateM.bind, hset]
      | ok candidate edited =>
        rw [Outcome.bind_of_ok hset]
        change (attempt (edited.checkHeight getObject candidate) >>= _) edited = _
        dsimp only
        cases hheight : edited.checkHeight getObject candidate with
        | error message => rw [attempt_bind_of_error rfl]
        | ok u =>
          rw [attempt_bind_of_ok rfl]
          cases hcollect : edited.collect getObject 257 candidate (∅, []) with
          | error message => rw [attempt_bind_of_error rfl]
          | ok found => rfl

omit [Digest] in
theorem forM_checkChange {l : List (Bytes × Option Hash)} :
    l.forM checkChange = .ok () ↔ ∀ change ∈ l, validKey change.1 ∧ change.2 ≠ some Hash.zero ∧
      (change.1 ≠ namespaceRoot ∨ change.2.isSome) := by
  rw [Outcome.forM_eq_ok]
  refine forall₂_congr fun change _ => ?_
  unfold checkChange
  rw [need_bind_eq_ok, need_bind_eq_ok, need_eq_ok]

theorem checkRoot_eq_ok (hcf : CollisionFree payloads)
    (ht : Editing getObject priority payloads t s) :
    t.checkRoot getObject changes = .ok () ↔ KeepsRoot s changes := by
  unfold checkRoot KeepsRoot
  split
  · simp [*]
  · rename_i hmem
    rw [lookup_treeId hcf ht.holds ht.height ht.root, Outcome.ok_bind, need_eq_ok, or_iff_right hmem]

/-- The edits of a batch take place exactly if its checks pass, and nothing changes otherwise. -/
theorem edit_spec (hcf : CollisionFree payloads) (ht : Editing getObject priority payloads t s)
    (hpay : (Outcome.after (edit getObject priority changes) t).pendingPayloads ⊆ payloads) :
    (ValidChanges changes ∧ KeepsRoot s changes ∧ ∃ candidate edited,
      edit getObject priority changes t = .ok candidate edited ∧
        Yields getObject payloads t edited candidate (applyAll priority s changes.toList)) ∨
    (¬ (ValidChanges changes ∧ KeepsRoot s changes) ∧ ∃ message,
      edit getObject priority changes t = .error message t) := by
  by_cases hvalid : ValidChanges changes
  swap
  · refine Or.inr ⟨fun h => hvalid h.1, ?_⟩
    cases hchecks : changes.toList.forM checkChange with
    | error message => exact ⟨message, attempt_bind_of_error hchecks⟩
    | ok u => exact absurd (forM_checkChange.mp hchecks) hvalid
  have hchecks := forM_checkChange.mpr hvalid
  by_cases hroot : KeepsRoot s changes
  swap
  · refine Or.inr ⟨fun h => hroot h.2, ?_⟩
    cases hcheck : t.checkRoot getObject changes with
    | error message =>
      exact ⟨message, (attempt_bind_of_ok hchecks).trans (attempt_bind_of_error hcheck)⟩
    | ok u => exact absurd ((checkRoot_eq_ok hcf ht).mp hcheck) hroot
  left
  have hchecked : edit getObject priority changes t =
      setAll getObject priority changes.toList (treeId s) t := by
    rw [← ht.root]
    exact (attempt_bind_of_ok hchecks).trans
      (attempt_bind_of_ok ((checkRoot_eq_ok hcf ht).mpr hroot))
  unfold Outcome.after at hpay
  rw [hchecked] at hpay ⊢
  obtain ⟨candidate, edited, hset⟩ := setAll_returns hcf ht.wf ht.holds
    (fun change hchange => ⟨(hvalid change hchange).1, (hvalid change hchange).2.1⟩) hpay
  rw [hset] at hpay
  exact ⟨hvalid, hroot, candidate, edited, hset, setAll_yields hcf ht.wf ht.holds hset hpay⟩

end Batches

end MetadataTree

end ForkFs
