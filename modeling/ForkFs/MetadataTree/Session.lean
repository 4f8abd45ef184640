import ForkFs.MetadataTree.Publication

/-!
# Editor sessions

A session is one editor that applies batches while some of its plans are published to the
store it reads from. Whichever plans stay unpublished, the last one makes the whole result
readable by a fresh editor. Since a treap is determined by its entries, the root and the manifest
do not depend on the history that led to a map.
-/

namespace ForkFs

open Bytes Treap Treap.KeyTree

namespace MetadataTree

section Sessions

variable [Digest] {priority : Bytes → Hash} {payloads : Set Bytes} {t t' : MetadataTree}
  {s : KeyTree Bytes Hash} {changes : TreeChanges} {plan : Plan} {store store' : ObjectStore}

/-- One batch of a session and whether its plan is published before the next batch. -/
structure Batch where
  /-- The changes of the batch. -/
  changes : TreeChanges
  /-- Whether the plan's objects are added to the store. -/
  published : Bool

/-- Apply batches with one editor on a store that receives the published plans. -/
def session (priority : Bytes → Hash) :
    List Batch → ObjectStore → MetadataTree → Except String (ObjectStore × MetadataTree)
  | [], store, t => .ok (store, t)
  | batch :: batches, store, t =>
    match apply store.object priority batch.changes t with
    | .error e _ => .error e
    | .ok plan t =>
      session priority batches (if batch.published then store.putAll plan.objects else store) t

variable {batches : List Batch}

theorem pending_session (h : session priority batches store t = .ok (store', t')) :
    t.pending <+: t'.pending := by
  induction batches generalizing store t with
  | nil =>
    cases h
    exact List.prefix_rfl
  | cons batch batches ih =>
    unfold session at h
    split at h
    · cases h
    · rename_i hplan
      exact (pending_apply hplan).trans (ih h)

theorem setAll_singleton (getObject : Hash → Except String Bytes) (change : Bytes × Option Hash)
    (candidate : Hash) :
    setAll getObject priority [change] candidate =
      set getObject priority candidate change.1 change.2 := by
  simp [setAll]

theorem setAll_cons {getObject : Hash → Except String Bytes} {change : Bytes × Option Hash}
    {rest : List (Bytes × Option Hash)} {candidate id : Hash}
    (h : set getObject priority candidate change.1 change.2 t = .ok id t') :
    setAll getObject priority (change :: rest) candidate t =
      setAll getObject priority rest id t' := by
  change EStateM.bind _ _ _ = _
  unfold EStateM.bind
  rw [h]

/-- The trees of a session. -/
def sessionTree (priority : Bytes → Hash) (s : KeyTree Bytes Hash) (batches : List Batch) :
    KeyTree Bytes Hash :=
  batches.foldl (fun s batch => applyAll priority s batch.changes.toList) s

/-- A session only adds objects, and its editor holds the edited treap throughout. -/
theorem session_spec (hcf : CollisionFree payloads) (hstore : store.contents ⊆ payloads)
    (ht : Editing store.object priority payloads t s)
    (h : session priority batches store t = .ok (store', t'))
    (hpay : t'.pendingPayloads ⊆ payloads) :
    store.Extends store' ∧ store'.contents ⊆ payloads ∧
      Editing store'.object priority payloads t' (sessionTree priority s batches) := by
  induction batches generalizing store t s with
  | nil =>
    cases h
    exact ⟨.refl _, hstore, ht⟩
  | cons batch batches ih =>
    unfold session at h
    split at h
    · cases h
    · rename_i plan t₁ hplan
      have hpay₁ : t₁.pendingPayloads ⊆ payloads :=
        (pendingPayloads_mono (pending_session h)).trans hpay
      have ht₁ := (apply_spec hcf ht hplan hpay₁).1
      cases hpublished : batch.published with
      | false =>
        simp only [hpublished, Bool.false_eq_true, if_false] at h
        exact ih hstore ht₁ h
      | true =>
        simp only [hpublished, if_true] at h
        have hext := store.extends_putAll plan.objects
        have hcontents := (published hcf hstore ht hplan hpay₁).2
        obtain ⟨hext', hcontents', ht'⟩ := ih hcontents (ht₁.mono hext) h
        exact ⟨hext.trans hext', hcontents', ht'⟩

omit [Digest] in
theorem find?_sessionTree {m : StdMap Bytes Hash} (hwf : Wf priority s)
    (hm : ∀ key : Bytes, m[key]? = find? s key) (batches : List Batch) (key : Bytes) :
    (batches.foldl (fun m batch => m.override batch.changes) m)[key]? =
      find? (sessionTree priority s batches) key := by
  induction batches generalizing m s with
  | nil => exact hm key
  | cons batch batches ih =>
    exact ih (wf_applyAll hwf _) fun x => find?_applyAll hwf hm batch.changes x

/-- Publishing the last plan of a session makes the whole result readable.

The tree is closed under child references, its entries are the original ones overridden by the
batches in order, every lookup agrees with them, and the old root still has its own entries. -/
theorem entries_of_published_session {root : Hash} {entries : StdMap Bytes Hash}
    (hentries : (new root).entries store.object priority = .ok entries)
    (hsession : session priority batches store (new root) = .ok (store', t))
    (hlast : apply store'.object priority changes t = .ok plan t')
    (hcf : CollisionFree (store.contents ∪ t'.pendingPayloads)) :
    let final := store'.putAll plan.objects
    let result := (batches.foldl (fun m batch => m.override batch.changes) entries).override changes
    plan.manifest = manifest t'.root ∧
      (∀ id, NodeReachable final.object t'.root id →
        ∃ n, (final.object id >>= Node.decode) = .ok n) ∧
      (new t'.root).entries final.object priority = .ok result ∧
      (∀ key : Bytes, (new t'.root).lookup final.object key = .ok result[key]?) ∧
      (new root).entries final.object priority = .ok entries := by
  intro final result
  obtain ⟨s, hs, rfl⟩ := persisted_of_entries store.checked_object hentries
  have hpay : t'.pendingPayloads ⊆ store.contents ∪ t'.pendingPayloads := Set.subset_union_right
  have hpending := pendingPayloads_mono (pending_apply hlast)
  obtain ⟨hext, hcontents, ht⟩ := session_spec hcf Set.subset_union_left
    (hs.editing fun _ _ h => Or.inl (ObjectStore.mem_contents_of_object h)) hsession
    (hpending.trans hpay)
  obtain ⟨hfinal, hfinal_contents⟩ := published hcf hcontents ht hlast hpay
  have hmem : ∀ id b, final.object id = .ok b → b ∈ store.contents ∪ t'.pendingPayloads :=
    fun _ _ h => hfinal_contents (ObjectStore.mem_contents_of_object h)
  have hmap : ∀ key : Bytes, result[key]? =
      find? (applyAll priority (sessionTree priority s batches) changes.toList) key :=
    find?_applyAll ht.wf
      (find?_sessionTree hs.wf (getElem?_emplaceAll_toList hs.wf) batches) changes
  refine ⟨(apply_spec hcf ht hlast hpay).2.1, fun id => hfinal.decode_of_reachable, ?_, ?_, ?_⟩
  · rw [hfinal.entries hcf hmem]
    congr 1
    apply StdMap.ext
    intro key
    rw [getElem?_emplaceAll_toList hfinal.wf, hmap]
  · intro key
    have hediting := hfinal.editing hmem
    rw [hmap, lookup_treeId hcf hediting.holds hediting.height hediting.root]
  · exact (hs.mono (hext.trans (store'.extends_putAll plan.objects))).entries hcf hmem

end Sessions

section Samples

local instance : Digest := sha256

/-- A value identity of the sample trees. -/
def sampleValue (n : UInt8) : Hash := ⟨List.replicate 32 n, by simp⟩

/-- A key besides the namespace root. -/
def sampleKey : Bytes := namespacePrefix ++ ascii "a"

/-- A tree of one node. -/
def sampleNode (n : UInt8) : Node := ⟨namespaceRoot, sampleValue n, Hash.zero, Hash.zero⟩

/-- A store with a tree of one node. -/
def sampleStore : ObjectStore := ObjectStore.empty.put (sampleNode 1).encode

/-- What remains of a batch after an edit, evaluated, with a check of the resulting editor. -/
def finishes (store : ObjectStore) (check : MetadataTree → Bool)
    (edit : EStateM.Result String MetadataTree Hash) : Bool :=
  match edit with
  | .error _ _ => false
  | .ok id t =>
    decide (t.checkHeight store.object id = .ok ()) &&
      ((t.collect store.object 257 id (∅, [])).isOk && check { t with root := id })

/-- A batch whose edit finishes succeeds. -/
theorem apply_of_finishes {priority : Bytes → Hash} {store : ObjectStore} {t : MetadataTree}
    {changes : TreeChanges} {check : MetadataTree → Bool}
    (hchecks : changes.toList.forM checkChange = .ok ())
    (hroot : t.checkRoot store.object changes = .ok ())
    (h : finishes store check (setAll store.object priority changes.toList t.root t) = true) :
    ∃ plan t', apply store.object priority changes t = .ok plan t' ∧ check t' = true := by
  cases hedit : setAll store.object priority changes.toList t.root t with
  | error => simp [hedit, finishes] at h
  | ok id edited =>
    simp only [hedit, finishes, Bool.and_eq_true, decide_eq_true_eq] at h
    obtain ⟨hheight, hcollect, hcheck⟩ := h
    cases hfound : edited.collect store.object 257 id (∅, []) with
    | error => simp [hfound, Except.isOk, Except.toBool] at hcollect
    | ok found =>
      exact ⟨⟨manifest id, found.2⟩, { edited with root := id },
        apply_eq_ok.mpr ⟨hchecks, hroot, id, edited, hedit, hheight, ⟨found.1, hfound⟩, rfl, rfl⟩,
        hcheck⟩

/-- A batch that adds the second key to the sample tree. -/
def sampleInsert : TreeChanges := (∅ : TreeChanges).insert sampleKey (some (sampleValue 2))

/-- The edits of that batch after its search. -/
def sampleEdit : EStateM String MetadataTree Hash := do
  let result ← make ⟨sampleKey, sampleValue 2, Hash.zero, Hash.zero⟩
  rebuild sampleStore.object metadataPriority [⟨sampleNode 1, true⟩] result

theorem setAll_sampleInsert :
    setAll sampleStore.object metadataPriority sampleInsert.toList
      (objectHash (sampleNode 1).encode) (new (objectHash (sampleNode 1).encode)) =
      sampleEdit (new (objectHash (sampleNode 1).encode)) := by
  have hread : (new (objectHash (sampleNode 1).encode)).node sampleStore.object
      (objectHash (sampleNode 1).encode) = .ok (sampleNode 1) := by
    decide +kernel
  have hdescend : descend sampleStore.object (new (objectHash (sampleNode 1).encode)) sampleKey
      (objectHash (sampleNode 1).encode) ∅ [] = .ok (none, [⟨sampleNode 1, true⟩]) := by
    rw [descend.eq_def, if_neg (by decide +kernel), if_neg (by simp), hread]
    dsimp only
    rw [if_neg (by decide +kernel), if_pos (by decide +kernel), descend.eq_def]
    exact if_pos rfl
  have hlist : sampleInsert.toList = [(sampleKey, some (sampleValue 2))] := rfl
  rw [hlist, setAll_singleton, set, hdescend]
  rfl

theorem entries_of_published_session_sample :
    ∃ plan t', apply sampleStore.object metadataPriority sampleInsert
        (new (objectHash (sampleNode 1).encode)) = .ok plan t' ∧
      (new t'.root).entries (sampleStore.putAll plan.objects).object metadataPriority =
        .ok (StdMap.emplaceAll ∅ [(sampleKey, sampleValue 2), (namespaceRoot, sampleValue 1)]) := by
  have hfinishes : finishes sampleStore
      (fun t => decide (NoCollisions ((sampleNode 1).encode :: t.pending)))
      (setAll sampleStore.object metadataPriority sampleInsert.toList
        (objectHash (sampleNode 1).encode) (new (objectHash (sampleNode 1).encode))) = true := by
    rw [setAll_sampleInsert]
    decide +kernel
  have hchecks : sampleInsert.toList.forM checkChange = .ok () := by decide +kernel
  have hroot : (new (objectHash (sampleNode 1).encode)).checkRoot sampleStore.object sampleInsert =
      .ok () := by decide +kernel
  obtain ⟨plan, t', hplan, hcheck⟩ := apply_of_finishes hchecks hroot hfinishes
  have hcf := (of_decide_eq_true hcheck).collisionFree
  refine ⟨plan, t', hplan, ?_⟩
  have hentries : (new (objectHash (sampleNode 1).encode)).entries sampleStore.object metadataPriority =
      .ok (StdMap.emplaceAll ∅ [(namespaceRoot, sampleValue 1)]) := by
    decide +kernel
  have hsession : session metadataPriority [] sampleStore
      (new (objectHash (sampleNode 1).encode)) =
      .ok (sampleStore, new (objectHash (sampleNode 1).encode)) := rfl
  have hfinal := entries_of_published_session hentries hsession hplan (hcf.mono ?_)
  · rw [hfinal.2.2.1]
    exact congrArg Except.ok (by decide +kernel)
  · apply Set.union_subset
    · intro b hb
      have hput := ObjectStore.contents_put_subset hb
      exact List.mem_cons.mpr (Or.inl (by
        simpa [ObjectStore.empty, ObjectStore.contents] using hput))
    · exact fun b hb => List.mem_cons_of_mem _ hb

end Samples

section Histories

variable [Digest] {priority : Bytes → Hash} {payloads : Set Bytes} {t t' : MetadataTree}
  {s : KeyTree Bytes Hash} {changes : TreeChanges} {plan : Plan} {store store' : ObjectStore}
  {batches : List Batch}

/-- Plans made by editors that started from the empty root or from an earlier published plan.

Between two sessions the store may gain any objects whose payloads are among `payloads`. -/
inductive Planned (priority : Bytes → Hash) (payloads : Set Bytes) :
    ObjectStore → MetadataTree → Plan → Prop
  | first {batches : List Batch} {store store' : ObjectStore} {t t' : MetadataTree}
      {changes : TreeChanges} {plan : Plan} (hstore : store.contents ⊆ payloads)
      (hsession : session priority batches store (new Hash.zero) = .ok (store', t))
      (hlast : apply store'.object priority changes t = .ok plan t')
      (hpay : t'.pendingPayloads ⊆ payloads) : Planned priority payloads store' t' plan
  | next {batches : List Batch} {store₀ store store' : ObjectStore} {t₀ t t' : MetadataTree}
      {changes : TreeChanges} {plan₀ plan : Plan} (hplanned : Planned priority payloads store₀ t₀ plan₀)
      (hpublished : (store₀.putAll plan₀.objects).Extends store)
      (hstore : store.contents ⊆ payloads)
      (hsession : session priority batches store (new t₀.root) = .ok (store', t))
      (hlast : apply store'.object priority changes t = .ok plan t')
      (hpay : t'.pendingPayloads ⊆ payloads) : Planned priority payloads store' t' plan

/-- What a session yields from a persisted root. -/
theorem Persisted.session {root : Hash} (hcf : CollisionFree payloads)
    (hs : Persisted store.object priority 256 root s) (hstore : store.contents ⊆ payloads)
    (hsession : session priority batches store (new root) = .ok (store', t))
    (hlast : apply store'.object priority changes t = .ok plan t')
    (hpay : t'.pendingPayloads ⊆ payloads) :
    store'.contents ⊆ payloads ∧ plan.manifest = manifest t'.root ∧ ∃ s,
      Editing store'.object priority payloads t' s ∧
        Persisted (store'.putAll plan.objects).object priority 256 t'.root s := by
  have hpending := (pendingPayloads_mono (pending_apply hlast)).trans hpay
  have hmem : ∀ id b, store.object id = .ok b → b ∈ payloads := fun _ _ h =>
    hstore (ObjectStore.mem_contents_of_object h)
  obtain ⟨-, hcontents, ht⟩ := session_spec hcf hstore (hs.editing hmem) hsession hpending
  obtain ⟨ht', hmanifest, -⟩ := apply_spec hcf ht hlast hpay
  exact ⟨hcontents, hmanifest, _, ht', (published hcf hcontents ht hlast hpay).1⟩

/-- Every planned tree is held by its editor and complete once its plan is published. -/
theorem Planned.editing (hcf : CollisionFree payloads) (h : Planned priority payloads store t plan) :
    store.contents ⊆ payloads ∧ plan.manifest = manifest t.root ∧ ∃ s,
      Editing store.object priority payloads t s ∧
        Persisted (store.putAll plan.objects).object priority 256 t.root s := by
  induction h with
  | first hstore hsession hlast hpay =>
    exact (persisted_leaf 256).session hcf hstore hsession hlast hpay
  | next _ hpublished hstore hsession hlast hpay ih =>
    obtain ⟨-, -, s, -, hs⟩ := ih
    exact (hs.mono hpublished).session hcf hstore hsession hlast hpay

/-- The manifest depends on the entries only, not on the history, the batches or the stores. -/
theorem manifest_eq_of_entries_eq {payloads₁ payloads₂ : Set Bytes} {store₁ store₂ : ObjectStore}
    {t₁ t₂ : MetadataTree} {plan₁ plan₂ : Plan} {entries : StdMap Bytes Hash}
    (hcf₁ : CollisionFree payloads₁) (hcf₂ : CollisionFree payloads₂)
    (h₁ : Planned priority payloads₁ store₁ t₁ plan₁)
    (h₂ : Planned priority payloads₂ store₂ t₂ plan₂)
    (hentries₁ : t₁.entries store₁.object priority = .ok entries)
    (hentries₂ : t₂.entries store₂.object priority = .ok entries) :
    plan₁.manifest = plan₂.manifest ∧ t₁.root = t₂.root := by
  obtain ⟨-, hmanifest₁, s₁, hs₁, -⟩ := h₁.editing hcf₁
  obtain ⟨-, hmanifest₂, s₂, hs₂, -⟩ := h₂.editing hcf₂
  have hfind : ∀ {payloads : Set Bytes} {store : ObjectStore} {t : MetadataTree}
      {s : KeyTree Bytes Hash}, CollisionFree payloads →
      Editing store.object priority payloads t s →
      t.entries store.object priority = .ok entries → ∀ key : Bytes, entries[key]? = find? s key := by
    intro payloads store t s hcf hs hentries key
    rw [entries_treeId hcf hs.wf hs.holds hs.height hs.root] at hentries
    rw [← Except.ok.inj hentries, getElem?_emplaceAll_toList hs.wf]
  have heq : s₁ = s₂ := by
    apply hs₁.wf.ext hs₂.wf
    intro e
    rw [← find?_eq_some_iff hs₁.wf, ← find?_eq_some_iff hs₂.wf, ← hfind hcf₁ hs₁ hentries₁,
      ← hfind hcf₂ hs₂ hentries₂]
  have hroot : t₁.root = t₂.root := by
    rw [hs₁.root, hs₂.root, heq]
  rw [hmanifest₁, hmanifest₂, hroot]
  exact ⟨rfl, rfl⟩

end Histories

section Samples

local instance : Digest := sha256

/-- A batch that binds the namespace root, with more changes. -/
def sampleBind (changes : TreeChanges) : TreeChanges :=
  changes.insert namespaceRoot (some (sampleValue 1))

/-- The entries that the sample histories reach. -/
def sampleEntries : StdMap Bytes Hash := (∅ : StdMap Bytes Hash).insert namespaceRoot (sampleValue 1)

/-- An editor has the sample entries, and no payload of it collides. -/
def reachesSample (t : MetadataTree) : Bool :=
  decide (NoCollisions t.pending) &&
    match t.entries ObjectStore.empty.object metadataPriority with
    | .error _ => false
    | .ok entries => decide (entries = sampleEntries)

theorem entries_of_reachesSample {t : MetadataTree} (h : reachesSample t = true) :
    CollisionFree t.pendingPayloads ∧
      t.entries ObjectStore.empty.object metadataPriority = .ok sampleEntries := by
  unfold reachesSample at h
  simp only [Bool.and_eq_true, decide_eq_true_eq] at h
  refine ⟨h.1.collisionFree, ?_⟩
  cases hentries : t.entries ObjectStore.empty.object metadataPriority with
  | error => simp [hentries] at h
  | ok entries =>
    simp only [hentries, decide_eq_true_eq] at h
    rw [h.2]

theorem descend_zero (getObject : Hash → Except String Bytes) (t : MetadataTree) (key : Bytes) :
    descend getObject t key Hash.zero ∅ [] = .ok (none, []) := by
  rw [descend.eq_def, if_pos rfl]

/-- Binding the namespace root in the empty tree, alone and after deleting an absent key. -/
theorem manifest_eq_of_entries_eq_sample :
    ∃ plan₁ t₁ plan₂ t₂,
      apply ObjectStore.empty.object metadataPriority (sampleBind ∅) (new Hash.zero) = .ok plan₁ t₁ ∧
      apply ObjectStore.empty.object metadataPriority
        (sampleBind ((∅ : TreeChanges).insert sampleKey none)) (new Hash.zero) = .ok plan₂ t₂ ∧
      plan₁.manifest = plan₂.manifest := by
  have hempty {payloads : Set Bytes} : ObjectStore.empty.contents ⊆ payloads := by
    intro b ⟨id, hid⟩
    simp [ObjectStore.empty] at hid
  have hset : set ObjectStore.empty.object metadataPriority Hash.zero namespaceRoot
      (some (sampleValue 1)) (new Hash.zero) = make (sampleNode 1) (new Hash.zero) := by
    rw [set, descend_zero]
    rfl
  have hdelete : set ObjectStore.empty.object metadataPriority Hash.zero sampleKey none
      (new Hash.zero) = .ok Hash.zero (new Hash.zero) := by
    rw [set, descend_zero]
  have hmake : finishes ObjectStore.empty reachesSample (make (sampleNode 1) (new Hash.zero)) =
      true := by
    decide +kernel
  have hfinishes₁ : finishes ObjectStore.empty reachesSample
      (setAll ObjectStore.empty.object metadataPriority (sampleBind ∅).toList Hash.zero
        (new Hash.zero)) = true := by
    have hlist : (sampleBind ∅).toList = [(namespaceRoot, some (sampleValue 1))] := rfl
    rw [hlist, setAll_singleton]
    exact (congrArg _ hset).trans hmake
  have hfinishes₂ : finishes ObjectStore.empty reachesSample
      (setAll ObjectStore.empty.object metadataPriority
        (sampleBind ((∅ : TreeChanges).insert sampleKey none)).toList Hash.zero
        (new Hash.zero)) = true := by
    have hlist : (sampleBind ((∅ : TreeChanges).insert sampleKey none)).toList =
        [(sampleKey, none), (namespaceRoot, some (sampleValue 1))] := rfl
    rw [hlist, setAll_cons hdelete, setAll_singleton]
    exact (congrArg _ hset).trans hmake
  have hroot (changes : TreeChanges) :
      (new Hash.zero).checkRoot ObjectStore.empty.object (sampleBind changes) = .ok () :=
    if_pos (by simp [sampleBind])
  obtain ⟨plan₁, t₁, hplan₁, hcheck₁⟩ :=
    apply_of_finishes (by decide +kernel) (hroot ∅) hfinishes₁
  obtain ⟨plan₂, t₂, hplan₂, hcheck₂⟩ :=
    apply_of_finishes (by decide +kernel) (hroot _) hfinishes₂
  have hsession : session metadataPriority [] ObjectStore.empty (new Hash.zero) =
      .ok (ObjectStore.empty, new Hash.zero) := rfl
  refine ⟨plan₁, t₁, plan₂, t₂, hplan₁, hplan₂, ?_⟩
  obtain ⟨hcf₁, hentries₁⟩ := entries_of_reachesSample hcheck₁
  obtain ⟨hcf₂, hentries₂⟩ := entries_of_reachesSample hcheck₂
  exact (manifest_eq_of_entries_eq hcf₁ hcf₂
    (.first hempty hsession hplan₁ subset_rfl)
    (.first hempty hsession hplan₂ subset_rfl) hentries₁ hentries₂).1

end Samples

end MetadataTree

end ForkFs
