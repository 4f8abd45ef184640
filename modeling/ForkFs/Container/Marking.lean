import ForkFs.Container.Collect
import ForkFs.Container.Retention

/-!
# Marking

The mark phase of a collection decodes references on its own. On a closed store it follows
exactly the references that the reading code decodes, it ends within its work limit, and the
marked objects are those of roots outside the registry and those that are reached.
-/

namespace ForkFs

open Bytes Treap Treap.KeyTree Outcome

variable [Digest] {payloads : Set Bytes} {s : LevelStore} {id : Hash}

section Expand

/-- The link that a reference of the mark phase stands for. -/
def Trace.link : Trace → Link
  | .revision => .revision
  | .manifest => .manifest
  | .node => .node

omit [Digest] in
theorem extract_eq {b : Bytes} {start : ℕ} (h : start + 32 ≤ b.length) :
    extract b start = .ok (Hash.ofBytes (slice b start 32)) := by
  unfold extract
  rw [need_of ⟨by omega, by omega⟩]
  rfl

omit [Digest] in
theorem mem_trace {kind : Trace} {t : Hash × Trace} :
    t ∈ trace id kind ↔ id ≠ Hash.zero ∧ t = (id, kind) := by
  unfold trace
  split <;> simp [*]

omit [Digest] in
theorem length_trace (id : Hash) (kind : Trace) : (trace id kind).length ≤ 1 := by
  unfold trace
  split <;> simp

/-- What following a reference gives: the values and references that the reading code decodes
from the same object. -/
structure Expands (s : LevelStore) (t : Hash × Trace) (b : Bytes) (marked : List Hash)
    (more : List (Hash × Trace)) : Prop where
  /-- The object. -/
  object : s.objects.object t.1 = .ok b
  /-- The result of the mark phase. -/
  expand : expand t.2 b = .ok (marked, more)
  /-- Marked objects are values. -/
  values : ∀ x ∈ marked, Child s t.2.link t.1 .value x
  /-- References are children. -/
  references : ∀ t' ∈ more, Child s t.2.link t.1 t'.2.link t'.1
  /-- All children are values or references. -/
  complete : ∀ link x, Child s t.2.link t.1 link x →
    link = .value ∧ x ∈ marked ∨ ∃ kind, link = Trace.link kind ∧ (x, kind) ∈ more
  /-- There are at most two references. -/
  bounded : more.length ≤ 2

theorem ne_zero_of_object (hcf : CollisionFree payloads) (hknown : Known s payloads) {b : Bytes}
    (h : s.objects.object id = .ok b) : id ≠ Hash.zero := by
  rw [← s.objects.checked_object id b h]
  exact hcf.ne_zero b (hknown (ObjectStore.mem_contents_of_object h))

theorem expands_revision (hcf : CollisionFree payloads) (hknown : Known s payloads)
    (h : Lineage s.objects id) : ∃ b marked more, Expands s (id, .revision) b marked more := by
  obtain ⟨manifest, parent, sequence, hobject, m, root, t, ht, -⟩ := h.record
  have hlength := length_descriptor manifest parent sequence
  have htag := slice_descriptor_magic manifest parent sequence
  have hparent := slice_descriptor_parent manifest parent sequence
  have hnonzero := ne_zero_of_object hcf hknown ht.manifest
  refine ⟨_, [], trace parent .revision ++ trace manifest .manifest, ⟨hobject, ?_, by simp, ?_, ?_, ?_⟩⟩
  · unfold expand
    dsimp only
    rw [need_of ⟨hlength, htag⟩, ok_bind, extract_eq (by omega), ok_bind, extract_eq (by omega),
      slice_descriptor_manifest, hparent]
    rfl
  · intro t' ht'
    rcases List.mem_append.mp ht' with ht' | ht'
    · obtain ⟨hzero, rfl⟩ := mem_trace.mp ht'
      have hchild := Child.parent (s := s) hobject ⟨hlength, htag⟩ (by rwa [hparent])
      rwa [hparent] at hchild
    · obtain ⟨-, rfl⟩ := mem_trace.mp ht'
      exact .manifest hobject (descriptorManifest_descriptor _ _ _)
  · intro link x hchild
    cases hchild with
    | manifest hobject' hmanifest' =>
      rw [hobject] at hobject'
      cases hobject'
      rw [descriptorManifest_descriptor] at hmanifest'
      cases hmanifest'
      exact Or.inr ⟨.manifest, rfl, List.mem_append_right _ (mem_trace.mpr ⟨hnonzero, rfl⟩)⟩
    | parent hobject' hrecord hzero =>
      rw [hobject] at hobject'
      cases hobject'
      rw [hparent] at hzero ⊢
      exact Or.inr ⟨.revision, rfl, List.mem_append_left _ (mem_trace.mpr ⟨hzero, rfl⟩)⟩
  · have hfirst := length_trace parent .revision
    have hsecond := length_trace manifest .manifest
    rw [List.length_append]
    omega

theorem expands_manifest (h : ∃ m, Version s.objects id m) :
    ∃ b marked more, Expands s (id, .manifest) b marked more := by
  obtain ⟨m, root, t, ht, -⟩ := h
  have hlength := length_manifest root
  refine ⟨_, [], trace root .node, ⟨ht.manifest, ?_, by simp, ?_, ?_, ?_⟩⟩
  · unfold expand
    dsimp only
    rw [need_of ⟨hlength, slice_manifest_magic root⟩, ok_bind, extract_eq (by omega),
      slice_manifest_root]
    rfl
  · intro t' ht'
    obtain ⟨-, rfl⟩ := mem_trace.mp ht'
    exact .tree ht.readManifest
  · intro link x hchild
    cases hchild with
    | tree hroot' =>
      rw [ht.readManifest] at hroot'
      cases hroot'
      exact Or.inr ⟨.node, rfl, mem_trace.mpr ⟨ht.nonzero, rfl⟩⟩
  · exact (length_trace _ _).trans (by decide)

theorem expands_node {l r : KeyTree Bytes Hash} {k : Bytes} {v : Hash}
    (h : StoredTree s.objects (.node l k v r)) :
    ∃ b marked more, Expands s (treeId (.node l k v r), .node) b marked more := by
  have hdecode := MetadataTree.decode_of_stored h.nodes h.valid
  have hvalid : (rootNode l k v r).Valid := h.valid (k, v) (by simp)
  have hlength := (rootNode l k v r).length_encode
  have hkey : load (slice (rootNode l k v r).encode 8 4) = (rootNode l k v r).encode.length - 108 := by
    have hlt : (rootNode l k v r).key.length < 256 ^ 4 := lt_of_le_of_lt hvalid.1.2.1 (by decide)
    rw [Node.slice_encode_length, load_store_of_lt hlt, hlength]
    omega
  refine ⟨_, [v], trace (treeId r) .node ++ trace (treeId l) .node,
    ⟨h.nodes.1, ?_, ?_, ?_, ?_, ?_⟩⟩
  · unfold expand
    dsimp only
    rw [need_of ⟨by omega, Node.slice_encode_magic _, hkey⟩, ok_bind, extract_eq (by omega), ok_bind,
      extract_eq (by omega), ok_bind, extract_eq (by omega), Node.slice_encode_value,
      Node.slice_encode_left, Node.slice_encode_right, Hash.ofBytes_val, Hash.ofBytes_val,
      Hash.ofBytes_val]
    rfl
  · intro x hx
    rw [List.mem_singleton.mp hx]
    exact .value hdecode
  · intro t' ht'
    rcases List.mem_append.mp ht' with ht' | ht'
    · obtain ⟨hzero, rfl⟩ := mem_trace.mp ht'
      exact .right hdecode hzero
    · obtain ⟨hzero, rfl⟩ := mem_trace.mp ht'
      exact .left hdecode hzero
  · intro link x hchild
    cases hchild with
    | left hnode hleft =>
      cases hdecode.symm.trans hnode
      exact Or.inr ⟨.node, rfl, List.mem_append_right _ (mem_trace.mpr ⟨hleft, rfl⟩)⟩
    | right hnode hright =>
      cases hdecode.symm.trans hnode
      exact Or.inr ⟨.node, rfl, List.mem_append_left _ (mem_trace.mpr ⟨hright, rfl⟩)⟩
    | value hnode =>
      cases hdecode.symm.trans hnode
      exact Or.inl ⟨rfl, List.mem_singleton.mpr rfl⟩
  · have hfirst := length_trace (treeId r) .node
    have hsecond := length_trace (treeId l) .node
    rw [List.length_append]
    omega

/-- The mark phase decodes every sound object as the reading code does. -/
theorem expands_of_sound (hcf : CollisionFree payloads) (hknown : Known s payloads)
    {t : Hash × Trace} (h : t.2.link.Sound s.objects t.1) :
    ∃ b marked more, Expands s t b marked more := by
  obtain ⟨id, kind⟩ := t
  cases kind with
  | revision => exact expands_revision hcf hknown h
  | manifest => exact expands_manifest h
  | node =>
    obtain ⟨t, hleaf, rfl, ht⟩ := h
    cases t with
    | leaf => exact absurd rfl hleaf
    | node l k v r => exact expands_node ht

end Expand

section Steps

variable {m m' : Marking}

/-- The objects that a collection keeps. -/
def Live (s : LevelStore) (id : Hash) : Prop :=
  (∃ key : Bytes, s.roots[key]? = some id ∧ ¬ history ++ ascii "object/" <+: key) ∨
    ∃ link, Reached s link id

/-- What holds while references are followed: everything marked is live, and everything that a
followed reference names is marked or noted. -/
structure Marked (s : LevelStore) (m : Marking) : Prop where
  /-- Marked objects are live. -/
  live : ∀ id ∈ m.live, Live s id
  /-- References are reached. -/
  reached : ∀ t, t ∈ m.expanded ∨ t ∈ m.pending → Reached s t.2.link t.1
  /-- Followed references are marked. -/
  marked : ∀ t ∈ m.expanded, t.1 ∈ m.live
  /-- What they name is marked or noted. -/
  closed : ∀ t ∈ m.expanded, ∀ link x, Child s t.2.link t.1 link x →
    link = .value ∧ x ∈ m.live ∨
      ∃ kind, link = Trace.link kind ∧ ((x, kind) ∈ m.expanded ∨ (x, kind) ∈ m.pending)

/-- Marks and notes are never dropped. -/
structure Marking.Grows (m m' : Marking) : Prop where
  live : m.live ⊆ m'.live
  noted : ∀ t, t ∈ m.expanded ∨ t ∈ m.pending → t ∈ m'.expanded ∨ t ∈ m'.pending

omit [Digest] in
theorem Marking.Grows.refl (m : Marking) : m.Grows m := ⟨fun _ h => h, fun _ h => h⟩

omit [Digest] in
theorem Marking.Grows.trans {m'' : Marking} (h : m.Grows m') (h' : m'.Grows m'') : m.Grows m'' :=
  ⟨h.live.trans h'.live, fun t ht => h'.noted t (h.noted t ht)⟩

theorem mark_eq {b : Bytes} (h : s.objects.object id = .ok b) (live : Finset Hash) :
    mark s.catalog live id = .ok (b, insert id live) := by
  unfold mark
  rw [show s.catalog.getObject id = .ok b from h]
  rfl

/-- Marking readable objects adds them. -/
theorem foldlM_mark {marked : List Hash} (h : ∀ x ∈ marked, ∃ b, s.objects.object x = .ok b)
    (live : Finset Hash) :
    ∃ live', marked.foldlM (fun live id => Prod.snd <$> mark s.catalog live id) live = .ok live' ∧
      ∀ x, x ∈ live' ↔ x ∈ live ∨ x ∈ marked := by
  induction marked generalizing live with
  | nil => exact ⟨live, rfl, by simp⟩
  | cons y marked ih =>
    obtain ⟨b, hb⟩ := h y (by simp)
    obtain ⟨live', hfold, hmem⟩ := ih (fun x hx => h x (by simp [hx])) (insert y live)
    refine ⟨live', ?_, fun x => ?_⟩
    · rw [List.foldlM_cons, mark_eq hb]
      exact hfold
    · rw [hmem, Finset.mem_insert, List.mem_cons]
      tauto

variable {next : Hash × Trace} {rest : List (Hash × Trace)}

/-- A reference that was followed before is dropped. -/
theorem Marked.drop (hm : Marked s m) (hpending : m.pending = next :: rest)
    (hmem : next ∈ m.expanded) : Marked s { m with pending := rest } := by
  refine ⟨hm.live, fun t ht => hm.reached t ?_, hm.marked, fun t ht link x hchild => ?_⟩
  · exact ht.imp_right fun ht => by simp [hpending, show t ∈ rest from ht]
  · refine (hm.closed t ht link x hchild).imp_right ?_
    rintro ⟨kind, hlink, hx | hx⟩
    · exact ⟨kind, hlink, Or.inl hx⟩
    · rw [hpending, List.mem_cons] at hx
      rcases hx with hx | hx
      · exact ⟨kind, hlink, Or.inl (by rw [hx]; exact hmem)⟩
      · exact ⟨kind, hlink, Or.inr hx⟩

/-- A reference is followed. -/
theorem Marked.follow (hm : Marked s m) (hpending : m.pending = next :: rest) {b : Bytes}
    {marked : List Hash} {more : List (Hash × Trace)} (hexpands : Expands s next b marked more)
    {live : Finset Hash} (hlive : ∀ x, x ∈ live ↔ x ∈ insert next.1 m.live ∨ x ∈ marked) :
    Marked s ⟨live, insert next m.expanded, more ++ rest⟩ := by
  have hnext : Reached s next.2.link next.1 := hm.reached next (Or.inr (by simp [hpending]))
  have hkept {x : Hash} (hx : x ∈ m.live) : x ∈ live :=
    (hlive x).mpr (Or.inl (Finset.mem_insert_of_mem hx))
  refine ⟨fun id hid => ?_, fun t ht => ?_, fun t ht => ?_, fun t ht link x hchild => ?_⟩
  · rcases (hlive id).mp hid with hid | hid
    · rcases Finset.mem_insert.mp hid with rfl | hid
      · exact Or.inr ⟨_, hnext⟩
      · exact hm.live id hid
    · exact Or.inr ⟨_, hnext.child (hexpands.values id hid)⟩
  · rcases ht with ht | ht
    · rcases Finset.mem_insert.mp ht with rfl | ht
      · exact hnext
      · exact hm.reached t (Or.inl ht)
    · rcases List.mem_append.mp ht with ht | ht
      · exact hnext.child (hexpands.references t ht)
      · exact hm.reached t (Or.inr (by simp [hpending, ht]))
  · rcases Finset.mem_insert.mp ht with rfl | ht
    · exact (hlive _).mpr (Or.inl (Finset.mem_insert_self _ _))
    · exact hkept (hm.marked t ht)
  · rcases Finset.mem_insert.mp ht with rfl | ht
    · rcases hexpands.complete link x hchild with ⟨hvalue, hx⟩ | ⟨kind, hlink, hx⟩
      · exact Or.inl ⟨hvalue, (hlive x).mpr (Or.inr hx)⟩
      · exact Or.inr ⟨kind, hlink, Or.inr (List.mem_append_left _ hx)⟩
    · rcases hm.closed t ht link x hchild with ⟨hvalue, hx⟩ | ⟨kind, hlink, hx | hx⟩
      · exact Or.inl ⟨hvalue, hkept hx⟩
      · exact Or.inr ⟨kind, hlink, Or.inl (Finset.mem_insert_of_mem hx)⟩
      · rw [hpending, List.mem_cons] at hx
        rcases hx with hx | hx
        · exact Or.inr ⟨kind, hlink, Or.inl (by rw [hx]; exact Finset.mem_insert_self _ _)⟩
        · exact Or.inr ⟨kind, hlink, Or.inr (List.mem_append_right _ hx)⟩

/-- Following one reference. -/
theorem markStep_spec (hs : s.Closed) (hcf : CollisionFree payloads) (hknown : Known s payloads)
    (hm : Marked s m) (hpending : m.pending = next :: rest) :
    ∃ m', markStep s.catalog m next rest = .ok m' ∧ Marked s m' ∧ m.Grows m' ∧
      (m'.expanded = m.expanded ∧ m'.pending = rest ∨
        next ∉ m.expanded ∧ m'.expanded = insert next m.expanded ∧
          m'.pending.length ≤ rest.length + 2) := by
  by_cases hmem : next ∈ m.expanded
  · refine ⟨_, ?_, hm.drop hpending hmem, ⟨fun _ h => h, fun t ht => ?_⟩, Or.inl ⟨rfl, rfl⟩⟩
    · unfold markStep
      rw [if_pos hmem]
    · rw [hpending, List.mem_cons] at ht
      rcases ht with ht | rfl | ht
      · exact Or.inl ht
      · exact Or.inl hmem
      · exact Or.inr ht
  · have hnext : Reached s next.2.link next.1 := hm.reached next (Or.inr (by simp [hpending]))
    obtain ⟨b, marked, more, hexpands⟩ := expands_of_sound hcf hknown (hnext.sound hs)
    have hreadable : ∀ x ∈ marked, ∃ b, s.objects.object x = .ok b := fun x hx =>
      ((hnext.child (hexpands.values x hx)).sound hs).readable
    obtain ⟨live, hfold, hlive⟩ := foldlM_mark hreadable (insert next.1 m.live)
    refine ⟨_, ?_, hm.follow hpending hexpands hlive,
      ⟨fun x hx => (hlive x).mpr (Or.inl (Finset.mem_insert_of_mem hx)), fun t ht => ?_⟩,
      Or.inr ⟨hmem, rfl, ?_⟩⟩
    · unfold markStep
      rw [if_neg hmem, mark_eq hexpands.object]
      simp only [ok_bind]
      rw [hexpands.expand, ok_bind, hfold]
      rfl
    · rw [hpending, List.mem_cons] at ht
      rcases ht with ht | rfl | ht
      · exact Or.inl (Finset.mem_insert_of_mem ht)
      · exact Or.inl (Finset.mem_insert_self _ _)
      · exact Or.inr (List.mem_append_right _ ht)
    · have hbounded := hexpands.bounded
      rw [List.length_append]
      omega

end Steps

section All

variable {m : Marking}

/-- There are at most three references to follow for every object. -/
theorem card_le_of_readable {e : Finset (Hash × Trace)}
    (h : ∀ t ∈ e, ∃ b, s.objects.object t.1 = .ok b) : e.card ≤ 3 * s.objects.payloads.size := by
  have hsubset : e ⊆ (s.objects.payloads.toList.map Prod.fst).toFinset ×ˢ
      {.revision, .manifest, .node} := by
    intro t ht
    obtain ⟨b, hb⟩ := h t ht
    have hkey : t.1 ∈ s.objects.payloads :=
      StdMap.mem_iff.mpr ⟨b, ObjectStore.object_eq_ok.mp hb⟩
    refine Finset.mem_product.mpr ⟨List.mem_toFinset.mpr (StdMap.mem_map_toList.mpr hkey), ?_⟩
    cases t.2 <;> decide
  have hids := List.toFinset_card_le (s.objects.payloads.toList.map Prod.fst)
  rw [List.length_map, Std.ExtTreeMap.length_toList] at hids
  calc e.card ≤ _ := Finset.card_le_card hsubset
    _ = (s.objects.payloads.toList.map Prod.fst).toFinset.card * 3 := by
      rw [Finset.card_product]
      rfl
    _ ≤ s.objects.payloads.size * 3 := Nat.mul_le_mul_right 3 hids
    _ = 3 * s.objects.payloads.size := Nat.mul_comm _ _

/-- The steps that are left: one for every noted reference, and two for every reference that can
still be followed. -/
def Marking.work (s : LevelStore) (m : Marking) : ℕ :=
  m.pending.length + 2 * (3 * s.objects.payloads.size - m.expanded.card)

theorem markAll_spec (hs : s.Closed) (hcf : CollisionFree payloads) (hknown : Known s payloads)
    {fuel : ℕ} (hm : Marked s m) (hfuel : m.work s ≤ fuel) :
    ∃ m', markAll s.catalog fuel m = .ok m'.live ∧ Marked s m' ∧ m.Grows m' ∧ m'.pending = [] := by
  -- Every step uses up some of the work, so the fuel lasts until nothing is noted.
  induction fuel generalizing m with
  | zero =>
    have hpending : m.pending = [] := List.length_eq_zero_iff.mp (by unfold Marking.work at hfuel; omega)
    refine ⟨m, ?_, hm, .refl m, hpending⟩
    unfold markAll
    rw [if_pos hpending]
  | succ fuel ih =>
    unfold markAll
    cases hpending : m.pending with
    | nil => exact ⟨m, rfl, hm, .refl m, hpending⟩
    | cons next rest =>
      obtain ⟨m₁, hstep, hm₁, hgrows, hcases⟩ := markStep_spec hs hcf hknown hm hpending
      have hcard := card_le_of_readable (s := s) (e := m₁.expanded) fun t ht =>
        ((hm₁.reached t (Or.inl ht)).sound hs).readable
      have hlength : m.pending.length = rest.length + 1 := by rw [hpending, List.length_cons]
      have hwork : m₁.work s ≤ fuel := by
        unfold Marking.work at hfuel ⊢
        rcases hcases with ⟨hexpanded, hrest⟩ | ⟨hnew, hexpanded, hbounded⟩
        · rw [hexpanded, hrest]
          omega
        · rw [hexpanded, Finset.card_insert_of_notMem hnew] at hcard ⊢
          omega
      obtain ⟨m', hall, hm', hgrows', hnone⟩ := ih hm₁ hwork
      refine ⟨m', ?_, hm', hgrows.trans hgrows', hnone⟩
      simp only [hstep, ok_bind, hall]

/-- What is noted of a root. -/
structure Noted (s : LevelStore) (m : Marking) (key : Bytes) : Prop where
  /-- Its object is marked. -/
  live : ∀ id, s.roots[key]? = some id → ¬ history ++ ascii "object/" <+: key → id ∈ m.live
  /-- What it leads to is noted. -/
  start : ∀ link x, Start s key link x →
    ∃ kind, link = Trace.link kind ∧ ((x, kind) ∈ m.expanded ∨ (x, kind) ∈ m.pending)

theorem Noted.mono {m' : Marking} {key : Bytes} (h : Noted s m key) (hgrows : m.Grows m') :
    Noted s m' key := by
  refine ⟨fun id hid hkey => hgrows.live (h.live id hid hkey), fun link x hstart => ?_⟩
  obtain ⟨kind, hlink, hx⟩ := h.start link x hstart
  exact ⟨kind, hlink, hgrows.noted _ hx⟩

/-- The references of a root, in the form of the mark phase. -/
def Starts (s : LevelStore) (key : Bytes) (more : List (Hash × Trace)) : Prop :=
  ∀ link x, Start s key link x ↔ ∃ kind, link = Trace.link kind ∧ (x, kind) ∈ more

/-- Marking the object of a root and noting what it leads to. -/
theorem Marked.note {key : Bytes} (hm : Marked s m) (hroot : s.roots[key]? = some id)
    (hkey : ¬ history ++ ascii "object/" <+: key) {more : List (Hash × Trace)}
    (hmore : Starts s key more) {m' : Marking}
    (hm' : m' = { m with live := insert id m.live, pending := more ++ m.pending }) :
    Marked s m' ∧ m.Grows m' ∧ Noted s m' key ∧ m'.expanded = m.expanded := by
  subst hm'
  refine ⟨⟨fun x hx => ?_, fun t ht => ?_, fun t ht => Finset.mem_insert_of_mem (hm.marked t ht),
    fun t ht link x hchild => ?_⟩, ⟨fun x hx => Finset.mem_insert_of_mem hx,
    fun t ht => ht.imp_right (List.mem_append_right _)⟩, ⟨fun id' hid' _ => ?_,
    fun link x hstart => ?_⟩, rfl⟩
  · rcases Finset.mem_insert.mp hx with rfl | hx
    · exact Or.inl ⟨key, hroot, hkey⟩
    · exact hm.live x hx
  · rcases ht with ht | ht
    · exact hm.reached t (Or.inl ht)
    · rcases List.mem_append.mp ht with ht | ht
      · exact .start ((hmore _ _).mpr ⟨t.2, rfl, ht⟩)
      · exact hm.reached t (Or.inr ht)
  · rcases hm.closed t ht link x hchild with ⟨hvalue, hx⟩ | ⟨kind, hlink, hx⟩
    · exact Or.inl ⟨hvalue, Finset.mem_insert_of_mem hx⟩
    · exact Or.inr ⟨kind, hlink, hx.imp_right (List.mem_append_right _)⟩
  · cases hroot.symm.trans hid'
    exact Finset.mem_insert_self _ _
  · obtain ⟨kind, hlink, hx⟩ := (hmore link x).mp hstart
    exact ⟨kind, hlink, Or.inr (List.mem_append_left _ hx)⟩

/-- Which roots lead somewhere. -/
theorem Start.inv {key : Bytes} {link : Link} (h : Start s key link id) :
    (history ++ ascii "world/" <+: key ∧ link = .manifest ∧ s.roots[key]? = some id) ∨
      (history ++ ascii "revision/" <+: key ∧ link = .revision ∧ s.roots[key]? = some id) ∨
      (history ++ ascii "base/" <+: key ∧ link = .revision ∧ ∃ (target : Hash) (b : Bytes),
        s.roots[key]? = some target ∧ s.objects.object target = .ok b ∧ id = Hash.ofBytes b) := by
  cases h with
  | @world name _ hroot =>
    exact Or.inl ⟨⟨name, by simp [RootName.key]⟩, rfl, hroot⟩
  | @revision name _ hroot =>
    exact Or.inr (Or.inl ⟨⟨name, by simp [RootName.key]⟩, rfl, hroot⟩)
  | @base name target b hroot hobject hlength =>
    exact Or.inr (Or.inr ⟨⟨name, by simp [RootName.key]⟩, rfl, target, b, hroot, hobject, rfl⟩)

omit [Digest] in
/-- A key has one kind only. -/
theorem not_isPrefix_of_isPrefix {a b key : Bytes} (ha : history ++ a <+: key)
    (hne : ¬ a <+: b ∧ ¬ b <+: a) : ¬ history ++ b <+: key := by
  intro hb
  rcases List.prefix_or_prefix_of_prefix ha hb with h | h
  · exact hne.1 ((List.prefix_append_right_inj history).mp h)
  · exact hne.2 ((List.prefix_append_right_inj history).mp h)

theorem starts_trace {key : Bytes} {kind : Trace} (hnonzero : id ≠ Hash.zero)
    (hstart : Start s key kind.link id)
    (honly : ∀ link x, Start s key link x → link = kind.link ∧ x = id) :
    Starts s key (trace id kind) := by
  intro link x
  constructor
  · intro h
    obtain ⟨hlink, rfl⟩ := honly link x h
    exact ⟨kind, hlink, mem_trace.mpr ⟨hnonzero, rfl⟩⟩
  · rintro ⟨kind', rfl, hx⟩
    obtain ⟨-, heq⟩ := mem_trace.mp hx
    cases heq
    exact hstart

theorem starts_world {key : Bytes} (hnonzero : id ≠ Hash.zero) (hroot : s.roots[key]? = some id)
    (hkey : history ++ ascii "world/" <+: key) : Starts s key (trace id .manifest) := by
  refine starts_trace hnonzero ?_ fun link x hstart => ?_
  · obtain ⟨name, rfl⟩ := hkey
    rw [List.append_assoc] at hroot ⊢
    exact .world hroot
  · rcases hstart.inv with ⟨-, hlink, hx⟩ | ⟨h, -⟩ | ⟨h, -⟩
    · exact ⟨hlink, Option.some.inj (hx.symm.trans hroot)⟩
    all_goals exact absurd hkey (not_isPrefix_of_isPrefix h (by decide))

theorem starts_revision {key : Bytes} (hnonzero : id ≠ Hash.zero) (hroot : s.roots[key]? = some id)
    (hkey : history ++ ascii "revision/" <+: key) : Starts s key (trace id .revision) := by
  refine starts_trace hnonzero ?_ fun link x hstart => ?_
  · obtain ⟨name, rfl⟩ := hkey
    rw [List.append_assoc] at hroot ⊢
    exact .revision hroot
  · rcases hstart.inv with ⟨h, -⟩ | ⟨-, hlink, hx⟩ | ⟨h, -⟩
    · exact absurd hkey (not_isPrefix_of_isPrefix h (by decide))
    · exact ⟨hlink, Option.some.inj (hx.symm.trans hroot)⟩
    · exact absurd hkey (not_isPrefix_of_isPrefix h (by decide))

theorem starts_base {key : Bytes} {parent : Hash} (hnonzero : parent ≠ Hash.zero)
    (hroot : s.roots[key]? = some id) (hparent : s.objects.object id = .ok parent.val)
    (hkey : history ++ ascii "base/" <+: key) : Starts s key (trace parent .revision) := by
  refine starts_trace hnonzero ?_ fun link x hstart => ?_
  · obtain ⟨name, rfl⟩ := hkey
    rw [List.append_assoc] at hroot ⊢
    have hstart : Start s (RootName.base name).key .revision (Hash.ofBytes parent.val) :=
      .base hroot hparent parent.property
    rwa [Hash.ofBytes_val] at hstart
  · rcases hstart.inv with ⟨h, -⟩ | ⟨h, -⟩ | ⟨-, hlink, target, b, htarget, hb, hx⟩
    · exact absurd hkey (not_isPrefix_of_isPrefix h (by decide))
    · exact absurd hkey (not_isPrefix_of_isPrefix h (by decide))
    · cases hroot.symm.trans htarget
      cases hparent.symm.trans hb
      rw [Hash.ofBytes_val] at hx
      exact ⟨hlink, hx⟩

theorem starts_nil {key : Bytes} (hworld : ¬ history ++ ascii "world/" <+: key)
    (hrevision : ¬ history ++ ascii "revision/" <+: key)
    (hbase : ¬ history ++ ascii "base/" <+: key) : Starts s key [] := by
  intro link x
  refine ⟨fun hstart => ?_, by simp⟩
  rcases hstart.inv with ⟨h, -⟩ | ⟨h, -⟩ | ⟨h, -⟩
  · exact absurd h hworld
  · exact absurd h hrevision
  · exact absurd h hbase

/-- Marking one root. -/
theorem markRoot_spec (hs : s.Closed) (hcf : CollisionFree payloads) (hknown : Known s payloads)
    {key : Bytes} (hkey : key ∈ s.roots) (hm : Marked s m) :
    ∃ m', markRoot s.catalog m key = .ok m' ∧ Marked s m' ∧ m.Grows m' ∧ Noted s m' key ∧
      m'.expanded = m.expanded := by
  obtain ⟨id, hroot⟩ := StdMap.mem_iff.mp hkey
  obtain ⟨b, hobject⟩ := hs.named key id hroot
  have hread : s.catalog.rootObject key = .ok id := Catalog.rootObject_eq_ok.mpr hroot
  have hnonzero := ne_zero_of_object hcf hknown hobject
  unfold markRoot
  by_cases hobj : history ++ ascii "object/" <+: key
  · refine ⟨m, by rw [if_pos hobj]; rfl, hm, .refl m, ⟨fun _ _ h => absurd hobj h, ?_⟩, rfl⟩
    intro link x hstart
    rcases hstart.inv with ⟨h, -⟩ | ⟨h, -⟩ | ⟨h, -⟩ <;>
    exact absurd hobj (not_isPrefix_of_isPrefix h (by decide))
  rw [if_neg hobj, hread, ok_bind, mark_eq hobject]
  simp only [ok_bind]
  by_cases hworld : history ++ ascii "world/" <+: key
  · rw [if_pos hworld]
    exact ⟨_, rfl, hm.note hroot hobj (starts_world hnonzero hroot hworld) rfl⟩
  rw [if_neg hworld]
  by_cases hrevision : history ++ ascii "revision/" <+: key
  · rw [if_pos hrevision]
    exact ⟨_, rfl, hm.note hroot hobj (starts_revision hnonzero hroot hrevision) rfl⟩
  rw [if_neg hrevision]
  by_cases hbase : history ++ ascii "base/" <+: key
  · have hname : ∃ name, key = (RootName.base name).key := by
      obtain ⟨name, rfl⟩ := hbase
      exact ⟨name, List.append_assoc _ _ _⟩
    obtain ⟨name, hname⟩ := hname
    obtain ⟨parent, hparent, hlineage⟩ := hs.leads (.base name) id (by rw [← hname, hroot])
    obtain ⟨_, _, _, hrecord, -⟩ := hlineage.record
    have hb : b = parent.val := Except.ok.inj (hobject.symm.trans hparent)
    have hslice : slice parent.val 0 32 = parent.val := slice_self parent.property.le
    rw [if_pos hbase, hb, need_of parent.property, ok_bind, extract_eq (by rw [parent.property]),
      hslice, Hash.ofBytes_val]
    exact ⟨_, rfl, hm.note hroot hobj
      (starts_base (ne_zero_of_object hcf hknown hrecord) hroot hparent hbase) rfl⟩
  · rw [if_neg hbase]
    exact ⟨_, rfl, hm.note hroot hobj (starts_nil hworld hrevision hbase) rfl⟩

/-- Marking all roots. -/
theorem foldlM_markRoot (hs : s.Closed) (hcf : CollisionFree payloads) (hknown : Known s payloads)
    {keys : List Bytes} (hkeys : ∀ key ∈ keys, key ∈ s.roots) (hm : Marked s m) :
    ∃ m', keys.foldlM (markRoot s.catalog) m = .ok m' ∧ Marked s m' ∧ m.Grows m' ∧
      (∀ key ∈ keys, Noted s m' key) ∧ m'.expanded = m.expanded := by
  induction keys generalizing m with
  | nil => exact ⟨m, rfl, hm, .refl m, by simp, rfl⟩
  | cons key keys ih =>
    obtain ⟨m₁, hroot, hm₁, hgrows, hnoted, hexpanded⟩ :=
      markRoot_spec hs hcf hknown (hkeys key (by simp)) hm
    obtain ⟨m', hfold, hm', hgrows', hall, hexpanded'⟩ :=
      ih (fun x hx => hkeys x (List.mem_cons_of_mem _ hx)) hm₁
    refine ⟨m', ?_, hm', hgrows.trans hgrows', fun x hx => ?_, hexpanded'.trans hexpanded⟩
    · rw [List.foldlM_cons, hroot]
      exact hfold
    · rcases List.mem_cons.mp hx with rfl | hx
      · exact hnoted.mono hgrows'
      · exact hall x hx

/-- On a closed store the mark phase succeeds, and it marks exactly the live objects. -/
theorem liveObjects_spec (hs : s.Closed) (hcf : CollisionFree payloads) (hknown : Known s payloads) :
    ∃ live, Container.liveObjects s = .ok live ∧ ∀ id, id ∈ live ↔ Live s id := by
  have hempty : Marked s ⟨∅, ∅, []⟩ := ⟨by simp, by simp, by simp, by simp⟩
  have hkeys : ∀ key ∈ s.catalog.keys [], key ∈ s.roots :=
    fun key hkey => (Catalog.mem_keys.mp hkey).1
  obtain ⟨m, hroots, hm, -, hnoted, hexpanded⟩ := foldlM_markRoot hs hcf hknown hkeys hempty
  have hwork : m.work s ≤ m.pending.length + 6 * s.objects.payloads.size + 1 := by
    unfold Marking.work
    omega
  obtain ⟨m', hall, hm', hgrows, hnone⟩ := markAll_spec hs hcf hknown hm hwork
  refine ⟨m'.live, ?_, fun id => ⟨hm'.live id, ?_⟩⟩
  · unfold Container.liveObjects
    simp only [hroots, ok_bind, hall]
  have hkey {key : Bytes} (hkey : key ∈ s.roots) : Noted s m' key :=
    (hnoted key (Catalog.mem_keys.mpr ⟨hkey, List.nil_prefix⟩)).mono hgrows
  -- Nothing is left to follow, so every reached reference was followed.
  have hreached : ∀ link x, Reached s link x →
      link = .value ∧ x ∈ m'.live ∨ ∃ kind, link = Trace.link kind ∧ (x, kind) ∈ m'.expanded := by
    intro link x h
    induction h with
    | @start key link x hstart =>
      have hmem : key ∈ s.roots := by
        rcases hstart.inv with ⟨-, -, h⟩ | ⟨-, -, h⟩ | ⟨-, -, _, _, h, -⟩ <;>
        exact StdMap.mem_iff.mpr ⟨_, h⟩
      obtain ⟨kind, hlink, hx⟩ := (hkey hmem).start link x hstart
      rw [hnone] at hx
      exact Or.inr ⟨kind, hlink, hx.resolve_right (by simp)⟩
    | child _ hchild ih =>
      rcases ih with ⟨rfl, -⟩ | ⟨kind, rfl, ht⟩
      · cases hchild
      · rcases hm'.closed _ ht _ _ hchild with hvalue | ⟨kind', hlink, hx⟩
        · exact Or.inl hvalue
        · rw [hnone] at hx
          exact Or.inr ⟨kind', hlink, hx.resolve_right (by simp)⟩
  rintro (⟨key, hroot, hregistry⟩ | ⟨link, h⟩)
  · exact (hkey (StdMap.mem_iff.mpr ⟨id, hroot⟩)).live id hroot hregistry
  · rcases hreached link id h with ⟨-, hx⟩ | ⟨kind, -, hx⟩
    · exact hx
    · exact hm'.marked _ hx

end All

end ForkFs
