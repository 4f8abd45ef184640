import ForkFs.Container.Integrity
import ForkFs.Container.Unchanged

/-!
# Garbage collection

On every reachable repository a collection deletes exactly the objects that are not live. All
views and all roots outside the registry read as before, and a second collection finds nothing.
-/

namespace ForkFs

open Bytes Outcome

section Collections

variable [Digest] {payloads : Set Bytes} {s s' : LevelStore} {removed : ℕ} {id : Hash}

theorem readManifest_congr {b : Bytes} (h : s.objects.object id = .ok b)
    (h' : s'.objects.object id = .ok b) :
    NamespaceView.readManifest s'.catalog id = NamespaceView.readManifest s.catalog id := by
  unfold NamespaceView.readManifest
  rw [show s'.catalog.getObject id = .ok b from h', show s.catalog.getObject id = .ok b from h]

/-- The references of an object depend on its bytes only. -/
theorem Child.congr {link link' : Link} {id' : Hash} {b : Bytes} (h : Child s link id link' id')
    (hb : s.objects.object id = .ok b) (hb' : s'.objects.object id = .ok b) :
    Child s' link id link' id' := by
  have hsame : s'.objects.object id = s.objects.object id := by rw [hb, hb']
  cases h with
  | manifest hobject hmanifest => exact .manifest (hsame.trans hobject) hmanifest
  | parent hobject hrecord hparent => exact .parent (hsame.trans hobject) hrecord hparent
  | tree hroot => exact .tree ((readManifest_congr hb hb').trans hroot)
  | left hnode hleft => exact .left (by rw [hsame]; exact hnode) hleft
  | right hnode hright => exact .right (by rw [hsame]; exact hnode) hright
  | value hnode => exact .value (by rw [hsame]; exact hnode)

/-- Roots outside the registry stay. -/
theorem Collected.root_eq (h : Collected s removed s') {key : Bytes}
    (hkey : ¬ history ++ ascii "object/" <+: key) : s'.roots[key]? = s.roots[key]? := by
  refine Option.ext fun id => ?_
  rw [h.root]
  exact ⟨fun hid => hid.1, fun hid => ⟨hid, fun hregistry => absurd hregistry hkey⟩⟩

theorem not_registry_of_start {key : Bytes} {link : Link} (h : Start s key link id) :
    ¬ history ++ ascii "object/" <+: key := by
  rcases h.inv with ⟨hkey, -⟩ | ⟨hkey, -⟩ | ⟨hkey, -⟩ <;>
  exact not_isPrefix_of_isPrefix hkey (by decide)

/-- What was reached before a collection is reached after it. -/
theorem Collected.reached (h : Collected s removed s') (hs : s.Closed) {link : Link}
    (hreached : Reached s link id) : Reached s' link id := by
  induction hreached with
  | start hstart =>
    have hkey := not_registry_of_start hstart
    cases hstart with
    | world hroot => exact .start (.world ((h.root_eq hkey).trans hroot))
    | revision hroot => exact .start (.revision ((h.root_eq hkey).trans hroot))
    | base hroot hobject hlength =>
      exact .start (.base ((h.root_eq hkey).trans hroot)
        (h.keeps _ _ (Or.inl ⟨_, hroot, hkey⟩) hobject) hlength)
  | child hreached hchild ih =>
    obtain ⟨b, hb⟩ := (hreached.sound hs).readable
    exact ih.child (hchild.congr hb (h.keeps.reached hreached hb))

theorem Collected.live (h : Collected s removed s') (hs : s.Closed) (hlive : Live s id) :
    Live s' id := by
  rcases hlive with ⟨key, hroot, hkey⟩ | ⟨link, hreached⟩
  · exact Or.inl ⟨key, (h.root_eq hkey).trans hroot, hkey⟩
  · exact Or.inr ⟨link, h.reached hs hreached⟩

/-- A second collection removes nothing. -/
theorem Collected.again (h : Collected s removed s') (hs : s.Closed) {removed' : ℕ}
    {s'' : LevelStore} (h' : Collected s' removed' s'') : removed' = 0 := by
  have hpayloads : s''.objects.payloads = s'.objects.payloads := by
    refine StdMap.ext fun id => Option.ext fun b => ?_
    rw [← ObjectStore.object_eq_ok, ← ObjectStore.object_eq_ok, h'.object]
    refine ⟨fun hb => hb.2, fun hb => ⟨h.live hs ?_, hb⟩⟩
    exact ((h.object id b).mp hb).1
  have hremoved := h'.removed
  rw [hpayloads] at hremoved
  omega

/-- A collection changes no view. -/
theorem Collected.sameView (h : Collected s removed s') (hs : s.Closed) (hcf : CollisionFree payloads)
    (hknown : Known s payloads) (ns : Namespace) : SameView s ns s' ns := by
  have hroot (n : RootName) (hn : n.mark ≠ 98) : s'.roots[n.key]? = s.roots[n.key]? := by
    refine h.root_eq fun hkey => hn ?_
    obtain ⟨rest, hkey⟩ := hkey
    rw [n.mark_eq, ← hkey]
    rfl
  refine sameView_of_keeps hs (h.closed hs hcf hknown) hcf hknown (h.known hknown) h.keeps ?_
    fun _ _ key hkey => h.root_eq (not_history_of_namespacePrefix hkey)
  unfold Namespace.root
  split <;> exact hroot _ (by simp [RootName.mark])

variable {c c' : Container}

/-- A collection returns, or throws and leaves everything as it was, if its result verifies. -/
theorem attains_collectGarbage
    (hverify : ∀ removed store, Container.planCollect c.store = .ok (removed, store) →
      store.verify = .ok ()) :
    Attains Container.collectGarbage c fun removed c' => ∃ store, c.table.handles.size = 0 ∧
      c.directoryPins = [] ∧ Container.planCollect c.store = .ok (removed, store) ∧
      c' = { c with store := store } := by
  unfold Container.collectGarbage
  refine readOnly_get.bind fun c₁ hc₁ => ?_
  cases hc₁
  refine (readOnly_attempt _).bind fun _ hhandles => ?_
  refine (readOnly_attempt _).bind fun _ hpins => ?_
  refine (readOnly_attempt _).bind fun ⟨removed, store⟩ hplan => ?_
  have hplan := (attempt_eq_ok.mp hplan).1
  have hset : (set { c with store := store } : Method PUnit) c = .ok ⟨⟩ { c with store := store } := rfl
  have hchecked : (attempt store.verify : Method Unit) { c with store := store } =
      .ok () { c with store := store } := attempt_eq_ok.mpr ⟨hverify removed store hplan, rfl⟩
  refine attains_of_ok ?_ ⟨store, need_eq_ok.mp (attempt_eq_ok.mp hhandles).1,
    need_eq_ok.mp (attempt_eq_ok.mp hpins).1, hplan, rfl⟩
  dsimp only
  rw [bind_of_ok hset, bind_of_ok hchecked]
  rfl

/-- An idle repository can be collected while there are sequence numbers left. -/
theorem collectGarbage_eq_ok {store : LevelStore} (hhandles : c.table.handles.size = 0)
    (hpins : c.directoryPins = []) (hplan : Container.planCollect c.store = .ok (removed, store))
    (hverify : store.verify = .ok ()) :
    Container.collectGarbage c = .ok removed { c with store := store } := by
  have hidle : (attempt (need (c.table.handles.size = 0) "GC requires an idle offline repository") :
      Method Unit) c = .ok () c := attempt_eq_ok.mpr ⟨need_of hhandles, rfl⟩
  have hcursors : (attempt (need (c.directoryPins = []) "GC requires closed directory cursors") :
      Method Unit) c = .ok () c := attempt_eq_ok.mpr ⟨need_of hpins, rfl⟩
  have hplanned : (attempt (Container.planCollect c.store) : Method (ℕ × LevelStore)) c =
      .ok (removed, store) c := attempt_eq_ok.mpr ⟨hplan, rfl⟩
  have hset : (set { c with store := store } : Method PUnit) c = .ok ⟨⟩ { c with store := store } := rfl
  have hchecked : (attempt store.verify : Method Unit) { c with store := store } =
      .ok () { c with store := store } := attempt_eq_ok.mpr ⟨hverify, rfl⟩
  unfold Container.collectGarbage
  rw [get_bind, bind_of_ok hidle, bind_of_ok hcursors, bind_of_ok hplanned]
  dsimp only
  rw [bind_of_ok hset, bind_of_ok hchecked]
  rfl

/-- What a collection that returns has done. -/
structure Container.Swept (c : Container) (removed : ℕ) (c' : Container) : Prop where
  /-- Exactly the live objects remain, with the same bytes. -/
  objects : ∀ (id : Hash) b, c'.store.objects.payloads[id]? = some b ↔
    c.store.objects.payloads[id]? = some b ∧ Live c.store id
  /-- The result is the number of deleted objects. -/
  removed : removed + c'.store.objects.payloads.size = c.store.objects.payloads.size
  /-- Every view has the same content. -/
  views : ∀ ns, SameView c.store ns c'.store ns
  /-- Every root outside the registry is the same and reads the same bytes. -/
  roots : ∀ key : Bytes, ¬ history ++ ascii "object/" <+: key →
    c'.store.roots[key]? = c.store.roots[key]? ∧
      c'.store.catalog.get key = c.store.catalog.get key
  /-- Every remaining registry entry names an object. -/
  registry : ∀ id target : Hash, c'.store.roots[(RootName.object id).key]? = some target →
    target = id ∧ id ∈ c'.store.objects.payloads
  /-- The store verifies. -/
  verifies : c'.store.verify = .ok ()
  /-- Nothing but the store changes. -/
  frame : c' = { c with store := c'.store }
  /-- A second collection removes nothing. -/
  again : ∀ removed' c'', Container.collectGarbage c' = .ok removed' c'' → removed' = 0
  /-- It returns, too, while there are sequence numbers left. -/
  returns : c'.store.sequence ≠ 2 ^ 64 - 1 → ∃ c'', Container.collectGarbage c' = .ok 0 c''

theorem planCollect_returns (hs : s.Closed) (hcf : CollisionFree payloads) (hknown : Known s payloads)
    (hsequence : s.sequence ≠ 2 ^ 64 - 1) :
    ∃ removed s', Container.planCollect s = .ok (removed, s') := by
  obtain ⟨live, hlive, hmem⟩ := liveObjects_spec hs hcf hknown
  exact ⟨_, _, (planCollect_eq hs hlive hmem).trans (if_neg hsequence)⟩

theorem planCollect_verifies (hs : s.Closed) (hcf : CollisionFree payloads)
    (hknown : Known s payloads) :
    ∀ removed store, Container.planCollect s = .ok (removed, store) → store.verify = .ok () := by
  intro removed store hplan
  have hclosed := (planCollect_spec hs hcf hknown hplan).closed hs hcf hknown
  exact LevelStore.verify_of hclosed.counted hclosed.named

theorem Collected.swept {store : LevelStore} (hs : c.store.Closed) (hcf : CollisionFree payloads)
    (hknown : Known c.store payloads) (hhandles : c.table.handles.size = 0)
    (hpins : c.directoryPins = []) (h : Collected c.store removed store) :
    c.Swept removed { c with store := store } := by
  have hs' := h.closed hs hcf hknown
  have hknown' := h.known hknown
  have hverify' := planCollect_verifies hs' hcf hknown'
  refine ⟨fun id b => ?_, h.removed, h.sameView hs hcf hknown, fun key hkey => ⟨h.root_eq hkey, ?_⟩,
    fun id target hroot => ?_, LevelStore.verify_of hs'.counted hs'.named, rfl,
    fun removed' c'' hagain => ?_, fun hsequence => ?_⟩
  · rw [← ObjectStore.object_eq_ok, ← ObjectStore.object_eq_ok, and_comm]
    exact h.object id b
  · have hroot := h.root_eq hkey
    have hbefore : c.store.catalog.roots[key]? = c.store.roots[key]? := rfl
    have hafter : store.catalog.roots[key]? = store.roots[key]? := rfl
    rw [Catalog.get, Catalog.get, Catalog.rootObject, Catalog.rootObject, hafter, hbefore, hroot]
    cases hid : c.store.roots[key]? with
    | none => rfl
    | some id =>
      obtain ⟨b, hb⟩ := hs.named key id hid
      change store.objects.object id = c.store.objects.object id
      rw [hb]
      exact h.keeps id b (Or.inl ⟨key, hid, hkey⟩) hb
  · obtain rfl : target = id := hs'.leads (.object id) target hroot
    obtain ⟨b, hb⟩ := hs'.named _ target hroot
    exact ⟨rfl, StdMap.mem_iff.mpr ⟨b, ObjectStore.object_eq_ok.mp hb⟩⟩
  · obtain ⟨store', -, -, hplan, -⟩ := (attains_collectGarbage hverify').of_ok hagain
    exact h.again hs (planCollect_spec hs' hcf hknown' hplan)
  · obtain ⟨removed', store', hplan⟩ := planCollect_returns hs' hcf hknown' hsequence
    have hzero := h.again hs (planCollect_spec hs' hcf hknown' hplan)
    subst hzero
    exact ⟨_, collectGarbage_eq_ok hhandles hpins hplan (hverify' _ _ hplan)⟩

/-- In every reachable repository, a collection returns if there are no open files, no directory
streams and a sequence number left. It then deletes exactly the objects that are not live, changes
no view and leaves nothing for a second collection. One that throws changes nothing. -/
theorem garbage_collection {events : List ContainerEvent} (h : Container.run events = .ok c)
    (hcf : CollisionFree { b | b ∈ c.hashed }) :
    (∀ message c', Container.collectGarbage c = .error message c' → c' = c) ∧
      (∀ removed c', Container.collectGarbage c = .ok removed c' → c.Swept removed c') ∧
      (c.table.handles.size = 0 → c.directoryPins = [] → c.store.sequence ≠ 2 ^ 64 - 1 →
        ∃ removed c', Container.collectGarbage c = .ok removed c') := by
  obtain ⟨hs, hknown⟩ := Container.run_closed h hcf
  have hverify := planCollect_verifies hs hcf hknown
  have hattains := attains_collectGarbage hverify
  refine ⟨fun message c' herror => hattains.error_eq herror, fun removed c' hok => ?_,
    fun hhandles hpins hsequence => ?_⟩
  · obtain ⟨store, hhandles, hpins, hplan, rfl⟩ := hattains.of_ok hok
    exact (planCollect_spec hs hcf hknown hplan).swept hs hcf hknown hhandles hpins
  · obtain ⟨removed, store, hplan⟩ := planCollect_returns hs hcf hknown hsequence
    exact ⟨_, _, collectGarbage_eq_ok hhandles hpins hplan (hverify _ _ hplan)⟩

end Collections

section Samples

local instance garbageDigest : Digest := sha256

/-- A key of the user is bound twice, which leaves its first value without a root. -/
def sampleRebind : List ContainerEvent :=
  [.call (.put (ascii "key") (ascii "old")), .call (.put (ascii "key") (ascii "new"))]

/-- The repository after that. -/
def sampleRebound : Container :=
  after (Container.put (ascii "key") (ascii "new"))
    (after (Container.put (ascii "key") (ascii "old")) .create)

theorem garbage_collection_sample : Container.run sampleRebind = .ok sampleRebound ∧
    CollisionFree { b | b ∈ sampleRebound.hashed } ∧
    ∃ c', Container.collectGarbage sampleRebound = .ok 1 c' ∧ sampleRebound.Swept 1 c' := by
  have hrun : Container.run sampleRebind = .ok sampleRebound := rfl
  have hcf : CollisionFree { b | b ∈ sampleRebound.hashed } :=
    NoCollisions.collisionFree (by decide +kernel)
  have hgc := garbage_collection hrun hcf
  have hsequence : sampleRebound.store.sequence = 2 := by decide +kernel
  obtain ⟨removed, c', hok⟩ := hgc.2.2 (by decide +kernel) (by decide +kernel)
    (by rw [hsequence]; decide)
  have hremoved : (match Container.collectGarbage sampleRebound with
    | .ok removed _ => some removed
    | .error _ _ => none) = some 1 := by decide +kernel
  rw [hok] at hremoved
  cases hremoved
  exact ⟨hrun, hcf, c', hok, hgc.2.1 1 c' hok⟩

end Samples

end ForkFs
