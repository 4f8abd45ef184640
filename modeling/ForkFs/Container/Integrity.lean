import ForkFs.Container.Collection
import ForkFs.Container.Revisions

/-!
# Integrity of the store

In every reachable repository the counters are right, every root names an object, and everything
that heads, revisions and bases lead to is stored. This needs that the payloads which committed
batches hashed do not collide: a commit that finds a payload in the registry does not store it
again.
-/

namespace ForkFs

open Bytes Outcome

section Runs

variable [Digest] {payloads : Set Bytes} {c c' : Container}

/-- The store is closed as far as the hashed payloads do not collide. -/
def Container.Intact (c : Container) : Prop :=
  ∀ payloads : Set Bytes, CollisionFree payloads → (∀ b ∈ c.hashed, b ∈ payloads) →
    c.store.Closed ∧ Known c.store payloads

theorem closed_of_target_none {objects : ObjectStore} {m : Mutation} (h : m.target = none) :
    m.Closed objects := by
  intro n target _ htarget
  rw [h] at htarget
  cases htarget

/-- Deleting roots keeps the store intact. -/
theorem closed_of_deletes {s s' : LevelStore} {keys : List Bytes} (hs : s.Closed)
    (h : s.transact s.sequence (keys.map fun key => .assign key none) = .ok s') : s'.Closed := by
  refine hs.transacted (LevelStore.transact_eq_ok h) fun m hm => ?_
  obtain ⟨key, -, rfl⟩ := List.mem_map.mp hm
  exact closed_of_target_none rfl

theorem known_of_deletes {s s' : LevelStore} {keys : List Bytes} (hknown : Known s payloads)
    (h : s.transact s.sequence (keys.map fun key => .assign key none) = .ok s') :
    Known s' payloads := by
  refine hknown.transacted (LevelStore.transact_eq_ok h) fun m hm x hx => ?_
  obtain ⟨key, -, rfl⟩ := List.mem_map.mp hm
  cases hx

/-- A commit keeps a repository intact. -/
theorem Commits.intact {ns : Namespace} {v : NamespaceView} {edits : List Edit}
    {created : Option InodeId} (h : Commits c ns.view v edits created c') (hc : c.Intact)
    (hv : c.view ns = .ok v) : c'.Intact := by
  cases h with
  | nothing => exact hc
  | batch b store hedits hplan hstore =>
    intro payloads hcf hhashed
    obtain ⟨hs, hknown⟩ := hc payloads hcf fun x hx => hhashed x (List.mem_append_left _ hx)
    have hplanned := planCommit_eq_ok hplan
    have hnew : ∀ x ∈ b.hashed, x ∈ payloads := fun x hx => hhashed x (List.mem_append_right _ hx)
    have htransacted := LevelStore.transact_eq_ok hstore
    exact ⟨hplanned.closed hcf hs hknown (viewed_of_open hs hv) htransacted hnew,
      hplanned.known hknown htransacted hnew⟩

/-- So does every operation on a World or revision. -/
theorem Performed.intact {ns : Namespace} {op : NamespaceCall} (h : Performed ns op c c')
    (hc : c.Intact) : c'.Intact := by
  cases h with
  | unchanged | duplicated | closed | moved | locked => exact hc
  | updated v edits created _ hworld hv hplanned hcommit => exact hcommit.intact hc hv
  | wroteNext v edits created c₁ token h position hworld hv hplanned hcommit htoken =>
    exact hcommit.intact hc hv
  | opened v env path o opening token h _ hworld hmode hlimit hv hopening hfresh hhandle hcommit =>
    have hc' : Container.Intact { c with
        table := ((c.table.add token h).setCursor h ⟨0, []⟩).counted h } := hc
    exact hcommit.intact hc' hv
  | snapshot name id b store hname hworld hplan hstore =>
    intro payloads hcf hhashed
    obtain ⟨hs, hknown⟩ := hc payloads hcf fun x hx => hhashed x (List.mem_append_left _ hx)
    have hnew : ∀ x ∈ b.hashed, x ∈ payloads := fun x hx => hhashed x (List.mem_append_right _ hx)
    have hplanned := planSnapshot_eq_ok hplan
    have htransacted := LevelStore.transact_eq_ok hstore
    exact ⟨hplanned.closed hcf hs hknown htransacted hnew, hplanned.known hknown htransacted hnew⟩
  | forked revision world b store hrevision hname hmain hworld hplan hstore =>
    intro payloads hcf hhashed
    obtain ⟨hs, hknown⟩ := hc payloads hcf fun x hx => hhashed x (List.mem_append_left _ hx)
    have hnew : ∀ x ∈ b.hashed, x ∈ payloads := fun x hx => hhashed x (List.mem_append_right _ hx)
    have hplanned := planFork_eq_ok hplan
    have htransacted := LevelStore.transact_eq_ok hstore
    exact ⟨hplanned.closed hcf hs hknown htransacted hnew, hplanned.known hknown htransacted hnew⟩
  | dropped token h store hop htoken hview hrevision hworld hcount horphan hstore =>
    intro payloads hcf hhashed
    obtain ⟨hs, hknown⟩ := hc payloads hcf hhashed
    have hdeletes : c.store.transact c.store.sequence
        ([(RootName.orphanInode h.view h.inode).key, (RootName.orphanContent h.view h.inode).key].map
          fun key => .assign key none) = .ok store := hstore
    exact ⟨closed_of_deletes hs hdeletes, known_of_deletes hknown hdeletes⟩

theorem intact_dropsAll (h : c.DropsAll c') (hc : c.Intact) : c'.Intact := by
  induction h with
  | refl => exact hc
  | tail _ hdrops ih =>
    obtain ⟨keys, store, -, hstore, rfl⟩ := hdrops
    intro payloads hcf hhashed
    obtain ⟨hs, hknown⟩ := ih payloads hcf hhashed
    exact ⟨closed_of_deletes hs hstore, known_of_deletes hknown hstore⟩

/-- So does every event. -/
theorem Container.Happened.intact {event : ContainerEvent} (h : c.Happened event c')
    (hc : c.Intact) : c'.Intact := by
  cases h with
  | performed ns env op _ hperformed => exact hperformed.intact hc
  | refused | pinned => exact hc
  | restarted interrupted _ hdrops => exact intact_dropsAll hdrops hc
  | user op expected mutations store hkeys hstore =>
    intro payloads hcf hhashed
    obtain ⟨hs, hknown⟩ := hc payloads hcf fun x hx => hhashed x (List.mem_append_left _ hx)
    have htransacted := LevelStore.transact_eq_ok hstore
    refine ⟨hs.transacted htransacted fun m hm => ?_, hknown.transacted htransacted ?_⟩
    · exact closed_of_aside (aside_of_not_reserved (hkeys m hm))
    · intro m hm x hx
      exact hhashed x (List.mem_append_right _ (List.mem_filterMap.mpr ⟨m, hm, hx⟩))
  | collected removed store hhandles hpins hplan =>
    intro payloads hcf hhashed
    obtain ⟨hs, hknown⟩ := hc payloads hcf hhashed
    have hcollected := planCollect_spec hs hcf hknown hplan
    exact ⟨hcollected.closed hs hcf hknown, hcollected.known hknown⟩

/-- Every reachable repository is intact. -/
theorem Container.run_intact {events : List ContainerEvent} (h : Container.run events = .ok c) :
    c.Intact := by
  refine run_invariant (fun payloads _ _ => ⟨closed_create, ?_⟩)
    (fun _ _ _ _ hc hevent => hevent.intact hc) h
  rintro b ⟨id, hid⟩
  simp [create, opened, LevelStore.create, ObjectStore.empty] at hid

/-- The same, for the payloads that were hashed. -/
theorem Container.run_closed {events : List ContainerEvent} (h : Container.run events = .ok c)
    (hcf : CollisionFree { b | b ∈ c.hashed }) :
    c.store.Closed ∧ Known c.store { b | b ∈ c.hashed } :=
  run_intact h _ hcf fun _ hb => hb

/-- A read that does not miss an object. -/
def Indexed {α : Type} (x : Except String α) : Prop := x ≠ .error "object not indexed"

omit [Digest] in
theorem indexed_ok {α : Type} {x : Except String α} {a : α} (h : x = .ok a) : Indexed x := by
  rw [h]
  exact fun heq => by cases heq

/-- No read of a view misses an object. -/
structure ReadsIndexed (v : NamespaceView) : Prop where
  lookup : ∀ key, Indexed (v.lookup key)
  contains : ∀ key, Indexed (v.contains key)
  get : ∀ key, Indexed (v.get key)
  keys : ∀ pre, Indexed (v.keys pre)
  references : Indexed v.references

/-- The integrity of a store. -/
structure LevelStore.Integrity (s : LevelStore) : Prop where
  /-- The stored number of objects is right. -/
  objects : s.objectCount = s.objects.payloads.size
  /-- The stored number of roots is right. -/
  roots : s.rootCount = s.roots.size
  /-- Every root names an object whose bytes have its identity. -/
  named : ∀ (key : Bytes) id, s.roots[key]? = some id →
    ∃ b, s.objects.payloads[id]? = some b ∧ objectHash b = id
  /-- Everything that is reached from heads, revisions and bases is an object. -/
  reached : ∀ link id, Reached s link id → ∃ b, s.objects.payloads[id]? = some b
  /-- Opening a view misses no object. -/
  opens : ∀ name revision, Indexed (NamespaceView.open_ s.catalog name revision true)
  /-- Neither does any read of a view. -/
  reads : ∀ name revision v, NamespaceView.open_ s.catalog name revision true = .ok v →
    ReadsIndexed v

/-- The reads of a view miss no object once lookups and listings succeed. -/
theorem readsIndexed_of {v : NamespaceView} (hlookup : ∀ key, ∃ o, v.lookup key = .ok o)
    (hkeys : ∀ pre, ∃ l, v.keys pre = .ok l) (hreferences : ∃ m, v.references = .ok m)
    (hstored : ∀ key id, v.lookup key = .ok (some id) → ∃ b, v.journal.getObject id = .ok b) :
    ReadsIndexed v := by
  refine ⟨fun key => ?_, fun key => ?_, fun key => ?_, fun pre => ?_, ?_⟩
  · obtain ⟨o, ho⟩ := hlookup key
    exact indexed_ok ho
  · obtain ⟨o, ho⟩ := hlookup key
    unfold NamespaceView.contains
    dsimp only
    split
    · exact indexed_ok rfl
    · rw [ho]
      exact indexed_ok rfl
  · obtain ⟨o, ho⟩ := hlookup key
    unfold NamespaceView.get
    rw [ho, ok_bind]
    cases o with
    | none => simp [Indexed]
    | some id =>
      obtain ⟨b, hb⟩ := hstored key id ho
      exact indexed_ok hb
  · obtain ⟨l, hl⟩ := hkeys pre
    exact indexed_ok hl
  · obtain ⟨m, hm⟩ := hreferences
    exact indexed_ok hm

theorem Viewed.readsIndexed {s : LevelStore} {v : NamespaceView} {name : Bytes} {revision : Bool}
    (hv : Viewed s name revision v) (hs : s.Closed) (hcf : CollisionFree payloads)
    (hknown : Known s payloads) : ReadsIndexed v := by
  have htree {id root : Hash} {t : Treap.KeyTree Bytes Hash}
      (h : HoldsVersion s.objects id root t) : ReadsIndexed ⟨s.catalog, .tree root⟩ := by
    refine readsIndexed_of (fun key => ⟨_, h.lookup hcf hknown key⟩)
      (fun pre => ⟨_, h.keys hcf hknown pre⟩) ⟨_, h.references hcf hknown⟩ fun key value hvalue => ?_
    rw [h.lookup hcf hknown] at hvalue
    obtain ⟨b, -, hb⟩ := h.get hcf hknown (Except.ok.inj hvalue)
    exact ⟨b, hb⟩
  cases hv with
  | flat hname hworld hhead =>
    exact readsIndexed_of (fun key => ⟨_, rfl⟩) (fun pre => ⟨_, rfl⟩) ⟨_, rfl⟩
      fun key id hid => hs.named key id (Except.ok.inj hid)
  | world hworld id root tree hhead hversion => exact htree hversion
  | revision hrevision id manifest root tree parent sequence hroot hobject hversion =>
    exact htree hversion

/-- A closed store has integrity. -/
theorem LevelStore.Closed.integrity {s : LevelStore} (hs : s.Closed) (hcf : CollisionFree payloads)
    (hknown : Known s payloads) : s.Integrity := by
  refine ⟨hs.counted.1, hs.counted.2, fun key id hroot => ?_, fun link id hreached => ?_,
    fun name revision => ?_, fun name revision v hv => ?_⟩
  · obtain ⟨b, hb⟩ := hs.named key id hroot
    exact ⟨b, ObjectStore.object_eq_ok.mp hb, s.objects.checked_object id b hb⟩
  · obtain ⟨b, hb⟩ := (hreached.sound hs).readable
    exact ⟨b, ObjectStore.object_eq_ok.mp hb⟩
  · rcases open_cases name revision hs hcf hknown with h | h | ⟨v, h⟩
    · simp [Indexed, h]
    · simp [Indexed, h]
    · exact indexed_ok h
  · exact (viewed_of_open hs hv).readsIndexed hs hcf hknown

/-- Every reachable store has integrity, as long as the payloads that were hashed do not collide. -/
theorem store_integrity {events : List ContainerEvent} (h : Container.run events = .ok c)
    (hcf : CollisionFree { b | b ∈ c.hashed }) : c.store.Integrity := by
  obtain ⟨hs, hknown⟩ := Container.run_closed h hcf
  exact hs.integrity hcf hknown

end Runs

section Samples

local instance integrityDigest : Digest := sha256

/-- The payloads of a new World with a root directory do not collide. -/
theorem collisionFree_sampleInit : CollisionFree { b | b ∈
    (after (NamespaceCall.fsInit.method sampleMain sampleEnv) .create).hashed } :=
  NoCollisions.collisionFree (by decide +kernel)

theorem store_integrity_sample : ∃ c, Container.run [sampleInit] = .ok c ∧ c.store.roots.size = 3 ∧
    c.store.Integrity := by
  have hrun : Container.run [sampleInit] =
      .ok (after (NamespaceCall.fsInit.method sampleMain sampleEnv) .create) := rfl
  exact ⟨_, hrun, by decide +kernel, store_integrity hrun collisionFree_sampleInit⟩

end Samples

end ForkFs
