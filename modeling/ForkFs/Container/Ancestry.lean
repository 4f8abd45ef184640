import ForkFs.Container.Garbage

/-!
# Ancestry of revisions

Every revision and every base leads through finitely many revision records to one without a
parent. Each record captures the sequence number of the store at its snapshot, so the captured
numbers decrease towards the ancestors.
-/

namespace ForkFs

open Bytes Outcome

section Ancestry

variable [Digest] {payloads : Set Bytes} {s s' : LevelStore} {objects objects' : ObjectStore}
  {id : Hash} {bound bound' : ℕ}

section Dates

/-- A revision whose captured sequence number is below a bound, and which is a bound for its
parent. -/
inductive Dated (objects : ObjectStore) : ℕ → Hash → Prop
  /-- The first revision of a World. -/
  | first {bound sequence : ℕ} {id manifest : Hash}
      (hobject : objects.object id = .ok (Namespace.descriptor manifest Hash.zero sequence))
      (hsequence : sequence < bound) : Dated objects bound id
  /-- A revision after another one. -/
  | next {bound sequence : ℕ} {id manifest parent : Hash}
      (hobject : objects.object id = .ok (Namespace.descriptor manifest parent sequence))
      (hsequence : sequence < bound) (hparent : Dated objects sequence parent) :
      Dated objects bound id

theorem Dated.mono (h : Dated objects bound id) (hext : objects.Extends objects')
    (hbound : bound ≤ bound') : Dated objects' bound' id := by
  induction h generalizing bound' with
  | first hobject hsequence => exact .first (hext _ _ hobject) (hsequence.trans_le hbound)
  | next hobject hsequence _ ih =>
    exact .next (hext _ _ hobject) (hsequence.trans_le hbound) (ih le_rfl)

theorem Dated.record (h : Dated objects bound id) : ∃ b, objects.object id = .ok b := by
  cases h with
  | first hobject => exact ⟨_, hobject⟩
  | next hobject => exact ⟨_, hobject⟩

/-- The ancestors of a revision are kept with it. -/
theorem Dated.retained (h : Dated s.objects bound id) (hkeeps : Keeps s objects)
    (hcf : CollisionFree payloads) (hknown : Known s payloads) (hreached : Reached s .revision id) :
    Dated objects bound id := by
  induction h with
  | first hobject hsequence => exact .first (hkeeps.reached hreached hobject) hsequence
  | next hobject hsequence hparent ih =>
    refine .next (hkeeps.reached hreached hobject) hsequence (ih ?_)
    obtain ⟨b, hb⟩ := hparent.record
    exact hreached.parent hobject (ne_zero_of_object hcf hknown hb)

/-- What a root of a revision or a base leads to is dated. -/
def RootName.Dates (objects : ObjectStore) (bound : ℕ) (target : Hash) : RootName → Prop
  | .revision _ => Dated objects bound target
  | .base _ => ∃ parent : Hash, objects.object target = .ok parent.val ∧ Dated objects bound parent
  | _ => True

theorem RootName.Dates.mono {n : RootName} (h : n.Dates objects bound id)
    (hext : objects.Extends objects') (hbound : bound ≤ bound') : n.Dates objects' bound' id := by
  cases n with
  | revision name => exact Dated.mono h hext hbound
  | base name =>
    obtain ⟨parent, hobject, hparent⟩ := h
    exact ⟨parent, hext _ _ hobject, hparent.mono hext hbound⟩
  | _ => trivial

/-- The revisions of a store were made at earlier sequence numbers. -/
structure LevelStore.Chronological (s : LevelStore) : Prop where
  /-- Sequence numbers have 64 bits. -/
  sequence : s.sequence < 2 ^ 64
  /-- Revisions and bases are dated. -/
  dates : ∀ (n : RootName) target, s.roots[n.key]? = some target →
    n.Dates s.objects s.sequence target

/-- A mutation of neither a revision nor a base. -/
def Mutation.Undated (m : Mutation) : Prop := ∀ n : RootName, n.key = m.key → n.mark ∉ [97, 101]

omit [Digest] in
theorem undated_of_aside {m : Mutation} (h : Aside m.key) : m.Undated := by
  intro n hn
  have hmark := h n hn
  simp only [List.mem_cons, List.not_mem_nil, or_false, not_or] at hmark ⊢
  exact ⟨hmark.1, hmark.2.2.1⟩

omit [Digest] in
theorem undated_of_name {m : Mutation} (n : RootName) (hkey : m.key = n.key)
    (hn : n.mark ∉ [97, 101]) : m.Undated := by
  intro n' hn'
  rwa [RootName.key_inj.mp (hn'.trans hkey)]

/-- A batch keeps a store chronological if it dates what it binds. -/
theorem LevelStore.Chronological.transact (hs : s.Chronological) {expected : ℕ}
    {mutations : List Mutation} (h : s.transact expected mutations = .ok s')
    (hbatch : ∀ m ∈ mutations, m.Undated ∨ ∀ (n : RootName) target, n.key = m.key →
      m.target = some target → n.Dates s'.objects s'.sequence target) : s'.Chronological := by
  have htransacted := LevelStore.transact_eq_ok h
  have hlast : s.sequence ≠ 2 ^ 64 - 1 := by
    obtain ⟨-, h⟩ := need_bind_eq_ok.mp h
    exact (need_bind_eq_ok.mp h).1
  have hsequence := htransacted.sequence
  refine ⟨?_, fun n target hroot => ?_⟩
  · have hbound := hs.sequence
    omega
  rcases htransacted.root_cases hroot with ⟨m, hm, hkey, htarget⟩ | hold
  · rcases hbatch m hm with hundated | hdates
    · have hmark := hundated n hkey.symm
      cases n <;> first | trivial | simp [RootName.mark] at hmark
    · exact hdates n target hkey.symm htarget
  · exact (hs.dates n target hold).mono htransacted.extends_ (by omega)

end Dates

section Batches

variable {v : NamespaceView} {ns : Namespace} {world name revision : Bytes} {b : Commit}
  {expected : ℕ}

/-- A commit binds no revision and no base. -/
theorem CommitPlanned.undated {edits : List Edit}
    (h : CommitPlanned world v (Edit.changes edits) b) : ∀ m ∈ b.mutations, m.Undated := by
  have hedit {e : Bytes × Option Bytes} (he : e ∈ (Edit.changes edits).toList) :
      (Mutation.assign e.1 e.2).Undated := by
    obtain ⟨edit, -, rfl⟩ := mem_changes he
    exact undated_of_aside (aside_edit edit)
  intro m hm
  cases h with
  | flat hlegacy hroot =>
    obtain ⟨e, he, rfl⟩ := List.mem_map.mp hm
    exact hedit he
  | retained hinit hrecords =>
    obtain ⟨e, he, rfl⟩ := List.mem_map.mp hm
    exact hedit (List.mem_of_mem_filter he)
  | version hinit hrecords plan hplan =>
    rcases mem_versionCommit_mutations.mp hm with ⟨e, he, rfl⟩ | ⟨e, he, rfl⟩ | rfl
    · exact hedit (List.mem_of_mem_filter he)
    · rcases mem_versionObjects he with ⟨b, -, rfl⟩ | ⟨change, -, -, -, rfl⟩
      · exact undated_of_name (.object (objectHash b)) rfl (by simp [RootName.mark])
      · exact undated_of_aside (aside_allocated _)
    · exact undated_of_name (.world world) rfl (by simp [RootName.mark])

/-- A snapshot captures a sequence number above those of its ancestors. -/
theorem SnapshotPlanned.chronological (h : SnapshotPlanned ns s name id b)
    (hdates : s.Chronological) (hcf : CollisionFree payloads) (hs : s.Closed)
    (hknown : Known s payloads) (hstore : s.transact expected b.mutations = .ok s')
    (hhashed : ∀ x ∈ b.hashed, x ∈ payloads) : s'.Chronological := by
  have htransacted := LevelStore.transact_eq_ok hstore
  have hknown' := h.known hknown htransacted hhashed
  refine hdates.transact hstore fun m hm => ?_
  cases h with
  | record v manifest parent staged record hfresh hv hstaged hparent hrecord =>
    have hobject : s'.objects.object (objectHash record) = .ok record :=
      object_of_registered hcf hs htransacted hknown' (hhashed record (by simp))
        (Or.inr ⟨.assign (RootName.revision name).key (some record), by simp, rfl⟩)
    have hbase : s'.objects.object (objectHash (objectHash record).val) =
        .ok (objectHash record).val :=
      object_of_registered hcf hs htransacted hknown' (hhashed _ (by simp))
        (Or.inr ⟨.assign (RootName.base ns.view).key (some (objectHash record).val), by simp, rfl⟩)
    have hlater : s.sequence < s'.sequence := by
      rw [htransacted.sequence]
      exact Nat.lt_succ_self _
    have hdated : Dated s'.objects s'.sequence (objectHash record) := by
      rcases parentRevision_eq_ok hparent with rfl | ⟨target, htarget, hread⟩
      · exact .first (hobject.trans (by rw [hrecord])) hlater
      · obtain ⟨parent', hread', hparent'⟩ := hdates.dates (.base ns.view) target htarget
        obtain rfl : parent' = parent := Subtype.ext (Except.ok.inj (hread'.symm.trans hread))
        exact .next (hobject.trans (by rw [hrecord])) hlater
          (hparent'.mono htransacted.extends_ le_rfl)
    rcases List.mem_append.mp hm with hm | hm
    · refine Or.inl ?_
      obtain ⟨x, rfl, -⟩ := hstaged.registered m hm
      exact undated_of_name (.object (objectHash x)) rfl (by simp [RootName.mark])
    · refine Or.inr fun n target hkey htarget => ?_
      rcases List.mem_cons.mp hm with rfl | hm
      · rw [RootName.key_inj.mp (hkey.trans rfl : n.key = (RootName.revision name).key)]
        cases htarget
        exact hdated
      · rw [List.mem_singleton.mp hm] at hkey htarget
        rw [RootName.key_inj.mp (hkey.trans rfl : n.key = (RootName.base ns.view).key)]
        cases htarget
        exact ⟨_, hbase, hdated⟩

/-- A fork starts from the ancestors of its revision. -/
theorem ForkPlanned.chronological (h : ForkPlanned s revision world b) (hdates : s.Chronological)
    (hcf : CollisionFree payloads) (hs : s.Closed) (hknown : Known s payloads)
    (hstore : s.transact expected b.mutations = .ok s')
    (hhashed : ∀ x ∈ b.hashed, x ∈ payloads) : s'.Chronological := by
  have htransacted := LevelStore.transact_eq_ok hstore
  have hknown' := h.known hknown htransacted hhashed
  refine hdates.transact hstore fun m hm => ?_
  cases h with
  | fork id manifest v record hworld hbase hroot hobject hrecord hv =>
    rcases List.mem_cons.mp hm with rfl | hm
    · exact Or.inl (undated_of_name (.world world) rfl (by simp [RootName.mark]))
    · refine Or.inr fun n target hkey htarget => ?_
      rw [List.mem_singleton.mp hm] at hkey htarget
      rw [RootName.key_inj.mp (hkey.trans rfl : n.key = (RootName.base world).key)]
      cases htarget
      have hdated : Dated s.objects s.sequence id := hdates.dates (.revision revision) id hroot
      refine ⟨id, ?_, hdated.mono htransacted.extends_ (by rw [htransacted.sequence]; omega)⟩
      exact object_of_registered hcf hs htransacted hknown' (hhashed _ (by simp))
        (Or.inr ⟨.assign (RootName.base world).key (some id.val), by simp, rfl⟩)

/-- Deleting roots binds nothing. -/
theorem LevelStore.Chronological.deletes {keys : List Bytes} (hdates : s.Chronological)
    (hstore : s.transact expected (keys.map fun key => .assign key none) = .ok s') :
    s'.Chronological := by
  refine hdates.transact hstore fun m hm => Or.inr fun n target _ htarget => ?_
  obtain ⟨key, -, rfl⟩ := List.mem_map.mp hm
  cases htarget

/-- A collection keeps ancestors. -/
theorem Collected.chronological {removed : ℕ} (h : Collected s removed s')
    (hlast : s.sequence ≠ 2 ^ 64 - 1) (hdates : s.Chronological) (hcf : CollisionFree payloads)
    (hknown : Known s payloads) : s'.Chronological := by
  have hsequence := h.sequence
  refine ⟨?_, fun n target hroot => ?_⟩
  · have hbound := hdates.sequence
    omega
  have hold := ((h.root n.key target).mp hroot).1
  have hn := hdates.dates n target hold
  cases n with
  | revision name =>
    have hdated : Dated s.objects s.sequence target := hn
    have hkept := hdated.retained h.keeps hcf hknown (.start (.revision hold))
    exact hkept.mono (fun _ _ hb => hb) (by omega)
  | base name =>
    obtain ⟨parent, hobject, hparent⟩ := hn
    have hreached : Reached s .revision (Hash.ofBytes parent.val) :=
      .start (.base hold hobject parent.property)
    rw [Hash.ofBytes_val] at hreached
    refine ⟨parent, h.keeps _ _ (Or.inl ⟨_, hold, ?_⟩) hobject, ?_⟩
    · exact not_registry_of_start (.base hold hobject parent.property)
    · exact (hparent.retained h.keeps hcf hknown hreached).mono (fun _ _ hb => hb) (by omega)
  | _ => trivial

end Batches

section Runs

variable {c c' : Container}

/-- The revisions are chronological as far as the hashed payloads do not collide. -/
def Container.Chronicled (c : Container) : Prop :=
  ∀ payloads : Set Bytes, CollisionFree payloads → (∀ b ∈ c.hashed, b ∈ payloads) →
    c.store.Chronological

theorem Commits.chronicled {world : Bytes} {v : NamespaceView} {edits : List Edit}
    {created : Option InodeId} (h : Commits c world v edits created c') (hc : c.Chronicled) :
    c'.Chronicled := by
  cases h with
  | nothing => exact hc
  | batch b store hedits hplan hstore =>
    intro payloads hcf hhashed
    have hdates := hc payloads hcf fun x hx => hhashed x (List.mem_append_left _ hx)
    exact hdates.transact hstore fun m hm => Or.inl ((planCommit_eq_ok hplan).undated m hm)

theorem Performed.chronicled {ns : Namespace} {op : NamespaceCall} (h : Performed ns op c c')
    (hintact : c.Intact) (hc : c.Chronicled) : c'.Chronicled := by
  cases h with
  | unchanged | duplicated | closed | moved | locked => exact hc
  | updated v edits created _ hworld hv hplanned hcommit => exact hcommit.chronicled hc
  | wroteNext v edits created c₁ token h position hworld hv hplanned hcommit htoken =>
    exact hcommit.chronicled hc
  | opened v env path o opening token h _ hworld hmode hlimit hv hopening hfresh hhandle hcommit =>
    exact hcommit.chronicled hc
  | snapshot name id b store hname hworld hplan hstore =>
    intro payloads hcf hhashed
    have hold : ∀ x ∈ c.hashed, x ∈ payloads := fun x hx => hhashed x (List.mem_append_left _ hx)
    obtain ⟨hs, hknown⟩ := hintact payloads hcf hold
    exact (planSnapshot_eq_ok hplan).chronological (hc payloads hcf hold) hcf hs hknown hstore
      fun x hx => hhashed x (List.mem_append_right _ hx)
  | forked revision world b store hrevision hname hmain hworld hplan hstore =>
    intro payloads hcf hhashed
    have hold : ∀ x ∈ c.hashed, x ∈ payloads := fun x hx => hhashed x (List.mem_append_left _ hx)
    obtain ⟨hs, hknown⟩ := hintact payloads hcf hold
    exact (planFork_eq_ok hplan).chronological (hc payloads hcf hold) hcf hs hknown hstore
      fun x hx => hhashed x (List.mem_append_right _ hx)
  | dropped token h store hop htoken hview hrevision hworld hcount horphan hstore =>
    intro payloads hcf hhashed
    have hdeletes : c.store.transact c.store.sequence
        ([(RootName.orphanInode h.view h.inode).key, (RootName.orphanContent h.view h.inode).key].map
          fun key => .assign key none) = .ok store := hstore
    exact (hc payloads hcf hhashed).deletes hdeletes

theorem chronicled_dropsAll (h : c.DropsAll c') (hc : c.Chronicled) : c'.Chronicled := by
  induction h with
  | refl => exact hc
  | tail _ hdrops ih =>
    obtain ⟨keys, store, -, hstore, rfl⟩ := hdrops
    exact fun payloads hcf hhashed => (ih payloads hcf hhashed).deletes hstore

theorem Container.Happened.chronicled {event : ContainerEvent} (h : c.Happened event c')
    (hintact : c.Intact) (hc : c.Chronicled) : c'.Chronicled := by
  cases h with
  | performed ns env op _ hperformed => exact hperformed.chronicled hintact hc
  | refused | pinned => exact hc
  | restarted interrupted _ hdrops => exact chronicled_dropsAll hdrops hc
  | user op expected mutations store hkeys hstore =>
    intro payloads hcf hhashed
    have hdates := hc payloads hcf fun x hx => hhashed x (List.mem_append_left _ hx)
    refine hdates.transact hstore fun m hm => Or.inl ?_
    exact undated_of_aside (aside_of_not_reserved (hkeys m hm))
  | collected removed store hhandles hpins hplan =>
    intro payloads hcf hhashed
    obtain ⟨hs, hknown⟩ := hintact payloads hcf hhashed
    exact (planCollect_spec hs hcf hknown hplan).chronological
      (planCollect_sequence hs hcf hknown hplan) (hc payloads hcf hhashed) hcf hknown

end Runs

end Ancestry

section Samples

local instance ancestryDigest : Digest := sha256

end Samples

end ForkFs
