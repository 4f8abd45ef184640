import ForkFs.Container.Reachable
import Mathlib.Logic.Relation

/-!
# Advisory locks

Locks belong to open descriptions. In every reachable container conflicting locks of one file
exclude each other, a request is refused exactly if a live open description of the file holds a
conflicting range, and a position stays locked until it is unlocked through its own description
or the last descriptor of the description is closed.
-/

namespace ForkFs

open Bytes Outcome

namespace HandleTable

variable {t : HandleTable} {h : OpenHandle} {token : Bytes} {description k : ℕ} {m : LockMode}

/-- A description gives a mode to a position. -/
def LockHeld (t : HandleTable) (description k : ℕ) (mode : LockMode) : Prop :=
  ∃ cursor, t.cursors[description]? = some cursor ∧ Span.Holds cursor.locks k mode

/-- A description has a descriptor. -/
def DescriptionLive (t : HandleTable) (description : ℕ) : Prop :=
  ∃ (token : Bytes) (h : OpenHandle), t.handles[token]? = some h ∧ h.cursor = description

/-- The locks of a descriptor are those of its description. -/
theorem lockHeld_cursor (hd : t.Described) (htoken : t.handles[token]? = some h) :
    t.LockHeld h.cursor k m ↔ Span.Holds (t.cursorOf h).locks k m := by
  obtain ⟨cursor, hcursor⟩ := StdMap.mem_iff.mp (hd.live token h htoken)
  simp [LockHeld, cursorOf, hcursor]

/-- Replacing one description leaves the locks of the others. -/
theorem lockHeld_setCursor (cursor : Cursor) : (t.setCursor h cursor).LockHeld description k m ↔
    if description = h.cursor then Span.Holds cursor.locks k m else t.LockHeld description k m := by
  unfold LockHeld setCursor
  simp only [StdMap.getElem?_insert]
  split <;> simp

/-- A file position is no lock. -/
theorem LockHeld.moveTo (hheld : t.LockHeld description k m) (hd : t.Described)
    (htoken : t.handles[token]? = some h) (position : ℕ) :
    (t.moveTo h position).LockHeld description k m := by
  refine (lockHeld_setCursor _).mpr ?_
  split
  · rename_i hsame
    exact (lockHeld_cursor hd htoken).mp (hsame ▸ hheld)
  · exact hheld

/-- A lock call leaves the other descriptions, and the positions outside its range. -/
theorem LockHeld.relock (hheld : t.LockHeld description k m) (ht : t.LocksRight) (hd : t.Described)
    (htoken : t.handles[token]? = some h) {start stop : ℕ} (hlt : start < stop)
    (mode : Option LockMode)
    (hspared : h.cursor = description → ¬ (start ≤ k ∧ k < stop)) :
    (t.relock h start stop mode).LockHeld description k m := by
  refine (lockHeld_setCursor _).mpr ?_
  split
  · rename_i hsame
    have hholds := (lockHeld_cursor hd htoken).mp (hsame ▸ hheld)
    exact (Span.holds_assign (ht.wellLocked h).canonical hlt).mpr
      (by rw [if_neg (hspared hsame.symm)]; exact hholds)
  · exact hheld

/-- Opening a file uses an address that no description has. -/
theorem LockHeld.opened (hheld : t.LockHeld description k m) (hcursor : h.cursor = t.freshCursor) :
    (((t.add token h).setCursor h ⟨0, []⟩).counted h).LockHeld description k m := by
  obtain ⟨cursor, hfound, hholds⟩ := hheld
  have hne : description ≠ h.cursor := by
    rintro rfl
    exact t.freshCursor_notMem (hcursor ▸ StdMap.mem_iff.mpr ⟨cursor, hfound⟩)
  refine ⟨cursor, ?_, hholds⟩
  rw [cursors_counted]
  change (t.cursors.insert h.cursor _)[description]? = _
  rw [StdMap.getElem?_insert, if_neg hne, hfound]

/-- Duplicating a descriptor makes no description. -/
theorem LockHeld.duplicated (hheld : t.LockHeld description k m) :
    ((t.add token h).counted h).LockHeld description k m := by
  obtain ⟨cursor, hfound, hholds⟩ := hheld
  exact ⟨cursor, by rw [cursors_counted]; exact hfound, hholds⟩

/-- Closing a descriptor leaves every description that still has one. -/
theorem LockHeld.closed (hheld : t.LockHeld description k m) (hd : t.Described)
    (htoken : t.handles[token]? = some h)
    (hlive : ((t.uncounted h).erase token).DescriptionLive description) :
    ((t.uncounted h).erase token).LockHeld description k m := by
  obtain ⟨x, h', hx, rfl⟩ := hlive
  obtain ⟨hne, hother⟩ := mem_handles_erase.mp hx
  rw [handles_uncounted] at hother
  have hsame : ((t.uncounted h).erase token).cursorOf h' = t.cursorOf h' := by
    rw [cursorOf_erase (by rwa [handles_uncounted]) hne (by rwa [handles_uncounted])]
    unfold cursorOf
    rw [cursors_uncounted]
  rw [lockHeld_cursor (hd.step (.closed token h htoken)) hx, hsame]
  exact (lockHeld_cursor hd hother).mp hheld

/-- Every descriptor of a description is alike. -/
def DescribedAs (t : HandleTable) (h : OpenHandle) : Prop :=
  ∀ (token : Bytes) h', t.handles[token]? = some h' → h'.cursor = h.cursor → h' = h

/-- What a description is of does not change while it is open. -/
theorem DescribedAs.step {t' : HandleTable} (has : t.DescribedAs h) (hopen : h.cursor ∈ t.cursors)
    (hstep : t.Step t') : t'.DescribedAs h := by
  intro x h' hx hcursor
  cases hstep with
  | same | moved | locked => exact has x h' hx hcursor
  | opened token g hfresh hg =>
    rw [handles_counted] at hx
    rcases mem_handles_add.mp hx with ⟨-, rfl⟩ | ⟨-, hx⟩
    · exact absurd hopen (by rw [← hcursor, hg]; exact t.freshCursor_notMem)
    · exact has x h' hx hcursor
  | duplicated source token g hsource hfresh =>
    rw [handles_counted] at hx
    rcases mem_handles_add.mp hx with ⟨-, rfl⟩ | ⟨-, hx⟩
    · exact has source _ hsource hcursor
    · exact has x h' hx hcursor
  | closed token g htoken =>
    obtain ⟨-, hx⟩ := mem_handles_erase.mp hx
    rw [handles_uncounted] at hx
    exact has x h' hx hcursor
  | reset => simp [empty] at hx

/-- A descriptor keeps its record until it is closed. -/
theorem Step.handle {t' : HandleTable} (hstep : t.Step t') (htoken : t.handles[token]? = some h) :
    t'.handles[token]? = some h ∨ t'.handles[token]? = none := by
  cases hstep with
  | same | moved | locked => exact Or.inl htoken
  | opened x g hfresh hg =>
    refine Or.inl ?_
    rw [handles_counted]
    refine mem_handles_add.mpr (Or.inr ⟨?_, htoken⟩)
    rintro rfl
    exact hfresh (StdMap.mem_iff.mpr ⟨h, htoken⟩)
  | duplicated source x g hsource hfresh =>
    refine Or.inl ?_
    rw [handles_counted]
    refine mem_handles_add.mpr (Or.inr ⟨?_, htoken⟩)
    rintro rfl
    exact hfresh (StdMap.mem_iff.mpr ⟨h, htoken⟩)
  | closed x g hx =>
    by_cases hsame : token = x
    · exact Or.inr (by rw [handles_erase, StdMap.getElem?_erase, if_pos hsame])
    · exact Or.inl (mem_handles_erase.mpr ⟨hsame, by rwa [handles_uncounted]⟩)
  | reset => exact Or.inr (by simp [empty])

end HandleTable

section Runs

variable [Digest] {ns : Namespace} {op : NamespaceCall} {c c' : Container} {description k : ℕ}
  {m : LockMode}

/-- An event is a lock request through the description for a range with the position. -/
def Container.Relocks (c : Container) (description k : ℕ) (event : ContainerEvent) : Prop :=
  ∃ ns env token mode start length h,
    event = .call (.onView ns env (.tryLockRange token mode start length)) ∧
    c.table.handles[token]? = some h ∧ h.cursor = description ∧
    start ≤ k ∧ k < Namespace.lockEnd start length

/-- One event that leaves a position of a description alone. -/
def Container.Spares (description k : ℕ) (c c' : Container) : Prop :=
  ∃ event, c.step event = .ok c' ∧ ¬ c.Relocks description k event ∧
    c'.table.DescriptionLive description

/-- The result of a lock request through a valid descriptor. -/
theorem tryLockRange_eq {token : Bytes} {h : OpenHandle} {mode : Option LockMode} {start length : ℕ}
    (htoken : c.table.handles[token]? = some h) (hview : h.view = ns.view)
    (hrevision : h.revision = ns.revision) (hstart : start < HandleTable.offsetLimit)
    (hlength : length ≤ HandleTable.offsetLimit - start) :
    ns.tryLockRange token mode start length c =
      if ∃ m ∈ mode, c.table.blocked h start (Namespace.lockEnd start length) m then .ok false c
      else if (Span.assign start (Namespace.lockEnd start length) mode
          (c.table.cursorOf h).locks).length ≤ 128 then
        .ok true { c with table := c.table.relock h start (Namespace.lockEnd start length) mode }
      else .error "open description lock range limit reached" c := by
  have hneed : (attempt (need (start ≤ HandleTable.offsetLimit - 1 ∧
      (length = 0 ∨ length ≤ HandleTable.offsetLimit - start))
      "lock range exceeds signed offset space") : Method Unit) c = .ok () c := by
    rw [need_of ⟨by omega, Or.inr hlength⟩]
    rfl
  have hfind : ns.findHandle token c = .ok h c := by
    rw [Namespace.findHandle, get_bind]
    simp only [htoken]
    rw [need_of ⟨hview, hrevision⟩]
    rfl
  rw [Namespace.tryLockRange, bind_of_ok hneed, bind_of_ok hfind, get_bind]
  split
  · rfl
  · split
    · rename_i hcount
      have hok : (attempt (need ((Span.assign start (Namespace.lockEnd start length) mode
          (c.table.cursorOf h).locks).length ≤ 128) "open description lock range limit reached") :
          Method Unit) c = .ok () c := by
        rw [need_of hcount]
        rfl
      rw [bind_of_ok hok]
      rfl
    · rename_i hcount
      rw [need_of_not hcount]
      rfl

/-- An operation keeps the positions of a live description, except those that it locks or
unlocks itself. -/
theorem Performed.lockHeld (hperformed : Performed ns op c c') (ht : c.table.Consistent)
    (hheld : c.table.LockHeld description k m) (hlive : c'.table.DescriptionLive description)
    (hspared : ∀ token mode start length h, op = .tryLockRange token mode start length →
      c.table.handles[token]? = some h → h.cursor = description →
      ¬ (start ≤ k ∧ k < Namespace.lockEnd start length)) :
    c'.table.LockHeld description k m := by
  cases hperformed with
  | unchanged | snapshot | forked => exact hheld
  | updated v edits created _ hworld hv hplanned hcommit => rwa [hcommit.table]
  | wroteNext v edits created c₁ token h position hworld hv hplanned hcommit htoken =>
    change (c₁.table.moveTo h position).LockHeld description k m
    rw [hcommit.table]
    exact hheld.moveTo ht.described htoken position
  | opened v env path o opening token h _ hworld hmode hlimit hv hopening hfresh hhandle hcommit =>
    rw [hcommit.table]
    exact hheld.opened hhandle.2.2.2
  | duplicated source token h hsource hview hrevision hlimit hfresh => exact hheld.duplicated
  | closed token h hop htoken hview hrevision hkept => exact hheld.closed ht.described htoken hlive
  | dropped token h store hop htoken hview hrevision hworld hcount horphan hstore =>
    exact hheld.closed ht.described htoken hlive
  | moved token h position htoken => exact hheld.moveTo ht.described htoken position
  | locked token h mode start stop length hop hend htoken hview hrevision hlt hstop hfree hlength =>
    refine hheld.relock ht.locks ht.described htoken hlt mode fun hcursor => ?_
    rw [hend]
    exact hspared token mode start length h hop htoken hcursor

/-- An event that spares a position of a description keeps it held. -/
theorem Container.Spares.lockHeld (hspares : Container.Spares description k c c')
    (ht : c.table.Consistent) (hheld : c.table.LockHeld description k m) :
    c'.table.LockHeld description k m := by
  obtain ⟨event, hstep, hrelocks, hlive⟩ := hspares
  cases step_happened ht.described ht.counts hstep with
  | performed ns env op _ hperformed =>
    refine hperformed.lockHeld ht hheld hlive ?_
    rintro token mode start length h rfl htoken hcursor hk
    exact hrelocks ⟨ns, env, token, mode, start, length, h, rfl, htoken, hcursor, hk⟩
  | refused | user | pinned | collected => exact hheld
  | restarted interrupted _ hdrops =>
    obtain ⟨store, rfl⟩ := dropsAll_frame hdrops
    obtain ⟨token, h, htoken, -⟩ := hlive
    simp [Container.exit, HandleTable.empty] at htoken

/-- Along every run that spares a position of a description, the position stays held and some
descriptor has the same record. -/
theorem lockHeld_of_spared {token : Bytes} {h : OpenHandle}
    (hrun : Relation.ReflTransGen (Container.Spares h.cursor k) c c') (ht : c.table.Consistent)
    (htoken : c.table.handles[token]? = some h) (hheld : c.table.LockHeld h.cursor k m) :
    c'.table.Consistent ∧ c'.table.LockHeld h.cursor k m ∧ c'.table.DescribedAs h ∧
      ∃ token' : Bytes, c'.table.handles[token']? = some h := by
  induction hrun with
  | refl =>
    refine ⟨ht, hheld, ?_, token, htoken⟩
    exact fun token' h' htoken' hsame => ht.described.alike token' token h' h htoken' htoken hsame
  | tail _ hspares ih =>
    obtain ⟨ht₁, hheld₁, has, token₁, htoken₁⟩ := ih
    have hheld₂ := hspares.lockHeld ht₁ hheld₁
    obtain ⟨event, hstep, -, token₂, h₂, htoken₂, hcursor⟩ := hspares
    have htable := Container.step_table ht₁ hstep
    have has₂ := has.step (ht₁.described.live _ _ htoken₁) htable
    refine ⟨ht₁.step htable, hheld₂, has₂, token₂, ?_⟩
    rw [htoken₂, has₂ token₂ h₂ htoken₂ hcursor]

/-- Every lock after an event is of a description that was open before it. -/
theorem Container.descriptionLive_of_lockHeld {event : ContainerEvent} (ht : c.table.Consistent)
    (hstep : c.step event = .ok c') (hheld : c'.table.LockHeld description k m) :
    c.table.DescriptionLive description := by
  have hused {t : HandleTable} (hd : t.Described) (h : t.LockHeld description k m) :
      t.DescriptionLive description := by
    obtain ⟨cursor, hcursor, -⟩ := h
    exact hd.used _ (StdMap.mem_iff.mpr ⟨cursor, hcursor⟩)
  have hset {token : Bytes} {h : OpenHandle} {cursor : Cursor}
      (htoken : c.table.handles[token]? = some h)
      (h' : (c.table.setCursor h cursor).LockHeld description k m) :
      c.table.DescriptionLive description := by
    rw [HandleTable.lockHeld_setCursor] at h'
    split at h'
    · rename_i hsame
      exact ⟨token, h, htoken, hsame.symm⟩
    · exact hused ht.described h'
  have htable := step_table ht hstep
  generalize c'.table = t' at htable hheld
  cases htable with
  | same => exact hused ht.described hheld
  | opened token h hfresh hcursor =>
    obtain ⟨cursor, hfound, hholds⟩ := hheld
    rw [HandleTable.cursors_counted] at hfound
    change (c.table.cursors.insert h.cursor ⟨0, []⟩)[description]? = _ at hfound
    rw [StdMap.getElem?_insert] at hfound
    split at hfound
    · cases hfound
      obtain ⟨r, hr, -⟩ := hholds
      simp at hr
    · exact hused ht.described ⟨cursor, hfound, hholds⟩
  | duplicated source token h hsource hfresh =>
    obtain ⟨cursor, hfound, hholds⟩ := hheld
    rw [HandleTable.cursors_counted] at hfound
    exact hused ht.described ⟨cursor, hfound, hholds⟩
  | closed token h htoken =>
    obtain ⟨x, h', hx, hcursor⟩ := hused (ht.described.step (.closed token h htoken)) hheld
    obtain ⟨-, hx⟩ := HandleTable.mem_handles_erase.mp hx
    exact ⟨x, h', by rwa [HandleTable.handles_uncounted] at hx, hcursor⟩
  | moved token h htoken position => exact hset htoken hheld
  | locked token h htoken mode start stop hlt hstop hfree hlength => exact hset htoken hheld
  | reset =>
    obtain ⟨cursor, hfound, -⟩ := hheld
    simp [HandleTable.empty] at hfound

/-- A duplicate has the record of its source. -/
theorem dup_handles {env : Env} {token token' : Bytes} (hdup : ns.dup env token c = .ok token' c') :
    ∃ h, c'.table.handles[token]? = some h ∧ c'.table.handles[token']? = some h := by
  obtain ⟨h, hsource, -, -, -, hfresh, rfl⟩ := attains_dup_token.of_ok hdup
  have hne : token ≠ token' := by
    rintro rfl
    exact hfresh (StdMap.mem_iff.mpr ⟨h, hsource⟩)
  refine ⟨h, ?_, ?_⟩ <;> rw [HandleTable.handles_counted, HandleTable.mem_handles_add]
  · exact Or.inr ⟨hne, hsource⟩
  · exact Or.inl ⟨rfl, rfl⟩

/-- The ranges that a descriptor sees. -/
def Container.ranges (c : Container) (token : Bytes) : Option (List (Span LockMode)) :=
  (c.table.handles[token]?).map fun h => (c.table.cursorOf h).locks

/-- One event that closes neither of two descriptors. -/
def Container.KeepsOpen (token token' : Bytes) (c c' : Container) : Prop :=
  ∃ event, c.step event = .ok c' ∧ token ∈ c'.table.handles ∧ token' ∈ c'.table.handles

/-- What advisory locks guarantee in a state. -/
structure Container.LockSafety (c : Container) : Prop where
  /-- Overlapping ranges of two open descriptions of a file are shared. -/
  exclusive : ∀ (token token' : Bytes) h h' r r', c.table.handles[token]? = some h →
    c.table.handles[token']? = some h' → HandleTable.competes h h' →
    r ∈ (c.table.cursorOf h).locks → r' ∈ (c.table.cursorOf h').locks →
    r.start < r'.stop → r'.start < r.stop → r.mode = .shared ∧ r'.mode = .shared
  /-- The ranges of every open description are well formed. -/
  shape : ∀ (token : Bytes) h, c.table.handles[token]? = some h →
    HandleTable.WellLocked (c.table.cursorOf h).locks
  /-- A duplicate and its source see the same ranges as long as both are open. -/
  duplicates : ∀ (ns : Namespace) env token token' c₁ c₂, ns.dup env token c = .ok token' c₁ →
    Relation.ReflTransGen (Container.KeepsOpen token token') c₁ c₂ →
    ∃ locks, c₂.ranges token = some locks ∧ c₂.ranges token' = some locks
  /-- A request is refused exactly if another open description of the file holds a conflicting
  range, and a refusal changes nothing. -/
  refused : ∀ (ns : Namespace) token h mode start length, c.table.handles[token]? = some h →
    h.view = ns.view → h.revision = ns.revision → start < HandleTable.offsetLimit →
    length ≤ HandleTable.offsetLimit - start →
    ((∃ c', ns.tryLockRange token (some mode) start length c = .ok false c') ↔
      ∃ (token' : Bytes) (h' : OpenHandle) (r : Span LockMode),
        c.table.handles[token']? = some h' ∧ HandleTable.competes h h' ∧
        r ∈ (c.table.cursorOf h').locks ∧
        HandleTable.conflicts start (Namespace.lockEnd start length) mode r) ∧
    ∀ c', ns.tryLockRange token (some mode) start length c = .ok false c' → c' = c
  /-- A locked position keeps excluding conflicting requests of other open descriptions as long as
  its own description has a descriptor and does not lock or unlock it again. -/
  persists : ∀ (token : Bytes) h k mode c', c.table.handles[token]? = some h →
    Span.Holds (c.table.cursorOf h).locks k mode →
    Relation.ReflTransGen (Container.Spares h.cursor k) c c' →
    ∀ (ns : Namespace) token' h' mode' start length, c'.table.handles[token']? = some h' →
      HandleTable.competes h h' → h'.view = ns.view → h'.revision = ns.revision →
      start < HandleTable.offsetLimit → length ≤ HandleTable.offsetLimit - start →
      start ≤ k → k < Namespace.lockEnd start length → mode = .exclusive ∨ mode' = .exclusive →
      ns.tryLockRange token' (some mode') start length c' = .ok false c'
  /-- A description without descriptors holds nothing, and its locks do not return. -/
  released : ∀ description, ¬ c.table.DescriptionLive description → ∀ k mode,
    ¬ c.table.LockHeld description k mode ∧
    ∀ event c', c.step event = .ok c' → ¬ c'.table.LockHeld description k mode

/-- A refused request. -/
theorem tryLockRange_refused {token : Bytes} {h : OpenHandle} {mode : LockMode} {start length : ℕ}
    (htoken : c.table.handles[token]? = some h) (hview : h.view = ns.view)
    (hrevision : h.revision = ns.revision) (hstart : start < HandleTable.offsetLimit)
    (hlength : length ≤ HandleTable.offsetLimit - start)
    (hblocked : c.table.blocked h start (Namespace.lockEnd start length) mode) :
    ns.tryLockRange token (some mode) start length c = .ok false c := by
  rw [tryLockRange_eq htoken hview hrevision hstart hlength, if_pos ⟨mode, rfl, hblocked⟩]

/-- A request that is answered with a refusal was excluded, and changed nothing. -/
theorem blocked_of_refused {token : Bytes} {h : OpenHandle} {mode : LockMode} {start length : ℕ}
    (htoken : c.table.handles[token]? = some h) (hview : h.view = ns.view)
    (hrevision : h.revision = ns.revision) (hstart : start < HandleTable.offsetLimit)
    (hlength : length ≤ HandleTable.offsetLimit - start)
    (hrefused : ns.tryLockRange token (some mode) start length c = .ok false c') :
    c.table.blocked h start (Namespace.lockEnd start length) mode ∧ c' = c := by
  rw [tryLockRange_eq htoken hview hrevision hstart hlength] at hrefused
  split at hrefused
  · rename_i hblocked
    obtain ⟨m, hm, hblocked⟩ := hblocked
    cases hm
    cases hrefused
    exact ⟨hblocked, rfl⟩
  · split at hrefused <;> cases hrefused

/-- Two descriptors with one record keep it while both are open. -/
theorem ranges_of_keepsOpen {token token' : Bytes} {h : OpenHandle}
    (hrun : Relation.ReflTransGen (Container.KeepsOpen token token') c c')
    (ht : c.table.Consistent) (htoken : c.table.handles[token]? = some h)
    (htoken' : c.table.handles[token']? = some h) :
    c'.table.Consistent ∧ c'.table.handles[token]? = some h ∧
      c'.table.handles[token']? = some h := by
  induction hrun with
  | refl => exact ⟨ht, htoken, htoken'⟩
  | tail _ hkeeps ih =>
    obtain ⟨ht₁, hfirst, hsecond⟩ := ih
    obtain ⟨event, hstep, hopen, hopen'⟩ := hkeeps
    have htable := Container.step_table ht₁ hstep
    refine ⟨ht₁.step htable, ?_, ?_⟩
    · exact (htable.handle hfirst).resolve_right fun hnone => StdMap.notMem_iff.mpr hnone hopen
    · exact (htable.handle hsecond).resolve_right fun hnone => StdMap.notMem_iff.mpr hnone hopen'

/-- Advisory locks are safe in every reachable state. -/
theorem advisory_locks {events : List ContainerEvent} (hrun : Container.run events = .ok c) :
    c.LockSafety := by
  have ht := Container.run_table hrun
  constructor
  case exclusive =>
    intro token token' h h' r r' htoken htoken' hcompetes hr hr' hleft hright
    obtain ⟨k, hk, hk'⟩ := (ht.locks.wellLocked h).canonical.overlap
      (ht.locks.wellLocked h').canonical hr hr' hleft hright
    exact ht.locks.exclusive token token' h h' k _ _ htoken htoken' hcompetes hk hk'
  case shape => exact fun token h _ => ht.locks.wellLocked h
  case duplicates =>
    intro ns env token token' c₁ c₂ hdup hkeeps
    obtain ⟨h, htoken, htoken'⟩ := dup_handles hdup
    have hperformed : Performed ns (.dup token) c c₁ := attains_dup.of_ok hdup
    obtain ⟨-, hfirst, hsecond⟩ :=
      ranges_of_keepsOpen hkeeps (ht.step hperformed.step) htoken htoken'
    exact ⟨(c₂.table.cursorOf h).locks, by simp [Container.ranges, hfirst],
      by simp [Container.ranges, hsecond]⟩
  case refused =>
    intro ns token h mode start length htoken hview hrevision hstart hlength
    refine ⟨⟨?_, ?_⟩, fun c' hrefused =>
      (blocked_of_refused htoken hview hrevision hstart hlength hrefused).2⟩
    · rintro ⟨c', hrefused⟩
      obtain ⟨⟨⟨token', h'⟩, hmem, hcompetes, r, hr, hconflicts⟩, -⟩ :=
        blocked_of_refused htoken hview hrevision hstart hlength hrefused
      exact ⟨token', h', r, StdMap.mem_toList.mp hmem, hcompetes, hr, hconflicts⟩
    · rintro ⟨token', h', r, htoken', hcompetes, hr, hconflicts⟩
      exact ⟨c, tryLockRange_refused htoken hview hrevision hstart hlength
        ⟨(token', h'), StdMap.mem_toList.mpr htoken', hcompetes, r, hr, hconflicts⟩⟩
  case persists =>
    intro token h k mode c' htoken hholds hspared ns token' h' mode' start length htoken' hcompetes
      hview hrevision hstart hlength hle hlt hmodes
    obtain ⟨ht', hheld, -, token₁, htoken₁⟩ := lockHeld_of_spared hspared ht htoken
      ((HandleTable.lockHeld_cursor ht.described htoken).mpr hholds)
    obtain ⟨r, hr, hcovers, rfl⟩ := (HandleTable.lockHeld_cursor ht'.described htoken₁).mp hheld
    unfold Span.Covers at hcovers
    exact tryLockRange_refused htoken' hview hrevision hstart hlength
      ⟨(token₁, h), StdMap.mem_toList.mpr htoken₁, HandleTable.competes_symm hcompetes, r, hr,
        by omega, by omega, hmodes.symm⟩
  case released =>
    intro description hdead k mode
    refine ⟨fun hheld => ?_, fun event c' hstep hheld =>
      hdead (Container.descriptionLive_of_lockHeld ht hstep hheld)⟩
    obtain ⟨cursor, hcursor, -⟩ := hheld
    exact hdead (ht.described.used _ (StdMap.mem_iff.mpr ⟨cursor, hcursor⟩))

end Runs

section Samples

local instance advisoryDigest : Digest := sha256

/-- Identities of one repeated digit. -/
def sampleDigit (digit : Fin 10) : InodeId :=
  ⟨List.replicate 32 (UInt8.ofNat (48 + digit.val)), by revert digit; decide +kernel⟩

/-- The opening of a file, which is created if it is missing. -/
def sampleOpen (draws : List InodeId) : ContainerCall :=
  .onView sampleMain ⟨fun _ => 0, draws⟩
    (.openHandle (ascii "/f") .readWrite ⟨true, false, false, 0o644, false, false⟩)

/-- Two openings of a file, of which the first locks it. -/
def sampleLocked : List ContainerCall :=
  [.onView sampleMain sampleEnv .fsInit, sampleOpen [sampleDigit 1, sampleDigit 2],
    sampleOpen [sampleDigit 3],
    .onView sampleMain sampleEnv (.tryLockRange (sampleDigit 2).val (some .exclusive) 0 0)]

/-- Lock safety after these calls. -/
theorem advisory_locks_sample :
    ∃ c, Container.run (sampleLocked.map .call) = .ok c ∧ c.LockSafety := by
  obtain ⟨c, hrun⟩ := Container.run_calls sampleLocked
  exact ⟨c, hrun, advisory_locks hrun⟩

end Samples

end ForkFs
