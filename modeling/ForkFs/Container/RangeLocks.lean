import ForkFs.Container.Advisory

/-!
# Range locks, offset by offset

A lock request acts on every offset by itself: inside the range the open description gets the
requested mode, outside it keeps what it had. The stored ranges are the only canonical list with
these modes, so the limit of 128 ranges is one on the modes, not on the history of requests.
-/

namespace ForkFs

open Bytes Outcome

section Requests

variable [Digest] {ns : Namespace} {c c' : Container} {token : Bytes} {h : OpenHandle}
  {mode : Option LockMode} {start length : ℕ}

/-- Another open description of the file holds an overlapping range, and one of the two modes is
exclusive. -/
def Container.Excludes (c : Container) (h : OpenHandle) (start stop : ℕ)
    (mode : Option LockMode) : Prop :=
  ∃ (token' : Bytes) (h' : OpenHandle) (r : Span LockMode) (m : LockMode),
    c.table.handles[token']? = some h' ∧ h'.cursor ≠ h.cursor ∧ h'.view = h.view ∧
    h'.revision = h.revision ∧ h'.inode = h.inode ∧ r ∈ (c.table.cursorOf h').locks ∧
    mode = some m ∧ start < r.stop ∧ r.start < stop ∧ (m = .exclusive ∨ r.mode = .exclusive)

/-- The canonical list of the modes after a request. -/
structure Requested (old : List (Span LockMode)) (start stop : ℕ) (mode : Option LockMode)
    (l : List (Span LockMode)) : Prop where
  /-- Ranges are non-empty, sorted, disjoint, and neighbours differ in mode. -/
  canonical : Span.Canonical l
  /-- Inside the range there is the requested mode, none for an unlock. -/
  inside : ∀ k m, start ≤ k → k < stop → (Span.Holds l k m ↔ mode = some m)
  /-- Outside there is what was there before. -/
  outside : ∀ k m, ¬ (start ≤ k ∧ k < stop) → (Span.Holds l k m ↔ Span.Holds old k m)

omit [Digest] in
theorem requested_assign {old : List (Span LockMode)} {stop : ℕ} (hold : Span.Canonical old)
    (hlt : start < stop) : Requested old start stop mode (Span.assign start stop mode old) := by
  refine ⟨hold.assign hlt mode, fun k m hstart hstop => ?_, fun k m hout => ?_⟩
  · rw [Span.holds_assign hold hlt, if_pos ⟨hstart, hstop⟩]
  · rw [Span.holds_assign hold hlt, if_neg hout]

omit [Digest] in
/-- There is only one such list. -/
theorem Requested.unique {old l l' : List (Span LockMode)} {stop : ℕ}
    (hl : Requested old start stop mode l) (hl' : Requested old start stop mode l') : l = l' := by
  refine hl.canonical.ext hl'.canonical fun k m => ?_
  by_cases hk : start ≤ k ∧ k < stop
  · rw [hl.inside k m hk.1 hk.2, hl'.inside k m hk.1 hk.2]
  · rw [hl.outside k m hk, hl'.outside k m hk]

omit [Digest] in
/-- Clearing the whole offset space leaves nothing. -/
theorem assign_none_of_limit {old : List (Span LockMode)} (hold : Span.Canonical old)
    (hlimit : ∀ r ∈ old, r.stop ≤ HandleTable.offsetLimit) :
    Span.assign 0 HandleTable.offsetLimit none old = [] := by
  have hlt : 0 < HandleTable.offsetLimit := by decide
  refine (hold.assign hlt none).ext ⟨by simp, List.Pairwise.nil⟩ fun k m => ?_
  rw [Span.holds_assign hold hlt]
  constructor
  · intro hholds
    split at hholds
    · cases hholds
    · rename_i hout
      obtain ⟨r, hr, hcovers, -⟩ := hholds
      have hstop := hlimit r hr
      unfold Span.Covers at hcovers
      omega
  · rintro ⟨r, hr, -⟩
    cases hr

/-- What a granted request does: it replaces the ranges of one open description. -/
structure Container.Granted (c : Container) (h : OpenHandle) (start stop : ℕ)
    (mode : Option LockMode) (c' : Container) : Prop where
  /-- The modes of the description are as requested. -/
  locks : Requested (c.table.cursorOf h).locks start stop mode (c'.table.cursorOf h).locks
  /-- Its file position stays. -/
  position : (c'.table.cursorOf h).position = (c.table.cursorOf h).position
  /-- No other description changes. -/
  others : ∀ description ≠ h.cursor,
    c'.table.cursors[description]? = c.table.cursors[description]?
  /-- Nothing else changes. -/
  frame : c' = { c with table := { c.table with cursors := c'.table.cursors } }

/-- What lock requests do, offset by offset. -/
structure Container.LocksPointwise (c : Container) : Prop where
  /-- A request through a descriptor is refused exactly if another description excludes it, and
  then nothing changes. Otherwise there is one canonical list of the requested modes. It is stored,
  unless it has more than 128 ranges. -/
  request : ∀ (ns : Namespace) (token : Bytes) h mode start length,
    c.table.handles[token]? = some h → h.view = ns.view → h.revision = ns.revision →
    start ≤ 2 ^ 63 - 1 → length = 0 ∨ start + length ≤ 2 ^ 63 →
    let stop := if length = 0 then 2 ^ 63 else start + length
    ((∃ c', ns.tryLockRange token mode start length c = .ok false c') ↔
      c.Excludes h start stop mode) ∧
    (∀ c', ns.tryLockRange token mode start length c = .ok false c' → c' = c) ∧
    (¬ c.Excludes h start stop mode →
      ∃ l, Requested (c.table.cursorOf h).locks start stop mode l ∧
        (l.length ≤ 128 → ∃ c', ns.tryLockRange token mode start length c = .ok true c' ∧
          c.Granted h start stop mode c') ∧
        (128 < l.length → ∃ message,
          ns.tryLockRange token mode start length c = .error message c))
  /-- An unlock of the whole file succeeds and leaves no locks. -/
  unlock : ∀ (ns : Namespace) (token : Bytes) h, c.table.handles[token]? = some h →
    h.view = ns.view → h.revision = ns.revision →
    ∃ c', ns.tryLock token none c = .ok true c' ∧ (c'.table.cursorOf h).locks = []

theorem excludes_iff_blocked {stop : ℕ} :
    c.Excludes h start stop mode ↔ ∃ m ∈ mode, c.table.blocked h start stop m := by
  constructor
  · rintro ⟨token', h', r, m, htoken', hcursor, hview, hrevision, hinode, hr, hmode, hleft, hright,
      hmodes⟩
    exact ⟨m, hmode, (token', h'), StdMap.mem_toList.mpr htoken',
      ⟨hcursor, hview, hrevision, hinode⟩, r, hr, hleft, hright, hmodes⟩
  · rintro ⟨m, hmode, ⟨token', h'⟩, hmem, ⟨hcursor, hview, hrevision, hinode⟩, r, hr, hleft,
      hright, hmodes⟩
    exact ⟨token', h', r, m, StdMap.mem_toList.mp hmem, hcursor, hview, hrevision, hinode, hr, hmode,
      hleft, hright, hmodes⟩

omit [Digest] in
theorem locks_relock (t : HandleTable) (h : OpenHandle) (start stop : ℕ) (mode : Option LockMode) :
    ((t.relock h start stop mode).cursorOf h).locks =
      Span.assign start stop mode (t.cursorOf h).locks := by
  rw [HandleTable.relock, HandleTable.cursorOf_setCursor, if_pos rfl]

theorem granted_relock {stop : ℕ} (hlocks : Span.Canonical (c.table.cursorOf h).locks)
    (hlt : start < stop) :
    c.Granted h start stop mode { c with table := c.table.relock h start stop mode } := by
  refine ⟨?_, ?_, fun description hne => ?_, rfl⟩
  · change Requested _ start stop mode ((c.table.relock h start stop mode).cursorOf h).locks
    rw [locks_relock]
    exact requested_assign hlocks hlt
  · change ((c.table.relock h start stop mode).cursorOf h).position = _
    rw [HandleTable.relock, HandleTable.cursorOf_setCursor, if_pos rfl]
  · change (c.table.cursors.insert h.cursor _)[description]? = _
    rw [StdMap.getElem?_insert, if_neg hne]

/-- A request that is not excluded is granted, unless there are too many ranges. -/
theorem tryLockRange_of_not_excludes (htoken : c.table.handles[token]? = some h)
    (hview : h.view = ns.view) (hrevision : h.revision = ns.revision)
    (hstart : start < HandleTable.offsetLimit) (hlength : length ≤ HandleTable.offsetLimit - start)
    (hfree : ¬ c.Excludes h start (Namespace.lockEnd start length) mode) :
    ns.tryLockRange token mode start length c =
      if (Span.assign start (Namespace.lockEnd start length) mode
          (c.table.cursorOf h).locks).length ≤ 128 then
        .ok true { c with table := c.table.relock h start (Namespace.lockEnd start length) mode }
      else .error "open description lock range limit reached" c := by
  rw [tryLockRange_eq htoken hview hrevision hstart hlength,
    if_neg (excludes_iff_blocked.not.mp hfree)]

/-- What a request through a descriptor does. -/
theorem tryLockRange_pointwise (hlocks : Span.Canonical (c.table.cursorOf h).locks)
    (htoken : c.table.handles[token]? = some h) (hview : h.view = ns.view)
    (hrevision : h.revision = ns.revision) (hstart : start < HandleTable.offsetLimit)
    (hlength : length ≤ HandleTable.offsetLimit - start) :
    ((∃ c', ns.tryLockRange token mode start length c = .ok false c') ↔
      c.Excludes h start (Namespace.lockEnd start length) mode) ∧
    (∀ c', ns.tryLockRange token mode start length c = .ok false c' → c' = c) ∧
    (¬ c.Excludes h start (Namespace.lockEnd start length) mode →
      ∃ l, Requested (c.table.cursorOf h).locks start (Namespace.lockEnd start length) mode l ∧
        (l.length ≤ 128 → ∃ c', ns.tryLockRange token mode start length c = .ok true c' ∧
          c.Granted h start (Namespace.lockEnd start length) mode c') ∧
        (128 < l.length → ∃ message,
          ns.tryLockRange token mode start length c = .error message c)) := by
  have hlimit : HandleTable.offsetLimit = 2 ^ 63 := rfl
  have hlt : start < Namespace.lockEnd start length := by
    unfold Namespace.lockEnd
    split <;> omega
  have hrefused : ∀ c', ns.tryLockRange token mode start length c = .ok false c' →
      c.Excludes h start (Namespace.lockEnd start length) mode ∧ c' = c := by
    intro c' hrefused
    by_cases hfree : c.Excludes h start (Namespace.lockEnd start length) mode
    · rw [tryLockRange_eq htoken hview hrevision hstart hlength,
        if_pos (excludes_iff_blocked.mp hfree)] at hrefused
      cases hrefused
      exact ⟨hfree, rfl⟩
    · rw [tryLockRange_of_not_excludes htoken hview hrevision hstart hlength hfree] at hrefused
      split at hrefused <;> cases hrefused
  refine ⟨⟨fun ⟨c', hc'⟩ => (hrefused c' hc').1, fun hexcludes => ⟨c, ?_⟩⟩,
    fun c' hc' => (hrefused c' hc').2, fun hfree => ⟨_, requested_assign hlocks hlt, ?_, ?_⟩⟩
  · rw [tryLockRange_eq htoken hview hrevision hstart hlength,
      if_pos (excludes_iff_blocked.mp hexcludes)]
  · intro hshort
    refine ⟨_, ?_, granted_relock hlocks hlt⟩
    rw [tryLockRange_of_not_excludes htoken hview hrevision hstart hlength hfree, if_pos hshort]
  · intro hlong
    refine ⟨"open description lock range limit reached", ?_⟩
    rw [tryLockRange_of_not_excludes htoken hview hrevision hstart hlength hfree,
      if_neg (not_le.mpr hlong)]

/-- An unlock of the whole file succeeds. -/
theorem tryLock_none (hwell : HandleTable.WellLocked (c.table.cursorOf h).locks)
    (htoken : c.table.handles[token]? = some h) (hview : h.view = ns.view)
    (hrevision : h.revision = ns.revision) :
    ∃ c', ns.tryLock token none c = .ok true c' ∧ (c'.table.cursorOf h).locks = [] := by
  have hfree : ¬ c.Excludes h 0 (Namespace.lockEnd 0 0) none := by
    rintro ⟨_, _, _, m, -, -, -, -, -, -, hmode, -⟩
    cases hmode
  have hnone : Span.assign 0 (Namespace.lockEnd 0 0) none (c.table.cursorOf h).locks = [] :=
    assign_none_of_limit hwell.canonical hwell.limit
  refine ⟨{ c with table := c.table.relock h 0 (Namespace.lockEnd 0 0) none }, ?_, ?_⟩
  · rw [Namespace.tryLock,
      tryLockRange_of_not_excludes htoken hview hrevision (by decide) (Nat.zero_le _) hfree,
      if_pos (by rw [hnone]; exact Nat.zero_le _)]
  · exact (locks_relock _ _ _ _ _).trans hnone

/-- In every reachable repository lock requests act offset by offset. -/
theorem range_lock_requests {events : List ContainerEvent} (hrun : Container.run events = .ok c) :
    c.LocksPointwise := by
  have hlocks := (Container.run_table hrun).locks
  have hlimit : HandleTable.offsetLimit = 2 ^ 63 := rfl
  refine ⟨fun ns token h mode start length htoken hview hrevision hstart hlength => ?_,
    fun ns token h htoken hview hrevision =>
      tryLock_none (hlocks.wellLocked h) htoken hview hrevision⟩
  exact tryLockRange_pointwise (hlocks.wellLocked h).canonical htoken hview hrevision (by omega)
    (by omega)

end Requests

section Samples

local instance rangeLocksDigest : Digest := sha256

/-- Pointwise locks after a file was opened twice and locked once. -/
theorem range_lock_requests_sample :
    ∃ c, Container.run (sampleLocked.map .call) = .ok c ∧ c.LocksPointwise := by
  obtain ⟨c, hrun⟩ := Container.run_calls sampleLocked
  exact ⟨c, hrun, range_lock_requests hrun⟩

end Samples

end ForkFs
