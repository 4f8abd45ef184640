import ForkFs.Container.Table

/-!
# Invariants of the table of open files

`Step` lists what a call can do to the table. From it follow the invariants of every reachable
table: open descriptions live exactly as long as a descriptor names them, counts are right, and
no two open descriptions of one file hold conflicting locks.
-/

namespace ForkFs

open Bytes

namespace HandleTable

section Steps

/-- Count a new descriptor, unless it is of a revision. -/
def counted (t : HandleTable) (h : OpenHandle) : HandleTable :=
  if h.revision then t else t.count h.file

/-- Stop counting a descriptor. -/
def uncounted (t : HandleTable) (h : OpenHandle) : HandleTable :=
  if h.revision then t else t.uncount h.file

/-- What a call can do to the table. -/
inductive Step (t : HandleTable) : HandleTable → Prop
  /-- Nothing. -/
  | same : Step t t
  /-- Open a file. -/
  | opened (token : Bytes) (h : OpenHandle) (hfresh : token ∉ t.handles)
      (hcursor : h.cursor = t.freshCursor) :
      Step t (((t.add token h).setCursor h ⟨0, []⟩).counted h)
  /-- Duplicate a descriptor. -/
  | duplicated (source token : Bytes) (h : OpenHandle) (hsource : t.handles[source]? = some h)
      (hfresh : token ∉ t.handles) : Step t ((t.add token h).counted h)
  /-- Close a descriptor. -/
  | closed (token : Bytes) (h : OpenHandle) (htoken : t.handles[token]? = some h) :
      Step t ((t.uncounted h).erase token)
  /-- Move the file position. -/
  | moved (token : Bytes) (h : OpenHandle) (htoken : t.handles[token]? = some h) (position : ℕ) :
      Step t (t.moveTo h position)
  /-- Change the mode of a range that no other open description excludes. -/
  | locked (token : Bytes) (h : OpenHandle) (htoken : t.handles[token]? = some h)
      (mode : Option LockMode) (start stop : ℕ) (hlt : start < stop) (hstop : stop ≤ offsetLimit)
      (hfree : ∀ m ∈ mode, ¬ t.blocked h start stop m)
      (hlength : (Span.assign start stop mode (t.cursorOf h).locks).length ≤ 128) :
      Step t (t.relock h start stop mode)
  /-- End the process. -/
  | reset : Step t .empty

end Steps

variable {t t' : HandleTable} {token token' : Bytes} {h h' : OpenHandle}

section Lemmas

theorem freshCursor_notMem (t : HandleTable) : t.freshCursor ∉ t.cursors := by
  have hfold : ∀ (l : List (ℕ × Cursor)) (n : ℕ),
      n ≤ l.foldl (fun address e => max address (e.1 + 1)) n ∧
        ∀ e ∈ l, e.1 < l.foldl (fun address e => max address (e.1 + 1)) n := by
    intro l
    induction l with
    | nil => simp
    | cons e l ih =>
      intro n
      obtain ⟨hle, hall⟩ := ih (max n (e.1 + 1))
      rw [List.foldl_cons]
      refine ⟨by omega, fun x hx => ?_⟩
      rcases List.mem_cons.mp hx with rfl | hx
      · omega
      · exact hall x hx
  intro hmem
  obtain ⟨c, hc⟩ := StdMap.mem_iff.mp hmem
  exact absurd ((hfold t.cursors.toList 0).2 _ (StdMap.mem_toList.mpr hc)) (lt_irrefl _)

@[simp] theorem handles_counted (t : HandleTable) (h : OpenHandle) :
    (t.counted h).handles = t.handles := by
  unfold counted count
  split <;> rfl

@[simp] theorem cursors_counted (t : HandleTable) (h : OpenHandle) :
    (t.counted h).cursors = t.cursors := by
  unfold counted count
  split <;> rfl

@[simp] theorem handles_uncounted (t : HandleTable) (h : OpenHandle) :
    (t.uncounted h).handles = t.handles := by
  unfold uncounted uncount
  repeat' split
  all_goals rfl

@[simp] theorem cursors_uncounted (t : HandleTable) (h : OpenHandle) :
    (t.uncounted h).cursors = t.cursors := by
  unfold uncounted uncount
  repeat' split
  all_goals rfl

@[simp] theorem openCounts_erase (t : HandleTable) (token : Bytes) :
    (t.erase token).openCounts = t.openCounts := by
  unfold erase
  split <;> rfl

theorem handles_erase (t : HandleTable) (token : Bytes) :
    (t.erase token).handles = t.handles.erase token := by
  unfold erase
  cases htoken : t.handles[token]? with
  | some h => rfl
  | none =>
    apply StdMap.ext
    intro x
    rw [StdMap.getElem?_erase]
    change t.handles[x]? = _
    by_cases hx : x = token
    · rw [if_pos hx, hx, htoken]
    · rw [if_neg hx]

/-- The added descriptor or one of the others. -/
theorem mem_handles_add {x : Bytes} : (t.add token h).handles[x]? = some h' ↔
    x = token ∧ h' = h ∨ x ≠ token ∧ t.handles[x]? = some h' := by
  change (t.handles.insert token h)[x]? = some h' ↔ _
  rw [StdMap.getElem?_insert]
  by_cases hx : x = token <;> simp [hx, eq_comm]

/-- A descriptor other than the removed one. -/
theorem mem_handles_erase {x : Bytes} :
    (t.erase token).handles[x]? = some h' ↔ x ≠ token ∧ t.handles[x]? = some h' := by
  rw [handles_erase, StdMap.getElem?_erase]
  by_cases hx : x = token <;> simp [hx]

/-- A description that another descriptor names stays. -/
theorem cursors_erase_of_shared (htoken : t.handles[token]? = some h) {x : Bytes} (hx : x ≠ token)
    (hother : t.handles[x]? = some h') (hsame : h'.cursor = h.cursor) :
    (t.erase token).cursors = t.cursors := by
  have hmem : (x, h') ∈ (t.handles.erase token).toList := by
    rw [StdMap.mem_toList, StdMap.getElem?_erase, if_neg hx, hother]
  unfold erase
  simp only [htoken]
  rw [if_neg fun hall => hall _ hmem hsame]

/-- The description of the last descriptor goes with it. -/
theorem cursors_erase_of_last (htoken : t.handles[token]? = some h)
    (hlast : ∀ (x : Bytes) h', x ≠ token → t.handles[x]? = some h' → h'.cursor ≠ h.cursor) :
    (t.erase token).cursors = t.cursors.erase h.cursor := by
  have hall : ∀ e ∈ (t.handles.erase token).toList, e.2.cursor ≠ h.cursor := by
    rintro ⟨x, h'⟩ he
    have he := StdMap.mem_toList.mp he
    rw [StdMap.getElem?_erase] at he
    split at he
    · cases he
    · exact hlast x h' ‹_› he
  unfold erase
  simp only [htoken]
  rw [if_pos hall]

/-- The open description of a remaining descriptor is unchanged. -/
theorem cursorOf_erase (htoken : t.handles[token]? = some h) {x : Bytes} (hx : x ≠ token)
    (hother : t.handles[x]? = some h') : (t.erase token).cursorOf h' = t.cursorOf h' := by
  unfold cursorOf
  by_cases hlast : ∃ (y : Bytes) (g : OpenHandle), y ≠ token ∧ t.handles[y]? = some g ∧
      g.cursor = h.cursor
  · obtain ⟨y, g, hy, hg, hsame⟩ := hlast
    rw [cursors_erase_of_shared htoken hy hg hsame]
  · have hlast : ∀ (y : Bytes) g, y ≠ token → t.handles[y]? = some g → g.cursor ≠ h.cursor :=
      fun y g hy hg hsame => hlast ⟨y, g, hy, hg, hsame⟩
    rw [cursors_erase_of_last htoken hlast, StdMap.getElem?_erase,
      if_neg (hlast x h' hx hother)]

theorem cursorOf_setCursor (t : HandleTable) (h h' : OpenHandle) (cursor : Cursor) :
    (t.setCursor h cursor).cursorOf h' = if h'.cursor = h.cursor then cursor else t.cursorOf h' := by
  unfold cursorOf setCursor
  rw [StdMap.getElem?_insert]
  split <;> rfl

end Lemmas

section Descriptions

/-- Open descriptions live exactly as long as descriptors, and descriptors that share one are
duplicates of each other. -/
structure Described (t : HandleTable) : Prop where
  /-- A descriptor names a description. -/
  live : ∀ (token : Bytes) h, t.handles[token]? = some h → h.cursor ∈ t.cursors
  /-- A description has a descriptor. -/
  used : ∀ a ∈ t.cursors, ∃ (token : Bytes) (h : OpenHandle), t.handles[token]? = some h ∧ h.cursor = a
  /-- Descriptors of one description are alike. -/
  alike : ∀ (token token' : Bytes) h h', t.handles[token]? = some h → t.handles[token']? = some h' →
    h.cursor = h'.cursor → h = h'

theorem described_empty : Described empty :=
  ⟨by simp [empty], by simp [empty], by simp [empty]⟩

theorem Described.fresh (ht : t.Described) (htoken : t.handles[token]? = some h) :
    h.cursor ≠ t.freshCursor :=
  fun heq => t.freshCursor_notMem (heq ▸ ht.live token h htoken)

theorem Described.setCursor (ht : t.Described) (htoken : t.handles[token]? = some h)
    (cursor : Cursor) : (t.setCursor h cursor).Described := by
  refine ⟨fun x h' hx => ?_, fun a ha => ?_, ht.alike⟩
  · exact Std.ExtTreeMap.mem_insert.mpr (Or.inr (ht.live x h' hx))
  · rcases Std.ExtTreeMap.mem_insert.mp ha with heq | ha
    · exact ⟨token, h, htoken, compare_eq_iff_eq.mp heq⟩
    · exact ht.used a ha

theorem Described.step (ht : t.Described) (hstep : t.Step t') : t'.Described := by
  cases hstep with
  | same => exact ht
  | opened token h hfresh hcursor =>
    have hget (x : Bytes) (g : OpenHandle) :
        (((t.add token h).setCursor h ⟨0, []⟩).counted h).handles[x]? = some g ↔
          x = token ∧ g = h ∨ x ≠ token ∧ t.handles[x]? = some g := by
      rw [handles_counted]
      exact mem_handles_add
    have hmem (a : ℕ) : a ∈ (((t.add token h).setCursor h ⟨0, []⟩).counted h).cursors ↔
        a = h.cursor ∨ a ∈ t.cursors := by
      rw [cursors_counted]
      change a ∈ t.cursors.insert h.cursor ⟨0, []⟩ ↔ _
      rw [Std.ExtTreeMap.mem_insert, compare_eq_iff_eq, eq_comm]
    refine ⟨fun x g hx => ?_, fun a ha => ?_, fun x y g g' hx hy hsame => ?_⟩
    · rw [hmem]
      rcases (hget x g).mp hx with ⟨-, rfl⟩ | ⟨-, hx⟩
      · exact Or.inl rfl
      · exact Or.inr (ht.live x g hx)
    · rcases (hmem a).mp ha with rfl | ha
      · exact ⟨token, h, (hget _ _).mpr (Or.inl ⟨rfl, rfl⟩), rfl⟩
      · obtain ⟨x, g, hx, hg⟩ := ht.used a ha
        refine ⟨x, g, (hget _ _).mpr (Or.inr ⟨?_, hx⟩), hg⟩
        rintro rfl
        exact hfresh (StdMap.mem_iff.mpr ⟨g, hx⟩)
    · rcases (hget x g).mp hx with ⟨-, hg⟩ | ⟨-, hx⟩ <;>
        rcases (hget y g').mp hy with ⟨-, hg'⟩ | ⟨-, hy⟩
      · rw [hg, hg']
      · exact absurd ((hsame.symm.trans (congrArg _ hg)).trans hcursor) (ht.fresh hy)
      · exact absurd ((hsame.trans (congrArg _ hg')).trans hcursor) (ht.fresh hx)
      · exact ht.alike x y g g' hx hy hsame
  | duplicated source token h hsource hfresh =>
    have hget (x : Bytes) (g : OpenHandle) : ((t.add token h).counted h).handles[x]? = some g ↔
        x = token ∧ g = h ∨ x ≠ token ∧ t.handles[x]? = some g := by
      rw [handles_counted]
      exact mem_handles_add
    -- Every descriptor of the new table is one of the old table, under some token.
    have hold (x : Bytes) (g : OpenHandle) (hx : ((t.add token h).counted h).handles[x]? = some g) :
        ∃ y : Bytes, t.handles[y]? = some g := by
      rcases (hget x g).mp hx with ⟨-, rfl⟩ | ⟨-, hx⟩
      · exact ⟨source, hsource⟩
      · exact ⟨x, hx⟩
    refine ⟨fun x g hx => ?_, fun a ha => ?_, fun x y g g' hx hy hsame => ?_⟩
    · rw [cursors_counted]
      obtain ⟨y, hy⟩ := hold x g hx
      exact ht.live y g hy
    · rw [cursors_counted] at ha
      obtain ⟨x, g, hx, hg⟩ := ht.used a ha
      refine ⟨x, g, (hget _ _).mpr (Or.inr ⟨?_, hx⟩), hg⟩
      rintro rfl
      exact hfresh (StdMap.mem_iff.mpr ⟨g, hx⟩)
    · obtain ⟨x', hx'⟩ := hold x g hx
      obtain ⟨y', hy'⟩ := hold y g' hy
      exact ht.alike x' y' g g' hx' hy' hsame
  | closed token h htoken =>
    have htoken' : (t.uncounted h).handles[token]? = some h := by rwa [handles_uncounted]
    have hget (x : Bytes) (g : OpenHandle) : ((t.uncounted h).erase token).handles[x]? = some g ↔
        x ≠ token ∧ t.handles[x]? = some g := by
      rw [mem_handles_erase, handles_uncounted]
    by_cases hlast : ∃ (y : Bytes) (g : OpenHandle), y ≠ token ∧ t.handles[y]? = some g ∧
        g.cursor = h.cursor
    · obtain ⟨y, g, hy, hg, hsame⟩ := hlast
      have hcursors : ((t.uncounted h).erase token).cursors = t.cursors := by
        rw [cursors_erase_of_shared htoken' hy (by rwa [handles_uncounted]) hsame,
          cursors_uncounted]
      refine ⟨fun x k hx => ?_, fun a ha => ?_, fun x z k k' hx hz => ?_⟩
      · rw [hcursors]
        exact ht.live x k ((hget x k).mp hx).2
      · rw [hcursors] at ha
        obtain ⟨x, k, hx, rfl⟩ := ht.used a ha
        by_cases hxt : x = token
        · refine ⟨y, g, (hget y g).mpr ⟨hy, hg⟩, ?_⟩
          rw [hxt, htoken] at hx
          cases hx
          exact hsame
        · exact ⟨x, k, (hget x k).mpr ⟨hxt, hx⟩, rfl⟩
      · exact ht.alike x z k k' ((hget x k).mp hx).2 ((hget z k').mp hz).2
    · have hlast : ∀ (y : Bytes) g, y ≠ token → t.handles[y]? = some g → g.cursor ≠ h.cursor :=
        fun y g hy hg hsame => hlast ⟨y, g, hy, hg, hsame⟩
      have hcursors : ((t.uncounted h).erase token).cursors = t.cursors.erase h.cursor := by
        rw [cursors_erase_of_last htoken' (by rwa [handles_uncounted]), cursors_uncounted]
      refine ⟨fun x k hx => ?_, fun a ha => ?_, fun x z k k' hx hz => ?_⟩
      · obtain ⟨hxt, hx⟩ := (hget x k).mp hx
        rw [hcursors, Std.ExtTreeMap.mem_erase, ne_eq, compare_eq_iff_eq]
        exact ⟨fun heq => hlast x k hxt hx heq.symm, ht.live x k hx⟩
      · rw [hcursors, Std.ExtTreeMap.mem_erase, ne_eq, compare_eq_iff_eq] at ha
        obtain ⟨x, k, hx, rfl⟩ := ht.used a ha.2
        refine ⟨x, k, (hget x k).mpr ⟨?_, hx⟩, rfl⟩
        rintro rfl
        rw [htoken] at hx
        cases hx
        exact ha.1 rfl
      · exact ht.alike x z k k' ((hget x k).mp hx).2 ((hget z k').mp hz).2
  | moved token h htoken position => exact ht.setCursor htoken _
  | locked token h htoken mode start stop hlt hstop hfree hlength => exact ht.setCursor htoken _
  | reset => exact described_empty

end Descriptions

section Counts

/-- Whether a descriptor counts for a file. -/
def OfFile (file : OpenFile) (h : OpenHandle) : Prop := h.revision = false ∧ h.file = file

instance (file : OpenFile) (h : OpenHandle) : Decidable (OfFile file h) :=
  inferInstanceAs (Decidable (_ ∧ _))

/-- The number of descriptors of a file in a World. -/
def descriptors (t : HandleTable) (file : OpenFile) : ℕ :=
  t.handles.toList.countP fun e => OfFile file e.2

/-- Every count is the number of descriptors, and files without descriptors have none. -/
def CountsRight (t : HandleTable) : Prop :=
  ∀ file : OpenFile, t.openCounts[file]? =
    if t.descriptors file = 0 then none else some (t.descriptors file)

theorem descriptors_add (hfresh : token ∉ t.handles) (h : OpenHandle) (file : OpenFile) :
    (t.add token h).descriptors file = t.descriptors file + if OfFile file h then 1 else 0 := by
  change ((t.handles.insert token h).toList.countP _) = _
  rw [(StdMap.toList_insert_perm hfresh h).countP_eq, List.countP_cons]
  simp [descriptors]

theorem descriptors_erase (htoken : t.handles[token]? = some h) (file : OpenFile) :
    t.descriptors file = (t.erase token).descriptors file + if OfFile file h then 1 else 0 := by
  unfold descriptors
  rw [handles_erase, (StdMap.toList_erase_perm htoken).countP_eq, List.countP_cons]
  simp

theorem countsRight_empty : CountsRight empty := by
  intro file
  simp [empty, descriptors]

theorem count_self (t : HandleTable) (file : OpenFile) :
    (t.count file).openCounts[file]? = some (t.openCounts[file]?.getD 0 + 1) := by
  simp [count]

theorem count_of_ne (t : HandleTable) {file x : OpenFile} (hx : x ≠ file) :
    (t.count file).openCounts[x]? = t.openCounts[x]? := by
  simp [count, Std.ExtTreeMap.getElem?_insert, hx.symm]

theorem uncount_self (t : HandleTable) (file : OpenFile) :
    (t.uncount file).openCounts[file]? =
      t.openCounts[file]?.bind fun n => if n - 1 = 0 then none else some (n - 1) := by
  unfold uncount
  cases hfile : t.openCounts[file]? with
  | none => simpa using hfile
  | some n => by_cases hzero : n - 1 = 0 <;> simp [hzero]

theorem uncount_of_ne (t : HandleTable) {file x : OpenFile} (hx : x ≠ file) :
    (t.uncount file).openCounts[x]? = t.openCounts[x]? := by
  unfold uncount
  cases hfile : t.openCounts[file]? with
  | none => rfl
  | some n =>
    by_cases hzero : n - 1 = 0
    · simp [hzero, Std.ExtTreeMap.getElem?_erase, hx.symm]
    · simp [hzero, Std.ExtTreeMap.getElem?_insert, hx.symm]

theorem CountsRight.getD (ht : t.CountsRight) (file : OpenFile) :
    t.openCounts[file]?.getD 0 = t.descriptors file := by
  rw [ht file]
  split <;> simp [*]

/-- A file is open if it has descriptors. -/
theorem CountsRight.isOpen_iff_pos (ht : t.CountsRight) {view : Bytes} {id : InodeId} :
    t.isOpen view id = true ↔ 0 < t.descriptors (toLex (view, id)) := by
  rw [isOpen, ht (toLex (view, id))]
  split <;> rename_i hcount <;> split at hcount
  · cases hcount
  · cases hcount
    simp [Nat.pos_iff_ne_zero]
  · simp [*]
  · cases hcount

/-- A file is open if a descriptor of its World names it. -/
theorem CountsRight.isOpen_iff (ht : t.CountsRight) {view : Bytes} {id : InodeId} :
    t.isOpen view id = true ↔ ∃ (token : Bytes) (h : OpenHandle), t.handles[token]? = some h ∧
      h.revision = false ∧ h.view = view ∧ h.inode = id := by
  rw [ht.isOpen_iff_pos, descriptors, List.countP_pos_iff]
  constructor
  · rintro ⟨e, he, hof⟩
    obtain ⟨hrevision, hfile⟩ := of_decide_eq_true hof
    obtain ⟨hview, hid⟩ := Prod.mk.inj (toLex.injective hfile)
    exact ⟨e.1, e.2, StdMap.mem_toList.mp he, hrevision, hview, hid⟩
  · rintro ⟨token, h, htoken, hrevision, rfl, rfl⟩
    exact ⟨(token, h), StdMap.mem_toList.mpr htoken, decide_eq_true ⟨hrevision, rfl⟩⟩

/-- A new descriptor is counted. -/
theorem CountsRight.counted {t₁ : HandleTable} (ht : t.CountsRight)
    (hopen : t₁.openCounts = t.openCounts)
    (hd : ∀ file, t₁.descriptors file = t.descriptors file + if OfFile file h then 1 else 0) :
    (t₁.counted h).CountsRight := by
  intro file
  have hdescriptors : (t₁.counted h).descriptors file = t₁.descriptors file := by
    simp only [descriptors, handles_counted]
  rw [hdescriptors, hd, HandleTable.counted]
  by_cases hrev : h.revision
  · rw [if_pos hrev, hopen, ht file]
    simp [OfFile, hrev]
  · rw [if_neg hrev]
    by_cases hfile : file = h.file
    · subst hfile
      rw [count_self, hopen, ht.getD]
      simp [OfFile, hrev]
    · rw [count_of_ne _ hfile, hopen, ht file]
      simp [OfFile, Ne.symm hfile]

theorem CountsRight.step (ht : t.CountsRight) (hstep : t.Step t') : t'.CountsRight := by
  cases hstep with
  | same => exact ht
  | opened token h hfresh hcursor => exact ht.counted rfl fun file => descriptors_add hfresh h file
  | duplicated source token h hsource hfresh =>
    exact ht.counted rfl fun file => descriptors_add hfresh h file
  | closed token h htoken =>
    intro file
    have htoken' : (t.uncounted h).handles[token]? = some h := by rwa [handles_uncounted]
    have hdescriptors : t.descriptors file =
        ((t.uncounted h).erase token).descriptors file + if OfFile file h then 1 else 0 := by
      rw [← descriptors_erase htoken' file]
      simp only [descriptors, handles_uncounted]
    rw [openCounts_erase]
    generalize ((t.uncounted h).erase token).descriptors file = remaining at hdescriptors ⊢
    rw [uncounted]
    by_cases hrev : h.revision
    · rw [if_pos hrev, ht file, hdescriptors]
      simp [OfFile, hrev]
    · rw [if_neg hrev]
      by_cases hfile : file = h.file
      · subst hfile
        have hone : OfFile h.file h := ⟨by simpa using hrev, rfl⟩
        rw [if_pos hone] at hdescriptors
        rw [uncount_self, ht h.file, if_neg (by omega)]
        simp only [hdescriptors, Option.bind_some, Nat.add_sub_cancel]
      · have hnone : ¬ OfFile file h := fun hof => hfile hof.2.symm
        rw [if_neg hnone] at hdescriptors
        rw [uncount_of_ne _ hfile, ht file, hdescriptors]
        rfl
  | moved token h htoken position => exact ht
  | locked token h htoken mode start stop hlt hstop hfree hlength => exact ht
  | reset => exact countsRight_empty

/-- Counting a descriptor and then not counting it leaves right counts as they are. -/
theorem CountsRight.uncounted_counted {t₁ : HandleTable} (ht : t.CountsRight)
    (hopen : t₁.openCounts = t.openCounts) (h : OpenHandle) :
    ((t₁.counted h).uncounted h).openCounts = t.openCounts := by
  unfold uncounted HandleTable.counted
  by_cases hrev : h.revision
  · simp only [hrev, if_true, hopen]
  · simp only [hrev, if_false, Bool.false_eq_true]
    apply StdMap.ext
    intro x
    by_cases hx : x = h.file
    · subst hx
      rw [uncount_self, count_self, hopen, ht.getD, ht h.file]
      simp
    · rw [uncount_of_ne _ hx, count_of_ne _ hx, hopen]

theorem ext_fields (hhandles : t.handles = t'.handles) (hcounts : t.openCounts = t'.openCounts)
    (hcursors : t.cursors = t'.cursors) : t = t' := by
  cases t
  cases t'
  simp_all

/-- Opening a file can be undone. -/
theorem undo_opened (hd : t.Described) (hc : t.CountsRight) (hfresh : token ∉ t.handles)
    (hcursor : h.cursor = t.freshCursor) :
    (((((t.add token h).setCursor h ⟨0, []⟩).counted h).uncounted h).erase token) = t := by
  obtain ⟨t₁, ht₁⟩ : ∃ t₁, t₁ = (((t.add token h).setCursor h ⟨0, []⟩).counted h).uncounted h :=
    ⟨_, rfl⟩
  have hhandles : t₁.handles = t.handles.insert token h := by
    rw [ht₁, handles_uncounted, handles_counted]
    rfl
  have hcursors : t₁.cursors = t.cursors.insert h.cursor ⟨0, []⟩ := by
    rw [ht₁, cursors_uncounted, cursors_counted]
    rfl
  have hcounts : t₁.openCounts = t.openCounts := by
    have hopen : ((t.add token h).setCursor h ⟨0, []⟩).openCounts = t.openCounts := rfl
    rw [ht₁]
    exact hc.uncounted_counted hopen h
  have htoken : t₁.handles[token]? = some h := by
    rw [hhandles]
    simp
  have hlast : ∀ (x : Bytes) g, x ≠ token → t₁.handles[x]? = some g → g.cursor ≠ h.cursor := by
    intro x g hx hg
    rw [hhandles, StdMap.getElem?_insert, if_neg hx] at hg
    rw [hcursor]
    exact hd.fresh hg
  rw [← ht₁]
  refine ext_fields ?_ ((openCounts_erase _ _).trans hcounts) ?_
  · rw [handles_erase, hhandles]
    apply StdMap.ext
    intro x
    rw [StdMap.getElem?_erase, StdMap.getElem?_insert]
    by_cases hx : x = token
    · rw [if_pos hx, hx, StdMap.notMem_iff.mp hfresh]
    · rw [if_neg hx, if_neg hx]
  · rw [cursors_erase_of_last htoken hlast, hcursors]
    apply StdMap.ext
    intro a
    rw [StdMap.getElem?_erase, StdMap.getElem?_insert]
    by_cases ha : a = h.cursor
    · rw [if_pos ha, ha, hcursor, StdMap.notMem_iff.mp t.freshCursor_notMem]
    · rw [if_neg ha, if_neg ha]

end Counts

section Locks

/-- The locks of an open description are well formed. -/
structure WellLocked (locks : List (Span LockMode)) : Prop where
  /-- They are non-empty, sorted, disjoint, and neighbours differ in mode. -/
  canonical : Span.Canonical locks
  /-- They lie in the offset space. -/
  limit : ∀ r ∈ locks, r.stop ≤ offsetLimit
  /-- There are at most 128. -/
  length : locks.length ≤ 128

/-- No two open descriptions of a file hold conflicting locks. -/
structure LocksRight (t : HandleTable) : Prop where
  /-- Every open description is well locked. -/
  shape : ∀ (a : ℕ) c, t.cursors[a]? = some c → WellLocked c.locks
  /-- Positions locked through two open descriptions of a file are shared. -/
  exclusive : ∀ (token token' : Bytes) h h' k m m', t.handles[token]? = some h →
    t.handles[token']? = some h' → competes h h' → Span.Holds (t.cursorOf h).locks k m →
    Span.Holds (t.cursorOf h').locks k m' → m = .shared ∧ m' = .shared

theorem wellLocked_nil : WellLocked [] := ⟨⟨by simp, List.Pairwise.nil⟩, by simp, by simp⟩

theorem competes_symm (hc : competes h h') : competes h' h :=
  ⟨hc.1.symm, hc.2.1.symm, hc.2.2.1.symm, hc.2.2.2.symm⟩

theorem LocksRight.wellLocked (ht : t.LocksRight) (h : OpenHandle) :
    WellLocked (t.cursorOf h).locks := by
  unfold cursorOf
  cases hc : t.cursors[h.cursor]? with
  | none => exact wellLocked_nil
  | some c => exact ht.shape _ c hc

theorem locksRight_empty : LocksRight empty :=
  ⟨by simp [empty], by simp [empty]⟩

/-- A mode that no other description excludes agrees with what the others hold. -/
theorem shared_of_not_blocked {start stop k : ℕ} {m m' : LockMode} (hcompetes : competes h h')
    (htoken' : t.handles[token']? = some h') (hfree : ¬ t.blocked h start stop m)
    (hk : start ≤ k ∧ k < stop) (hholds : Span.Holds (t.cursorOf h').locks k m') :
    m = .shared ∧ m' = .shared := by
  obtain ⟨r, hr, hcovers, rfl⟩ := hholds
  unfold Span.Covers at hcovers
  have hno : ¬ conflicts start stop m r := fun hconflict =>
    hfree ⟨(token', h'), StdMap.mem_toList.mpr htoken', hcompetes, r, hr, hconflict⟩
  have hmodes : ¬ (m = .exclusive ∨ r.mode = .exclusive) := fun hmodes =>
    hno ⟨by omega, by omega, hmodes⟩
  cases m <;> cases hmode : r.mode <;> simp_all

theorem LocksRight.step (ht : t.LocksRight) (hd : t.Described) (hstep : t.Step t') :
    t'.LocksRight := by
  cases hstep with
  | same => exact ht
  | opened token h hfresh hcursor =>
    have hcursorOf (g : OpenHandle) : (((t.add token h).setCursor h ⟨0, []⟩).counted h).cursorOf g =
        if g.cursor = h.cursor then ⟨0, []⟩ else t.cursorOf g := by
      unfold cursorOf
      rw [cursors_counted]
      exact cursorOf_setCursor (t.add token h) h g ⟨0, []⟩
    refine ⟨fun a c hc => ?_, fun x y g g' k m m' hx hy hcompetes hk hk' => ?_⟩
    · rw [cursors_counted] at hc
      change (t.cursors.insert h.cursor ⟨0, []⟩)[a]? = some c at hc
      rw [StdMap.getElem?_insert] at hc
      split at hc
      · cases hc
        exact wellLocked_nil
      · exact ht.shape a c hc
    · -- The new description holds nothing.
      rw [hcursorOf] at hk hk'
      rw [handles_counted] at hx hy
      split at hk
      · simp [Span.Holds] at hk
      split at hk'
      · simp [Span.Holds] at hk'
      rename_i hg hg'
      have hold {z : Bytes} {f : OpenHandle} (hz : (t.add token h).handles[z]? = some f)
          (hf : f.cursor ≠ h.cursor) : t.handles[z]? = some f := by
        rcases mem_handles_add.mp hz with ⟨-, rfl⟩ | ⟨-, hz⟩
        · exact absurd rfl hf
        · exact hz
      exact ht.exclusive x y g g' k m m' (hold hx hg) (hold hy hg') hcompetes hk hk'
  | duplicated source token h hsource hfresh =>
    have hcursorOf (g : OpenHandle) : ((t.add token h).counted h).cursorOf g = t.cursorOf g := by
      unfold cursorOf
      rw [cursors_counted]
      rfl
    have hold {z : Bytes} {f : OpenHandle} (hz : ((t.add token h).counted h).handles[z]? = some f) :
        ∃ y : Bytes, t.handles[y]? = some f := by
      rw [handles_counted] at hz
      rcases mem_handles_add.mp hz with ⟨-, rfl⟩ | ⟨-, hz⟩
      · exact ⟨source, hsource⟩
      · exact ⟨z, hz⟩
    refine ⟨fun a c hc => ht.shape a c (by rwa [cursors_counted] at hc),
      fun x y g g' k m m' hx hy hcompetes hk hk' => ?_⟩
    rw [hcursorOf] at hk hk'
    obtain ⟨x', hx'⟩ := hold hx
    obtain ⟨y', hy'⟩ := hold hy
    exact ht.exclusive x' y' g g' k m m' hx' hy' hcompetes hk hk'
  | closed token h htoken =>
    have htoken' : (t.uncounted h).handles[token]? = some h := by rwa [handles_uncounted]
    have hcursorOf {z : Bytes} {f : OpenHandle}
        (hz : ((t.uncounted h).erase token).handles[z]? = some f) :
        t.handles[z]? = some f ∧ ((t.uncounted h).erase token).cursorOf f = t.cursorOf f := by
      obtain ⟨hne, hz⟩ := mem_handles_erase.mp hz
      refine ⟨by rwa [handles_uncounted] at hz, ?_⟩
      rw [cursorOf_erase htoken' hne hz]
      unfold cursorOf
      rw [cursors_uncounted]
    refine ⟨fun a c hc => ?_, fun x y g g' k m m' hx hy hcompetes hk hk' => ?_⟩
    · have hsub : t.cursors[a]? = some c := by
        unfold erase at hc
        simp only [htoken', cursors_uncounted] at hc
        split at hc
        · rw [StdMap.getElem?_erase] at hc
          split at hc
          · cases hc
          · exact hc
        · exact hc
      exact ht.shape a c hsub
    · obtain ⟨hx, hgx⟩ := hcursorOf hx
      obtain ⟨hy, hgy⟩ := hcursorOf hy
      rw [hgx] at hk
      rw [hgy] at hk'
      exact ht.exclusive x y g g' k m m' hx hy hcompetes hk hk'
  | moved token h htoken position =>
    have hlocks (g : OpenHandle) :
        ((t.moveTo h position).cursorOf g).locks = (t.cursorOf g).locks := by
      rw [moveTo, cursorOf_setCursor]
      split
      · rename_i hsame
        simp only [cursorOf, hsame]
      · rfl
    refine ⟨fun a c hc => ?_, fun x y g g' k m m' hx hy hcompetes hk hk' => ?_⟩
    · change (t.cursors.insert h.cursor _)[a]? = some c at hc
      rw [StdMap.getElem?_insert] at hc
      split at hc
      · cases hc
        exact ht.wellLocked h
      · exact ht.shape a c hc
    · rw [hlocks] at hk hk'
      exact ht.exclusive x y g g' k m m' hx hy hcompetes hk hk'
  | locked token h htoken mode start stop hlt hstop hfree hlength =>
    have hwell := ht.wellLocked h
    refine ⟨fun a c hc => ?_, fun x y g g' k m m' hx hy hcompetes hk hk' => ?_⟩
    · change (t.cursors.insert h.cursor _)[a]? = some c at hc
      rw [StdMap.getElem?_insert] at hc
      split at hc
      · cases hc
        exact ⟨hwell.canonical.assign hlt mode,
          fun r hr => Span.stop_le_of_mem_assign hwell.canonical hlt hwell.limit hstop hr, hlength⟩
      · exact ht.shape a c hc
    · -- A position of the new range was free for the mode; the others are as before.
      have hnew {z z' : Bytes} {f f' : OpenHandle} {n n' : LockMode}
          (hz : t.handles[z]? = some f) (hz' : t.handles[z']? = some f') (hff : competes f f')
          (hf : f.cursor = h.cursor)
          (hn : Span.Holds (Span.assign start stop mode (t.cursorOf h).locks) k n)
          (hn' : Span.Holds (t.cursorOf f').locks k n') : n = .shared ∧ n' = .shared := by
        obtain rfl : f = h := hd.alike z token f h hz htoken hf
        rw [Span.holds_assign hwell.canonical hlt] at hn
        split at hn
        · exact shared_of_not_blocked hff hz' (hfree n hn) ‹_› hn'
        · exact ht.exclusive z z' f f' k n n' hz hz' hff hn hn'
      rw [relock, cursorOf_setCursor] at hk hk'
      split at hk
      · rename_i hg
        rw [if_neg (fun hg' => hcompetes.1 (hg'.trans hg.symm))] at hk'
        exact hnew hx hy hcompetes hg hk hk'
      · split at hk'
        · rename_i hg'
          exact (hnew hy hx (competes_symm hcompetes) hg' hk' hk).symm
        · exact ht.exclusive x y g g' k m m' hx hy hcompetes hk hk'
  | reset => exact locksRight_empty

end Locks

end HandleTable

end ForkFs
