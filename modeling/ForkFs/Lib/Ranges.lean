import Mathlib.Data.List.Sort

/-!
# Lists of ranges with modes

A list of half-open ranges gives a mode to some positions. It is canonical if its ranges are
non-empty, sorted, disjoint, and if ranges that touch have different modes. `assign` gives a
mode to one range, or clears it, and keeps lists canonical: it carves the range out of the
others, adds it, sorts, and joins neighbours of one mode. A canonical list is determined by the
modes it gives.
-/

/-- A half-open range with a mode. -/
structure Span (M : Type*) where
  /-- The first position. -/
  start : ℕ
  /-- The first position behind the range. -/
  stop : ℕ
  /-- The mode of all positions in between. -/
  mode : M
deriving DecidableEq

namespace Span

variable {M : Type*}

/-- Whether a position is in a range. -/
def Covers (r : Span M) (k : ℕ) : Prop := r.start ≤ k ∧ k < r.stop

/-- Whether a list gives a mode to a position. -/
def Holds (l : List (Span M)) (k : ℕ) (m : M) : Prop := ∃ r ∈ l, r.Covers k ∧ r.mode = m

/-- One range in front of another, with a gap or a change of mode in between. -/
def Before (a b : Span M) : Prop := a.stop ≤ b.start ∧ (a.stop = b.start → a.mode ≠ b.mode)

/-- The lists that `assign` keeps. -/
structure Canonical (l : List (Span M)) : Prop where
  /-- No range is empty. -/
  nonempty : ∀ r ∈ l, r.start < r.stop
  /-- Ranges are sorted, disjoint and as long as possible. -/
  before : l.Pairwise Before

/-- Remove the positions from `start` to `stop`. -/
def carve (start stop : ℕ) (l : List (Span M)) : List (Span M) :=
  l.flatMap fun r =>
    if r.stop ≤ start ∨ stop ≤ r.start then [r]
    else
      (if r.start < start then [⟨r.start, start, r.mode⟩] else []) ++
        (if stop < r.stop then [⟨stop, r.stop, r.mode⟩] else [])

/-- Sort by the first position. -/
def sort (l : List (Span M)) : List (Span M) := l.insertionSort fun a b => a.start ≤ b.start

section Join

variable [DecidableEq M]

/-- Join a range with those that follow it. -/
def joinFrom (r : Span M) : List (Span M) → List (Span M)
  | [] => [r]
  | next :: l =>
    if r.stop = next.start ∧ r.mode = next.mode then joinFrom ⟨r.start, next.stop, r.mode⟩ l
    else r :: joinFrom next l

/-- Join neighbours of one mode. -/
def join : List (Span M) → List (Span M)
  | [] => []
  | r :: l => joinFrom r l

/-- Give a mode to a range, or clear it. -/
def assign (start stop : ℕ) (mode : Option M) (l : List (Span M)) : List (Span M) :=
  join (sort (carve start stop l ++ mode.toList.map fun m => ⟨start, stop, m⟩))

end Join

variable {start stop k : ℕ} {l l' : List (Span M)} {r : Span M} {m : M}

section Carve

/-- Carving keeps exactly the positions outside. -/
theorem holds_carve : Holds (carve start stop l) k m ↔ Holds l k m ∧ ¬ (start ≤ k ∧ k < stop) := by
  have hone : ∀ r : Span M, (∃ x ∈ (if r.stop ≤ start ∨ stop ≤ r.start then [r]
      else (if r.start < start then [(⟨r.start, start, r.mode⟩ : Span M)] else []) ++
        (if stop < r.stop then [⟨stop, r.stop, r.mode⟩] else [])), x.Covers k ∧ x.mode = m) ↔
      (r.Covers k ∧ r.mode = m) ∧ ¬ (start ≤ k ∧ k < stop) := by
    intro r
    unfold Covers
    split
    · simp only [List.mem_singleton, exists_eq_left]
      constructor
      · exact fun h => ⟨h, by omega⟩
      · exact fun h => h.1
    · simp only [List.mem_append, List.mem_ite_nil_right, List.mem_singleton, or_and_right,
        exists_or, and_assoc]
      constructor
      · rintro (⟨x, hlt, rfl, hstart, hstop, hmode⟩ | ⟨x, hlt, rfl, hstart, hstop, hmode⟩)
        · simp only at hstart hstop
          exact ⟨hstart, by omega, hmode, by omega⟩
        · simp only at hstart hstop
          exact ⟨by omega, hstop, hmode, by omega⟩
      · rintro ⟨hstart, hstop, hmode, hout⟩
        by_cases hk : k < start
        · exact Or.inl ⟨_, by omega, rfl, hstart, hk, hmode⟩
        · exact Or.inr ⟨⟨stop, r.stop, r.mode⟩, by omega, rfl, by simp only; omega, hstop, hmode⟩
  unfold Holds carve
  simp only [List.mem_flatMap]
  constructor
  · rintro ⟨x, ⟨r, hr, hx⟩, h⟩
    obtain ⟨hcovers, hout⟩ := (hone r).mp ⟨x, hx, h⟩
    exact ⟨⟨r, hr, hcovers⟩, hout⟩
  · rintro ⟨⟨r, hr, hcovers⟩, hout⟩
    obtain ⟨x, hx, h⟩ := (hone r).mpr ⟨hcovers, hout⟩
    exact ⟨x, ⟨r, hr, hx⟩, h⟩

/-- The pieces lie in their range and outside of the carved one. -/
theorem mem_carve (hnonempty : ∀ r ∈ l, r.start < r.stop) (h : r ∈ carve start stop l) :
    r.start < r.stop ∧ (r.stop ≤ start ∨ stop ≤ r.start) ∧
      ∃ old ∈ l, old.start ≤ r.start ∧ r.stop ≤ old.stop := by
  obtain ⟨old, hold, hr⟩ := List.mem_flatMap.mp h
  have hold' := hnonempty old hold
  split at hr
  · rename_i hout
    rw [List.mem_singleton] at hr
    subst hr
    exact ⟨hold', hout, r, hold, le_rfl, le_rfl⟩
  · simp only [List.mem_append, List.mem_ite_nil_right, List.mem_singleton] at hr
    rcases hr with ⟨hlt, rfl⟩ | ⟨hlt, rfl⟩
    · exact ⟨hlt, Or.inl le_rfl, old, hold, le_rfl, by simp only; omega⟩
    · exact ⟨hlt, Or.inr le_rfl, old, hold, by simp only; omega, le_rfl⟩

/-- Two ranges have no common position. -/
def Apart (a b : Span M) : Prop := a.stop ≤ b.start ∨ b.stop ≤ a.start

theorem pairwise_carve (hnonempty : ∀ r ∈ l, r.start < r.stop) (h : l.Pairwise Apart)
    (hle : start ≤ stop) : (carve start stop l).Pairwise Apart := by
  unfold carve
  rw [List.pairwise_flatMap]
  refine ⟨?_, ?_⟩
  · intro r hr
    split
    · exact List.pairwise_singleton _ _
    · split <;> split <;> simp [Apart]
      omega
  · refine List.Pairwise.imp_of_mem ?_ h
    intro a b ha hb hab x hx y hy
    have hxa : x ∈ carve start stop [a] := by
      simpa only [carve, List.flatMap_cons, List.flatMap_nil, List.append_nil] using hx
    have hyb : y ∈ carve start stop [b] := by
      simpa only [carve, List.flatMap_cons, List.flatMap_nil, List.append_nil] using hy
    obtain ⟨-, -, a', ha', hax⟩ := mem_carve (by simpa using hnonempty a ha) hxa
    obtain ⟨-, -, b', hb', hby⟩ := mem_carve (by simpa using hnonempty b hb) hyb
    rw [List.mem_singleton] at ha' hb'
    subst ha' hb'
    unfold Apart at hab ⊢
    omega

end Carve

section Sorting

theorem sort_perm (l : List (Span M)) : (sort l).Perm l := List.perm_insertionSort _ l

theorem holds_perm (h : l.Perm l') : Holds l k m ↔ Holds l' k m := by
  unfold Holds
  simp only [h.mem_iff]

/-- Sorted ranges without common positions follow each other. -/
theorem pairwise_sort (hnonempty : ∀ r ∈ l, r.start < r.stop) (h : l.Pairwise Apart) :
    (sort l).Pairwise fun a b => a.stop ≤ b.start := by
  have hsorted : (sort l).Pairwise fun a b => a.start ≤ b.start := by
    have htotal : Std.Total fun a b : Span M => a.start ≤ b.start := ⟨fun a b => le_total _ _⟩
    have htrans : IsTrans (Span M) fun a b => a.start ≤ b.start := ⟨fun _ _ _ => le_trans⟩
    exact List.pairwise_insertionSort _ l
  have hapart : (sort l).Pairwise Apart :=
    (sort_perm l).symm.pairwise h fun {a b} hab => hab.symm
  refine List.Pairwise.imp_of_mem ?_ (hsorted.and hapart)
  rintro a b ha hb ⟨hle, hab⟩
  have hb' := hnonempty b ((sort_perm l).mem_iff.mp hb)
  have ha' := hnonempty a ((sort_perm l).mem_iff.mp ha)
  unfold Apart at hab
  omega

end Sorting

section Join

variable [DecidableEq M]

theorem holds_joinFrom (hr : r.start < r.stop) (hnonempty : ∀ x ∈ l, x.start < x.stop) :
    Holds (joinFrom r l) k m ↔ Holds (r :: l) k m := by
  induction l generalizing r with
  | nil => rfl
  | cons next l ih =>
    have hnext := hnonempty next (by simp)
    have hl : ∀ x ∈ l, x.start < x.stop := fun x hx => hnonempty x (by simp [hx])
    rw [joinFrom]
    split
    · rename_i hjoin
      rw [ih (by simp only; omega) hl]
      simp only [Holds, List.mem_cons, exists_eq_or_imp, Covers, hjoin.2]
      constructor
      · rintro (⟨hk, hmode⟩ | hrest)
        · by_cases hlt : k < r.stop
          · exact Or.inl ⟨⟨hk.1, hlt⟩, hmode⟩
          · exact Or.inr (Or.inl ⟨⟨by omega, hk.2⟩, hmode⟩)
        · exact Or.inr (Or.inr hrest)
      · rintro (⟨hk, hmode⟩ | ⟨hk, hmode⟩ | hrest)
        · exact Or.inl ⟨⟨hk.1, by omega⟩, hmode⟩
        · exact Or.inl ⟨⟨by omega, hk.2⟩, hmode⟩
        · exact Or.inr hrest
    · have hrest := ih hnext hl
      simp only [Holds, List.mem_cons, exists_eq_or_imp] at hrest ⊢
      rw [hrest]

theorem mem_joinFrom {x : Span M} (hr : r.start < r.stop) (hnonempty : ∀ x ∈ l, x.start < x.stop)
    (hsorted : (r :: l).Pairwise fun a b => a.stop ≤ b.start) (h : x ∈ joinFrom r l) :
    r.start ≤ x.start ∧ x.start < x.stop ∧ ∃ y ∈ r :: l, x.stop = y.stop := by
  induction l generalizing r with
  | nil =>
    rw [joinFrom, List.mem_singleton] at h
    subst h
    exact ⟨le_rfl, hr, x, by simp, rfl⟩
  | cons next l ih =>
    have hnext := hnonempty next (by simp)
    have hl : ∀ x ∈ l, x.start < x.stop := fun x hx => hnonempty x (by simp [hx])
    obtain ⟨hfirst, hrest⟩ := List.pairwise_cons.mp hsorted
    obtain ⟨hsecond, htail⟩ := List.pairwise_cons.mp hrest
    have hle := hfirst next (by simp)
    rw [joinFrom] at h
    split at h
    · obtain ⟨hstart, hlt, y, hy, hstop⟩ :=
        ih (r := ⟨r.start, next.stop, r.mode⟩) (by simp only; omega) hl
          (List.pairwise_cons.mpr ⟨hsecond, htail⟩) h
      refine ⟨hstart, hlt, ?_⟩
      rcases List.mem_cons.mp hy with rfl | hy
      · exact ⟨next, by simp, hstop⟩
      · exact ⟨y, by simp [hy], hstop⟩
    · rcases List.mem_cons.mp h with rfl | h
      · exact ⟨le_rfl, hr, x, by simp, rfl⟩
      · obtain ⟨hstart, hlt, y, hy, hstop⟩ := ih hnext hl hrest h
        exact ⟨by omega, hlt, y, List.mem_cons_of_mem r hy, hstop⟩

theorem pairwise_joinFrom (hr : r.start < r.stop) (hnonempty : ∀ x ∈ l, x.start < x.stop)
    (hsorted : (r :: l).Pairwise fun a b => a.stop ≤ b.start) :
    (joinFrom r l).Pairwise Before ∧ ∃ tail stop', joinFrom r l = ⟨r.start, stop', r.mode⟩ :: tail := by
  induction l generalizing r with
  | nil => exact ⟨List.pairwise_singleton _ _, [], r.stop, rfl⟩
  | cons next l ih =>
    have hnext := hnonempty next (by simp)
    have hl : ∀ x ∈ l, x.start < x.stop := fun x hx => hnonempty x (by simp [hx])
    obtain ⟨hfirst, hrest⟩ := List.pairwise_cons.mp hsorted
    obtain ⟨hsecond, htail⟩ := List.pairwise_cons.mp hrest
    have hle := hfirst next (by simp)
    rw [joinFrom]
    split
    · exact ih (by simp only; omega) hl (List.pairwise_cons.mpr ⟨hsecond, htail⟩)
    · rename_i hjoin
      obtain ⟨hpairwise, tail, stop', hhead⟩ := ih hnext hl hrest
      refine ⟨List.pairwise_cons.mpr ⟨?_, hpairwise⟩, _, _, rfl⟩
      intro x hx
      obtain ⟨hstart, -, -⟩ := mem_joinFrom hnext hl hrest hx
      refine ⟨hle.trans hstart, fun htouch hmode => ?_⟩
      -- A range that touches the first one is the head of the rest, which has the next mode.
      rw [hhead, List.mem_cons] at hx
      rcases hx with rfl | hx
      · exact hjoin ⟨htouch, hmode⟩
      · rw [hhead, List.pairwise_cons] at hpairwise
        have hafter := (hpairwise.1 x hx).1
        have hstop : (⟨next.start, stop', next.mode⟩ : Span M).start < stop' := by
          have hmem : (⟨next.start, stop', next.mode⟩ : Span M) ∈ joinFrom next l := by
            rw [hhead]
            simp
          exact (mem_joinFrom hnext hl hrest hmem).2.1
        simp only at hafter hstop
        omega

end Join

section Assign

variable {mode : Option M}

theorem Canonical.apart (h : Canonical l) : l.Pairwise Apart := h.before.imp fun hab => Or.inl hab.1

/-- The list before neighbours are joined. -/
theorem pairwise_added (h : Canonical l) (hlt : start < stop) (mode : Option M) :
    (∀ r ∈ carve start stop l ++ mode.toList.map fun m => (⟨start, stop, m⟩ : Span M),
        r.start < r.stop) ∧
      (carve start stop l ++ mode.toList.map fun m => (⟨start, stop, m⟩ : Span M)).Pairwise
        Apart := by
  refine ⟨?_, ?_⟩
  · intro r hr
    rcases List.mem_append.mp hr with hr | hr
    · exact (mem_carve h.nonempty hr).1
    · obtain ⟨m, -, rfl⟩ := List.mem_map.mp hr
      exact hlt
  · rw [List.pairwise_append]
    refine ⟨pairwise_carve h.nonempty h.apart hlt.le, ?_, ?_⟩
    · cases mode <;> simp
    · intro a ha b hb
      obtain ⟨m, -, rfl⟩ := List.mem_map.mp hb
      exact (mem_carve h.nonempty ha).2.1

variable [DecidableEq M]

/-- Assigning a mode keeps lists canonical. -/
theorem Canonical.assign (h : Canonical l) (hlt : start < stop) (mode : Option M) :
    Canonical (assign start stop mode l) := by
  obtain ⟨hnonempty, hapart⟩ := pairwise_added h hlt mode
  have hsorted := pairwise_sort hnonempty hapart
  have hsort : ∀ r ∈ sort (carve start stop l ++ mode.toList.map fun m => ⟨start, stop, m⟩),
      r.start < r.stop := fun r hr => hnonempty r ((sort_perm _).mem_iff.mp hr)
  unfold Span.assign
  generalize sort (carve start stop l ++ mode.toList.map fun m => ⟨start, stop, m⟩) = s at *
  cases s with
  | nil => exact ⟨by simp [join], List.Pairwise.nil⟩
  | cons r s =>
    have hr := hsort r (by simp)
    have hs : ∀ x ∈ s, x.start < x.stop := fun x hx => hsort x (by simp [hx])
    exact ⟨fun x hx => (mem_joinFrom hr hs hsorted hx).2.1, (pairwise_joinFrom hr hs hsorted).1⟩

/-- The positions of the range get the mode, and the others keep theirs. -/
theorem holds_assign (h : Canonical l) (hlt : start < stop) :
    Holds (assign start stop mode l) k m ↔
      if start ≤ k ∧ k < stop then mode = some m else Holds l k m := by
  obtain ⟨hnonempty, hapart⟩ := pairwise_added h hlt mode
  have hjoin : Holds (assign start stop mode l) k m ↔
      Holds (carve start stop l ++ mode.toList.map fun m => ⟨start, stop, m⟩) k m := by
    rw [← holds_perm (sort_perm (carve start stop l ++ _))]
    have hsort : ∀ r ∈ sort (carve start stop l ++ mode.toList.map fun m => ⟨start, stop, m⟩),
        r.start < r.stop := fun r hr => hnonempty r ((sort_perm _).mem_iff.mp hr)
    unfold Span.assign
    generalize sort (carve start stop l ++ mode.toList.map fun m => ⟨start, stop, m⟩) = s at *
    cases s with
    | nil => rfl
    | cons r s => exact holds_joinFrom (hsort r (by simp)) fun x hx => hsort x (by simp [hx])
  have happend : Holds (carve start stop l ++ mode.toList.map fun m => ⟨start, stop, m⟩) k m ↔
      Holds (carve start stop l) k m ∨ (start ≤ k ∧ k < stop) ∧ mode = some m := by
    simp only [Holds, List.mem_append, or_and_right, exists_or]
    refine or_congr Iff.rfl ?_
    cases mode with
    | none => simp
    | some m' => simp [Covers]
  rw [hjoin, happend, holds_carve]
  split
  · rename_i hin
    simp [hin]
  · rename_i hout
    simp [hout]

omit [DecidableEq M] in
/-- Ranges that overlap have a common position. -/
theorem Canonical.overlap {r' : Span M} (hl : Canonical l) (hl' : Canonical l') (hr : r ∈ l)
    (hr' : r' ∈ l') (hleft : r.start < r'.stop) (hright : r'.start < r.stop) :
    ∃ k, Holds l k r.mode ∧ Holds l' k r'.mode := by
  have hne := hl.nonempty r hr
  have hne' := hl'.nonempty r' hr'
  refine ⟨max r.start r'.start, ⟨r, hr, ?_, rfl⟩, ⟨r', hr', ?_, rfl⟩⟩ <;>
  · unfold Covers
    omega

/-- Assigned ranges end where a range ended before, or at the ends of the new one. -/
theorem stop_le_of_mem_assign {limit : ℕ} (h : Canonical l) (hlt : start < stop)
    (hlimit : ∀ r ∈ l, r.stop ≤ limit) (hstop : stop ≤ limit) (hr : r ∈ assign start stop mode l) :
    r.stop ≤ limit := by
  have hcanonical := h.assign hlt mode
  have hnonempty := hcanonical.nonempty r hr
  -- The last position of the range already had a mode, or lies in the new range.
  have hholds : Holds (Span.assign start stop mode l) (r.stop - 1) r.mode :=
    ⟨r, hr, ⟨by omega, by omega⟩, rfl⟩
  rw [holds_assign h hlt] at hholds
  split at hholds
  · omega
  · obtain ⟨old, hold, hcovers, -⟩ := hholds
    have := hlimit old hold
    unfold Covers at hcovers
    omega

end Assign

section Uniqueness

/-- The positions of the first range are exactly those that the rest leaves out. -/
theorem holds_tail (h : Canonical (r :: l)) :
    Holds l k m ↔ Holds (r :: l) k m ∧ ¬ r.Covers k := by
  have hafter := (List.pairwise_cons.mp h.before).1
  constructor
  · rintro ⟨x, hx, hcovers, hmode⟩
    have hle := (hafter x hx).1
    unfold Covers at hcovers
    refine ⟨⟨x, List.mem_cons_of_mem r hx, hcovers, hmode⟩, fun hr => ?_⟩
    unfold Covers at hr
    omega
  · rintro ⟨⟨x, hx, hcovers, hmode⟩, hr⟩
    rcases List.mem_cons.mp hx with rfl | hx
    · exact absurd hcovers hr
    · exact ⟨x, hx, hcovers, hmode⟩

/-- A list that holds every position of another one does not start after it. -/
theorem start_le_of_holds {r' : Span M} (h : Canonical (r :: l)) (h' : Canonical (r' :: l'))
    (hholds : ∀ k m, Holds (r :: l) k m → Holds (r' :: l') k m) : r'.start ≤ r.start := by
  have hne := h.nonempty r (by simp)
  obtain ⟨x, hx, hcovers, -⟩ := hholds r.start r.mode ⟨r, by simp, ⟨le_rfl, hne⟩, rfl⟩
  unfold Covers at hcovers
  rcases List.mem_cons.mp hx with rfl | hx
  · exact hcovers.1
  · have hle := ((List.pairwise_cons.mp h'.before).1 x hx).1
    have hne' := h'.nonempty r' (by simp)
    omega

/-- First ranges that start together have one mode, and the first does not stop later. -/
theorem head_of_holds {r' : Span M} (h : Canonical (r :: l)) (h' : Canonical (r' :: l'))
    (hstart : r.start = r'.start) (hholds : ∀ k m, Holds (r :: l) k m ↔ Holds (r' :: l') k m) :
    r.mode = r'.mode ∧ r.stop ≤ r'.stop := by
  have hne := h.nonempty r (by simp)
  have hne' := h'.nonempty r' (by simp)
  have hafter' := (List.pairwise_cons.mp h'.before).1
  have hmode : r.mode = r'.mode := by
    obtain ⟨x, hx, hcovers, hmode⟩ := (hholds r.start r.mode).mp ⟨r, by simp, ⟨le_rfl, hne⟩, rfl⟩
    unfold Covers at hcovers
    rcases List.mem_cons.mp hx with rfl | hx
    · exact hmode.symm
    · have hle := (hafter' x hx).1
      omega
  refine ⟨hmode, not_lt.mp fun hlt => ?_⟩
  -- The position behind the shorter range has its mode, so a range of that mode touches it.
  obtain ⟨x, hx, hcovers, hxmode⟩ :=
    (hholds r'.stop r.mode).mp ⟨r, by simp, ⟨by omega, hlt⟩, rfl⟩
  unfold Covers at hcovers
  rcases List.mem_cons.mp hx with rfl | hx
  · omega
  · obtain ⟨hle, htouch⟩ := hafter' x hx
    exact htouch (by omega) (hmode.symm.trans hxmode.symm)

/-- A canonical list is determined by the modes it gives. -/
theorem Canonical.ext (h : Canonical l) (h' : Canonical l')
    (hholds : ∀ k m, Holds l k m ↔ Holds l' k m) : l = l' := by
  induction l generalizing l' with
  | nil =>
    cases l' with
    | nil => rfl
    | cons r' l' =>
      have hne := h'.nonempty r' (by simp)
      obtain ⟨x, hx, -⟩ := (hholds r'.start r'.mode).mpr ⟨r', by simp, ⟨le_rfl, hne⟩, rfl⟩
      cases hx
  | cons r l ih =>
    cases l' with
    | nil =>
      have hne := h.nonempty r (by simp)
      obtain ⟨x, hx, -⟩ := (hholds r.start r.mode).mp ⟨r, by simp, ⟨le_rfl, hne⟩, rfl⟩
      cases hx
    | cons r' l' =>
      have hstart : r.start = r'.start :=
        le_antisymm (start_le_of_holds h' h fun k m => (hholds k m).mpr)
          (start_le_of_holds h h' fun k m => (hholds k m).mp)
      obtain ⟨hmode, hstop⟩ := head_of_holds h h' hstart hholds
      obtain ⟨-, hstop'⟩ := head_of_holds h' h hstart.symm fun k m => (hholds k m).symm
      obtain rfl : r = r' := by
        obtain ⟨start, stop, mode⟩ := r
        obtain ⟨start', stop', mode'⟩ := r'
        simp only at hstart hmode hstop hstop'
        rw [hstart, hmode, le_antisymm hstop hstop']
      have htail : Canonical l :=
        ⟨fun x hx => h.nonempty x (List.mem_cons_of_mem _ hx), (List.pairwise_cons.mp h.before).2⟩
      have htail' : Canonical l' :=
        ⟨fun x hx => h'.nonempty x (List.mem_cons_of_mem _ hx), (List.pairwise_cons.mp h'.before).2⟩
      rw [ih htail htail' fun k m => by rw [holds_tail h, holds_tail h', hholds k m]]

end Uniqueness

end Span
