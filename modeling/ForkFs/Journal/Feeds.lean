import ForkFs.Journal.Replay

/-!
# Pieces of the log

What the replay loop does with a segment header, with padding and with one record, and what it
does when the log ends inside them. A write starts with the padding and header that `place` puts
in front of it.
-/

namespace ForkFs.Journal

open Bytes Replay

variable [Digest]

section Reader

variable {r r' : Replay} {c : Rec}

omit [Digest] in
/-- A complete record is at least 80 bytes long. -/
theorem length_encoded {log : Bytes} {at_ size : ℕ} (h : readRecord log at_ size = .ok (some c)) :
    80 ≤ c.encoded.length := by
  obtain ⟨-, h⟩ := need_bind_eq_ok.mp h
  split at h
  · cases h
  · obtain ⟨_, -, h⟩ := Outcome.bind_eq_ok.mp h
    obtain ⟨-, h⟩ := need_bind_eq_ok.mp h
    obtain ⟨-, h⟩ := need_bind_eq_ok.mp h
    obtain ⟨hlen, h⟩ := need_bind_eq_ok.mp h
    obtain ⟨-, h⟩ := need_bind_eq_ok.mp h
    split at h
    · cases h
    · obtain ⟨c', h, hc⟩ := Outcome.map_eq_ok.mp h
      cases hc
      obtain ⟨b, hread, h⟩ := Outcome.bind_eq_ok.mp h
      simp only [need_bind_eq_ok, Outcome.pure_eq_ok] at h
      obtain ⟨-, -, -, -, rfl⟩ := h
      obtain ⟨hb, hslice⟩ := need_bind_eq_ok.mp hread
      cases hslice
      change 80 ≤ (slice log (at_ - base) _).length
      rw [length_slice_of_le hb]
      exact hlen.1

/-- The records of a transaction do not move the position themselves. -/
theorem pos_replayTransaction (h : replayTransaction r c = .ok r') : r'.pos = r.pos := by
  unfold replayTransaction at h
  split at h
  · simp only [replayData, need_bind_eq_ok, Outcome.pure_eq_ok] at h
    obtain ⟨-, -, -, -, rfl⟩ := h
    rfl
  · split at h
    · simp only [replayPrepare, need_bind_eq_ok] at h
      obtain ⟨-, -, h⟩ := h
      obtain ⟨_, -, h⟩ := Outcome.bind_eq_ok.mp h
      cases h
      rfl
    · simp only [replayCommit, need_bind_eq_ok, Outcome.pure_eq_ok] at h
      obtain ⟨-, -, -, -, rfl⟩ := h
      rfl

/-- A record is consumed as a whole. -/
theorem pos_replayRecord (h : replayRecord r c = .ok r') :
    r'.pos = r.pos + c.encoded.length := by
  unfold replayRecord at h
  split at h
  · obtain ⟨-, h⟩ := need_bind_eq_ok.mp h
    cases h
    rfl
  · obtain ⟨-, h⟩ := need_bind_eq_ok.mp h
    obtain ⟨r₁, htransaction, h⟩ := Outcome.bind_eq_ok.mp h
    obtain ⟨-, h⟩ := need_bind_eq_ok.mp h
    cases h
    have hpos := pos_replayTransaction htransaction
    have hbegin : (if r.phase = .idle then r.begin_ else r).pos = r.pos := by
      split <;> rfl
    change r₁.pos + _ = _
    rw [hpos, hbegin]

theorem pos_replayStep {repository : Repository} {log : Bytes} (hpos : r.pos < log.length)
    (h : replayStep repository log r = .ok (some r')) : r.pos < r'.pos := by
  unfold replayStep at h
  split at h
  · obtain ⟨-, h⟩ := need_bind_eq_ok.mp h
    split at h
    · cases h
    · obtain ⟨_, -, h⟩ := Outcome.bind_eq_ok.mp h
      obtain ⟨-, h⟩ := need_bind_eq_ok.mp h
      cases h
      exact Nat.lt_add_of_pos_right (by decide)
  · obtain ⟨_, -, h⟩ := Outcome.bind_eq_ok.mp h
    split at h
    · obtain ⟨-, h⟩ := need_bind_eq_ok.mp h
      obtain ⟨pad, hread, h⟩ := Outcome.bind_eq_ok.mp h
      obtain ⟨-, h⟩ := need_bind_eq_ok.mp h
      cases h
      obtain ⟨hle, hpad⟩ := need_bind_eq_ok.mp hread
      cases hpad
      apply Nat.lt_add_of_pos_right
      rw [length_slice_of_le hle]
      have : r.pos % span < span := Nat.mod_lt _ (by decide)
      omega
    · obtain ⟨found, hread, h⟩ := Outcome.bind_eq_ok.mp h
      cases found with
      | none => cases h
      | some c =>
        obtain ⟨r₁, hrecord, h⟩ := Outcome.map_eq_ok.mp h
        cases h
        rw [pos_replayRecord hrecord]
        have := length_encoded hread
        omega

/-- The replay loop as a reader of the log. -/
def reader (repository : Repository) : LogReader Replay String where
  step := replayStep repository
  pos := Replay.pos
  advances _ _ _ := pos_replayStep

end Reader

section Pieces

variable {repository : Repository} {r r' : Replay} {p : Replay → Prop}

omit [Digest] in
theorem length_segmentHeader (repository : Repository) (id : ℕ) :
    (segmentHeader repository.val id).length = header := by
  have hmagic : (ascii "FFSEG000").length = 8 := rfl
  simp only [segmentHeader, List.flatten_cons, List.flatten_nil, List.length_append,
    List.length_nil, List.length_replicate, length_store, repository.property, hmagic]
  unfold header
  omega

omit [Digest] in
private theorem readBytes_at {pre b rest : Bytes} {n : ℕ} (hpre : pre.length = r.pos)
    (hn : b.length = n) : readBytes (pre ++ b ++ rest) r.at_ n = .ok b :=
  readBytes_append (by rw [Replay.at_, hpre]) hn

omit [Digest] in
private theorem readBytes_take {pre b rest : Bytes} {k : ℕ} (hpre : pre.length = r.pos)
    (hk : k ≤ b.length) : readBytes (pre ++ b ++ rest) r.at_ k = .ok (b.take k) := by
  have hsplit : pre ++ b ++ rest = pre ++ b.take k ++ (b.drop k ++ rest) := by
    rw [List.append_assoc, List.append_assoc, ← List.append_assoc (b.take k), List.take_append_drop]
  rw [hsplit]
  exact readBytes_at hpre (by rw [List.length_take]; omega)

/-- A segment header is skipped. -/
theorem feeds_segmentHeader (hphase : r.phase = .idle) (hpos : r.pos % span = 0) :
    (reader repository).Feeds r (segmentHeader repository.val (r.pos / span))
      { r with pos := r.pos + header } := by
  have hlength := length_segmentHeader repository (r.pos / span)
  apply LogReader.feeds_of_step
  · intro hnil
    simp [hnil, header] at hlength
  · rw [hlength]
    rfl
  · intro pre rest hpre
    change replayStep _ _ _ = _
    rw [replayStep, if_pos hpos, need_of hphase, Outcome.ok_bind, if_neg, readBytes_at hpre hlength,
      Outcome.ok_bind, need_of rfl, Outcome.ok_bind]
    · rfl
    · change pre.length = r.pos at hpre
      simp only [List.length_append, hlength]
      omega

theorem cuts_segmentHeader (hphase : r.phase = .idle) (hpos : r.pos % span = 0) (hp : p r) :
    (reader repository).Cuts r (segmentHeader repository.val (r.pos / span)) p := by
  have hlength := length_segmentHeader repository (r.pos / span)
  apply LogReader.cuts_of_stop hp
  intro pre n hpre _ hn
  change pre.length = r.pos at hpre
  change replayStep _ _ _ = _
  rw [replayStep, if_pos hpos, need_of hphase, Outcome.ok_bind, if_pos]
  simp only [List.length_append, List.length_take]
  omega

/-- Zeros up to the end of the log or of the segment are skipped. -/
theorem replayStep_padding {pre rest : Bytes} {n : ℕ} (hphase : r.phase = .idle)
    (hpos : r.pos % span ≠ 0) (hpre : pre.length = r.pos) (hn : 0 < n)
    (hend : n = span - r.pos % span ∨ n < span - r.pos % span ∧ rest = [])
    (halign : 4 ≤ n ∨ rest = []) :
    replayStep repository (pre ++ List.replicate n 0 ++ rest) r =
      .ok (some { r with pos := r.pos + n }) := by
  have hlog : (pre ++ List.replicate n 0 ++ rest).length - r.pos = n + rest.length := by
    simp only [List.length_append, List.length_replicate]
    omega
  have hzeros : ∀ m ≤ n, readBytes (pre ++ List.replicate n 0 ++ rest) r.at_ m =
      .ok (List.replicate m 0) := by
    intro m hm
    rw [readBytes_take hpre (by simpa using hm), List.take_replicate, min_eq_left hm]
  have hfirst : min 4 (n + rest.length) ≤ n := by
    rcases halign with h | rfl
    · omega
    · simp
  have hpad : min (span - r.pos % span) (n + rest.length) = n := by
    rcases hend with h | ⟨h, rfl⟩
    · omega
    · simp only [List.length_nil]
      omega
  rw [replayStep, if_neg hpos, hlog, hzeros _ hfirst, Outcome.ok_bind, if_pos (by simp),
    need_of hphase, Outcome.ok_bind, hpad, hzeros n le_rfl, Outcome.ok_bind, need_of (by simp),
    Outcome.ok_bind, List.length_replicate]
  rfl

/-- The rest of a segment is skipped. -/
theorem feeds_padding (hphase : r.phase = .idle) (hpos : r.pos % span ≠ 0) (halign : 8 ∣ r.pos) :
    (reader repository).Feeds r (List.replicate (span - r.pos % span) 0)
      { r with pos := r.pos + (span - r.pos % span) } := by
  have hlt : r.pos % span < span := Nat.mod_lt _ (by decide)
  have height : 4 ≤ span - r.pos % span := by
    unfold span at hlt ⊢
    omega
  apply LogReader.feeds_of_step
  · intro hnil
    have := congrArg List.length hnil
    simp only [List.length_replicate, List.length_nil] at this
    omega
  · rw [List.length_replicate]
    rfl
  · intro pre rest hpre
    exact replayStep_padding hphase hpos hpre (by omega) (Or.inl rfl) (Or.inl height)

theorem cuts_padding (hphase : r.phase = .idle) (hpos : r.pos % span ≠ 0)
    (hp : ∀ n, p { r with pos := r.pos + n }) :
    (reader repository).Cuts r (List.replicate (span - r.pos % span) 0) p := by
  intro pre n hpre hn
  change pre.length = r.pos at hpre
  rw [List.length_replicate] at hn
  rw [List.take_replicate, min_eq_left hn.le]
  by_cases hzero : n = 0
  · subst hzero
    exact ⟨r, .refl r, LogReader.halts_of_pos (by simpa [reader] using hpre.symm), hp 0⟩
  · have hstep : replayStep repository (pre ++ List.replicate n 0 ++ []) r = _ :=
      replayStep_padding hphase hpos hpre (Nat.pos_of_ne_zero hzero) (Or.inr ⟨hn, rfl⟩) (Or.inr rfl)
    rw [List.append_nil] at hstep
    refine ⟨{ r with pos := r.pos + n }, .head ?_ hstep (.refl _), LogReader.halts_of_pos ?_, hp n⟩
    · change r.pos < _
      simp only [List.length_append, List.length_replicate]
      omega
    · change r.pos + n = _
      simp only [List.length_append, List.length_replicate]
      omega

omit [Digest] in
private theorem first_record {type seq : ℕ} {payload : Bytes} {oid : Hash} {n : ℕ} (hn : 0 < n) :
    ((record type seq payload oid).take n).all (· = 0) = false := by
  obtain ⟨m, rfl⟩ : ∃ m, n = m + 1 := ⟨n - 1, by omega⟩
  rfl

/-- A complete record within a segment is processed. -/
theorem feeds_record {type seq : ℕ} {payload : Bytes} {oid : Hash}
    (h : Encodable type seq payload) (hpos : r.pos % span ≠ 0)
    (hspan : recordLength payload.length ≤ span - r.pos % span)
    (hrecord : replayRecord r (Rec.of type seq payload oid r.at_) = .ok r') :
    (reader repository).Feeds r (record type seq payload oid) r' := by
  have hlength := recordLength_eq payload.length
  apply LogReader.feeds_of_step
  · intro hnil
    have := congrArg List.length hnil
    simp only [length_record, List.length_nil] at this
    omega
  · change r'.pos = _
    rw [pos_replayRecord hrecord, length_record]
    change _ = r.pos + _
    rw [Rec.of, length_record]
  · intro pre rest hpre
    change pre.length = r.pos at hpre
    have hsize : (pre ++ record type seq payload oid ++ rest).length =
        r.pos + recordLength payload.length + rest.length := by
      simp only [List.length_append, length_record]
      omega
    have hfirst : readBytes (pre ++ record type seq payload oid ++ rest) r.at_ (min 4
        ((pre ++ record type seq payload oid ++ rest).length - r.pos)) =
        .ok ((record type seq payload oid).take 4) := by
      rw [hsize, min_eq_left (by omega)]
      exact readBytes_take hpre (by rw [length_record]; omega)
    have hat : r.at_ - base = r.pos := by
      unfold Replay.at_
      omega
    have hread : readRecord (pre ++ record type seq payload oid ++ rest) r.at_
        (base + (pre ++ record type seq payload oid ++ rest).length) = _ :=
      readRecord_record h (by rw [Replay.at_, hpre]) (by rw [hsize, Replay.at_]; omega)
        (by rwa [hat])
    change replayStep _ _ _ = _
    rw [replayStep, if_neg hpos, hfirst, Outcome.ok_bind, if_neg (by rw [first_record] <;> simp),
      hread, Outcome.ok_bind]
    change some <$> replayRecord r _ = _
    rw [hrecord]
    rfl

/-- A log that ends inside a record is left there. -/
theorem cuts_record {type seq : ℕ} {payload : Bytes} {oid : Hash} (h : Encodable type seq payload)
    (hpos : r.pos % span ≠ 0) (hspan : recordLength payload.length ≤ span - r.pos % span)
    (hp : p r) : (reader repository).Cuts r (record type seq payload oid) p := by
  apply LogReader.cuts_of_stop hp
  intro pre n hpre hzero hn
  change pre.length = r.pos at hpre
  rw [length_record] at hn
  have hsize : (pre ++ (record type seq payload oid).take n).length = r.pos + n := by
    simp only [List.length_append, List.length_take, length_record]
    omega
  have hfirst : readBytes (pre ++ (record type seq payload oid).take n) r.at_ (min 4
      ((pre ++ (record type seq payload oid).take n).length - r.pos)) =
      .ok ((record type seq payload oid).take (min 4 n)) := by
    have htake : readBytes (pre ++ (record type seq payload oid).take n ++ []) r.at_ (min 4 n) = _ :=
      readBytes_take hpre (by rw [List.length_take, length_record]; omega)
    rw [List.append_nil, List.take_take, min_eq_left (min_le_right 4 n)] at htake
    rw [hsize, Nat.add_sub_cancel_left, htake]
  have hat : r.at_ - base = r.pos := by
    unfold Replay.at_
    omega
  have hread : readRecord (pre ++ (record type seq payload oid).take n) r.at_ (r.at_ + n) = _ :=
    readRecord_cut h (by rw [Replay.at_, hpre]) hn (by rwa [hat])
  have hend : base + (pre ++ (record type seq payload oid).take n).length = r.at_ + n := by
    rw [hsize, Replay.at_]
    omega
  change replayStep _ _ _ = _
  rw [replayStep, if_neg hpos, hfirst, Outcome.ok_bind, if_neg (by rw [first_record] <;> simp; omega),
    hend, hread, Outcome.ok_bind]

end Pieces

section Place

variable {repository : Repository} {r : Replay} {p : Replay → Prop} {end_ required start : ℕ}
  {lead : Bytes}

/-- Where a write begins that `place` has prepared. -/
structure Placed (end_ required start : ℕ) (lead : Bytes) : Prop where
  /-- The padding and header lie in front. -/
  start_eq : start = end_ + lead.length
  /-- The write begins after a segment header. -/
  inside : header ≤ (start - base) % span
  /-- It fits the segment. -/
  fits : required ≤ span - (start - base) % span
  /-- Offsets stay far below the limit of the file system. -/
  bounded : start < 2 ^ 63
  /-- Offsets are multiples of eight. -/
  aligned : 8 ∣ start - base

omit [Digest] in
/-- The three ways to place a write: at a segment boundary, after padding, or in the segment. -/
theorem place_cases (h : place repository end_ required = .ok (lead, start)) :
    ((end_ - base) % span = 0 ∧ end_ ≤ 2 ^ 63 - 1 - span ∧
      lead = segmentHeader repository.val ((end_ - base) / span) ∧ start = end_ + header) ∨
    ((end_ - base) % span ≠ 0 ∧ end_ + (span - (end_ - base) % span) ≤ 2 ^ 63 - 1 - span ∧
      lead = List.replicate (span - (end_ - base) % span) 0 ++
        segmentHeader repository.val ((end_ + (span - (end_ - base) % span) - base) / span) ∧
      start = end_ + (span - (end_ - base) % span) + header) ∨
    ((end_ - base) % span ≠ 0 ∧ required ≤ span - (end_ - base) % span ∧
      end_ ≤ 2 ^ 63 - 1 - span ∧ lead = [] ∧ start = end_) := by
  unfold place at h
  obtain ⟨hbound, h⟩ := need_bind_eq_ok.mp h
  by_cases hzero : (end_ - base) % span = 0
  · simp only [hzero, true_or, ne_eq, not_true_eq_false, and_false, if_false, if_true,
      Outcome.pure_eq_ok, Prod.mk.injEq] at h hbound
    refine Or.inl ⟨hzero, hbound, ?_, h.2.symm⟩
    rw [← h.1, Nat.sub_self]
    rfl
  · by_cases hnew : span - (end_ - base) % span < required
    · simp only [hzero, hnew, or_true, ne_eq, not_false_eq_true, and_true, if_true,
        Outcome.pure_eq_ok, Prod.mk.injEq] at h hbound
      refine Or.inr (Or.inl ⟨hzero, hbound, ?_, h.2.symm⟩)
      rw [← h.1, Nat.add_sub_cancel_left]
    · simp only [hzero, hnew, or_false, false_and, if_false, Outcome.pure_eq_ok,
        Prod.mk.injEq] at h hbound
      exact Or.inr (Or.inr ⟨hzero, not_lt.mp hnew, hbound, h.1.symm, h.2.symm⟩)

/-- The padding and header in front of a write are skipped. -/
theorem feeds_place (h : place repository end_ required = .ok (lead, start))
    (hphase : r.phase = .idle) (hat : r.at_ = end_) (halign : 8 ∣ r.pos)
    (hin : r.pos % span = 0 ∨ header ≤ r.pos % span)
    (hrequired : required ≤ span - header) (hp : ∀ pos, p { r with pos := pos }) :
    Placed end_ required start lead ∧
      (reader repository).Feeds r lead { r with pos := start - base } ∧
      (reader repository).Cuts r lead p := by
  have hpos : end_ - base = r.pos := by
    rw [← hat, Replay.at_]
    omega
  have hend : end_ = base + r.pos := hat.symm
  have hlt : r.pos % span < span := Nat.mod_lt _ (by decide)
  have hmod : ∀ n, n % span = 0 → (n + header) % span = header := by
    intro n hn
    rw [Nat.add_mod, hn, Nat.zero_add, Nat.mod_mod]
    rfl
  rcases place_cases h with ⟨hzero, hbound, hlead, hstart⟩ | ⟨hzero, hbound, hlead, hstart⟩ |
    ⟨hzero, hfits, hbound, hlead, hstart⟩
  · rw [hpos] at hzero hlead
    have hnext : start - base = r.pos + header := by omega
    rw [hlead, hnext]
    refine ⟨⟨?_, ?_, ?_, ?_, ?_⟩, feeds_segmentHeader hphase hzero,
      cuts_segmentHeader hphase hzero (hp r.pos)⟩
    · rw [length_segmentHeader, hstart]
    · rw [hnext, hmod _ hzero]
    · rwa [hnext, hmod _ hzero]
    · unfold span header at *
      omega
    · rw [hnext]
      exact Nat.dvd_add halign (by decide)
  · rw [hpos] at hzero hlead hstart hbound
    have hskip : (r.pos + (span - r.pos % span)) % span = 0 := by
      unfold span at *
      omega
    have hnext : start - base = r.pos + (span - r.pos % span) + header := by omega
    have hsegment : end_ + (span - r.pos % span) - base = r.pos + (span - r.pos % span) := by omega
    rw [hsegment] at hlead
    rw [hlead, hnext]
    have hpadding : (reader repository).Feeds r _ _ := feeds_padding hphase hzero halign
    refine ⟨⟨?_, ?_, ?_, ?_, ?_⟩, hpadding.append (feeds_segmentHeader hphase hskip),
      (cuts_padding hphase hzero fun n => hp (r.pos + n)).append hpadding
        (cuts_segmentHeader hphase hskip (hp _))⟩
    · rw [List.length_append, List.length_replicate, length_segmentHeader, hstart]
      omega
    · rw [hnext, hmod _ hskip]
    · rwa [hnext, hmod _ hskip]
    · unfold span header at *
      omega
    · rw [hnext]
      unfold span header at *
      omega
  · rw [hpos] at hzero hfits
    have hnext : start - base = r.pos := by rw [hstart, hpos]
    rw [hlead, hnext]
    refine ⟨⟨by simpa using hstart, ?_, ?_, ?_, ?_⟩, .refl r, LogReader.cuts_nil r p⟩
    · rw [hnext]
      exact hin.resolve_left hzero
    · rwa [hnext]
    · unfold span at hbound
      omega
    · rwa [hnext]

end Place

end ForkFs.Journal
