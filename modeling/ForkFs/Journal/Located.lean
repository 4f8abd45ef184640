import ForkFs.Journal.Recovery

/-!
# Where the index points

A checkpoint record is accepted only if the index in it is credible: every object lies before
the record and within one segment, every root has a name in range and an object. These hold of
every index that the calls produce. The segment that the log ends in begins with its header.
-/

namespace ForkFs.Journal

open Bytes Replay

/-- An object record that lies before `end_` and within one segment. -/
structure Inside (end_ : ℕ) (loc : Location) : Prop where
  /-- It lies in the log. -/
  base_le : base ≤ loc.payload
  /-- It ends before `end_`. -/
  before : loc.payload + loc.length ≤ end_
  /-- Its size is that of an object record. -/
  size : 88 ≤ loc.length ∧ loc.length ≤ maxPayload + 88
  /-- It is aligned. -/
  aligned : loc.payload % 8 = 0 ∧ loc.length % 8 = 0
  /-- It lies after the segment header. -/
  header_le : header ≤ (loc.payload - base) % span
  /-- It lies within the segment. -/
  fits : loc.length ≤ span - (loc.payload - base) % span

theorem Inside.mono {end_ end' : ℕ} {loc : Location} (h : Inside end_ loc) (hle : end_ ≤ end') :
    Inside end' loc :=
  { h with before := h.before.trans hle }

/-- An index that a checkpoint record may hold. -/
structure Credible (index : Index) (end_ : ℕ) : Prop where
  /-- Offsets fit their fields. -/
  end_lt : end_ < 2 ^ 64
  /-- Before the first commit there is no commit hash. -/
  initial : index.seq = 0 → index.lastHash = Hash.zero
  /-- Objects lie in the log. -/
  located : ∀ (id : Hash) loc, index.objects[id]? = some loc → Inside end_ loc
  /-- Roots have a name in range and an object. -/
  rooted : ∀ (k : Bytes) id, index.roots[k]? = some id → (k ≠ [] ∧ k.length ≤ 1024) ∧
    id ∈ index.objects

/-- The header of the segment around an offset is in the log. -/
def HeadedAt (repository : Repository) (log : Bytes) (at_ : ℕ) : Prop :=
  ∃ front rest, log = front ++ segmentHeader repository.val ((at_ - base) / span) ++ rest ∧
    front.length = (at_ - base) / span * span

/-- The log ends at a segment boundary or in a segment with a header. -/
def Headed (repository : Repository) (log : Bytes) (end_ : ℕ) : Prop :=
  (end_ - base) % span ≠ 0 → HeadedAt repository log end_

variable {repository : Repository} {log : Bytes} {at_ end_ : ℕ}

theorem HeadedAt.append (h : HeadedAt repository log at_) (bytes : Bytes) :
    HeadedAt repository (log ++ bytes) at_ := by
  obtain ⟨front, rest, hlog, hfront⟩ := h
  exact ⟨front, rest ++ bytes, by rw [hlog, List.append_assoc], hfront⟩

/-- Later offsets of the same segment have the same header. -/
theorem HeadedAt.add (h : HeadedAt repository log at_) (hbase : base ≤ at_) {n : ℕ}
    (hn : n < span - (at_ - base) % span) : HeadedAt repository log (at_ + n) := by
  have hsame : (at_ + n - base) / span = (at_ - base) / span := by
    unfold span at *
    omega
  rw [HeadedAt, hsame]
  exact h

theorem readBytes_header (h : HeadedAt repository log at_) :
    readBytes log (base + (at_ - base) / span * span) header =
      .ok (segmentHeader repository.val ((at_ - base) / span)) := by
  obtain ⟨front, rest, hlog, hfront⟩ := h
  rw [hlog]
  exact readBytes_append (by rw [hfront]) (length_segmentHeader repository _)

theorem checkSegment_of_headed (h : Headed repository log at_) :
    checkSegment repository log at_ = .ok () := by
  unfold checkSegment
  split
  · rename_i hinside
    dsimp only
    rw [readBytes_header (h hinside.2), Outcome.ok_bind, need_of rfl]
  · rfl

/-- The header of the segment that a write is placed in. -/
theorem headedAt_place {required start : ℕ} {lead : Bytes}
    (h : place repository end_ required = .ok (lead, start)) (hend : base + log.length = end_)
    (hheaded : Headed repository log end_) : HeadedAt repository (log ++ lead) start := by
  rcases place_cases h with ⟨hzero, -, hlead, hstart⟩ | ⟨hzero, -, hlead, hstart⟩ |
    ⟨hzero, -, -, hlead, hstart⟩
  · have hseg : (start - base) / span = (end_ - base) / span := by
      unfold span header at *
      omega
    refine ⟨log, [], ?_, ?_⟩
    · rw [hseg, List.append_nil, hlead]
    · rw [hseg]
      unfold span at *
      omega
  · have hseg : (start - base) / span = (end_ + (span - (end_ - base) % span) - base) / span := by
      unfold span header at *
      omega
    refine ⟨log ++ List.replicate (span - (end_ - base) % span) 0, [], ?_, ?_⟩
    · rw [hseg, List.append_nil, hlead, List.append_assoc]
    · rw [hseg, List.length_append, List.length_replicate]
      unfold span at *
      omega
  · rw [hlead, List.append_nil, hstart]
    exact hheaded hzero

/-- The records of a transaction lie in its segment. -/
theorem inside_locations (seq : ℕ) {values : List (Hash × Bytes)} {start : ℕ} {id : Hash}
    {loc : Location}
    (hvalues : ∀ e ∈ values, e.2.length ≤ maxPayload) (hbase : base ≤ start)
    (halign : 8 ∣ start - base) (hin : header ≤ (start - base) % span)
    (hfits : (dataRecords seq values).length < span - (start - base) % span)
    (hmem : (id, loc) ∈ locations start values) :
    Inside (start + (dataRecords seq values).length) loc := by
  induction values generalizing start with
  | nil => simp [locations] at hmem
  | cons e values ih =>
    have hbytes : dataRecords seq (e :: values) =
        record 1 seq (dataPayload e.2) e.1 ++ dataRecords seq values := rfl
    have hvalue := hvalues e (by simp)
    have hlength : recordLength (dataPayload e.2).length % 8 = 0 ∧
        88 ≤ recordLength (dataPayload e.2).length ∧
        recordLength (dataPayload e.2).length ≤ maxPayload + 88 := by
      rw [length_dataPayload]
      unfold recordLength maxPayload at *
      omega
    rw [hbytes, List.length_append, length_record] at hfits ⊢
    rcases List.mem_cons.mp hmem with heq | hmem
    · cases heq
      refine ⟨hbase, ?_, hlength.2, ⟨?_, hlength.1⟩, hin, ?_⟩
      · dsimp only
        omega
      · change start % 8 = 0
        unfold base at *
        omega
      · dsimp only
        omega
    · have hnext : (start + recordLength (dataPayload e.2).length - base) % span =
          (start - base) % span + recordLength (dataPayload e.2).length := by
        have hpos : start + recordLength (dataPayload e.2).length - base =
            start - base + recordLength (dataPayload e.2).length := by omega
        rw [hpos, Nat.add_mod,
          Nat.mod_eq_of_lt (by omega : recordLength (dataPayload e.2).length < span),
          Nat.mod_eq_of_lt (by omega)]
      have hrest := ih
        (fun e' he' => hvalues e' (by simp [he'])) (by omega) (by omega) (by omega) (by omega) hmem
      rwa [Nat.add_assoc] at hrest

variable [Digest] {j : Journal} {c : Call} {a : Append}

/-- What is known of an open journal besides its replay. -/
structure Laid (repository : Repository) (j : Journal) : Prop where
  /-- The index is one that a checkpoint may hold. -/
  credible : Credible j.index j.end_
  /-- The last segment has its header. -/
  headed : Headed repository j.kept j.end_

omit [Digest] in
theorem laid_new (repository : Repository) : Laid repository new :=
  ⟨⟨by decide, fun _ => rfl, by simp [new, Index.empty], by simp [new, Index.empty]⟩,
    fun h => absurd rfl h⟩

/-- Where a call that begins at the end of a replayed journal is placed. -/
theorem Resumes.placed {index₀ : Index} {end₀ required start : ℕ} {lead : Bytes}
    (h : Resumes repository index₀ end₀ j)
    (hplace : place repository j.end_ required = .ok (lead, start))
    (hrequired : required ≤ span - header) : Placed j.end_ required start lead ∧ base ≤ start := by
  obtain ⟨front, back, r, -, -, -, hrests⟩ := h.replays
  have hplaced := (feeds_place (p := fun _ => True) hplace hrests.phase hrests.at_eq hrests.aligned
    hrests.inside hrequired fun _ => trivial).1
  refine ⟨hplaced, ?_⟩
  rw [hplaced.start_eq, ← hrests.at_eq, Replay.at_]
  omega

omit [Digest] in
theorem headed_append {start n : ℕ} {bytes lead : Bytes} (hbase : base ≤ start)
    (hheaded : HeadedAt repository (log ++ lead) start) (hn : n ≤ span - (start - base) % span) :
    Headed repository (log ++ (lead ++ bytes)) (start + n) := by
  intro hne
  rw [← List.append_assoc]
  refine (hheaded.add hbase ?_).append bytes
  unfold span at *
  omega

/-- The calls keep the index credible. -/
theorem laid_append (hsound : Sound repository j) (h : Laid repository j)
    (hplan : plan repository j c = .ok a) : Laid repository (j.append a) := by
  have hlength := hsound.resumes.length_kept
  rcases plan_cases hplan hsound.seq_lt with ⟨values, type, prepare, changes, hacceptable, hplan⟩ |
    ⟨-, d, hplan⟩
  · have hbatch := hacceptable.batch_le
    obtain ⟨lead, start, commit, hplace, rfl⟩ := commitBatch_eq_ok hplan
    obtain ⟨hplaced, hbase⟩ := hsound.resumes.placed hplace
      (by rw [List.length_append, length_record]; unfold span header; omega)
    have hstart := hplaced.start_eq
    have hbounded := hplaced.bounded
    have hfits := hplaced.fits
    have hsize : (dataRecords (j.index.seq + 1) values ++
        record type (j.index.seq + 1) prepare Hash.zero).length =
        (dataRecords (j.index.seq + 1) values).length + recordLength prepare.length := by
      rw [List.length_append, length_record]
    refine ⟨⟨?_, ?_, ?_, ?_⟩, ?_⟩
    · change start + _ + 216 < 2 ^ 64
      unfold span at hfits
      omega
    · intro hzero
      exact absurd hzero (Nat.succ_ne_zero _)
    · intro id loc hloc
      change Inside (start + _ + 216) loc
      change (StdMap.insertAll _ _)[id]? = some loc at hloc
      rw [StdMap.getElem?_insertAll (nodup_locations start hacceptable.storable.nodup)] at hloc
      rcases hloc with hmem | ⟨-, hold⟩
      · refine (inside_locations (j.index.seq + 1) hacceptable.storable.length_le hbase
          hplaced.aligned hplaced.inside (by omega) hmem).mono ?_
        omega
      · exact (h.credible.located id loc hold).mono (by omega)
    · intro k id hroot
      change (StdMap.override _ _)[k]? = some id at hroot
      change _ ∧ id ∈ StdMap.insertAll _ _
      rw [StdMap.getElem?_override] at hroot
      rw [StdMap.mem_insertAll, map_locations]
      split at hroot
      · rename_i o ho
        obtain ⟨hkey, hbound⟩ := hacceptable.described k o ho
        exact ⟨hkey, (hbound id hroot).symm⟩
      · obtain ⟨hkey, hobject⟩ := h.credible.rooted k id hroot
        exact ⟨hkey, Or.inl hobject⟩
    · change Headed repository (j.kept ++ (lead ++ _)) (start + _ + 216)
      rw [Nat.add_assoc]
      exact headed_append hbase (headedAt_place hplace hlength h.headed) hplaced.fits
  · obtain ⟨hlimit, lead, start, hplace, rfl, -⟩ := planCheckpoint_eq_ok hplan
    have hrecord := recordLength_eq (checkpointPayload j.index).length
    obtain ⟨hplaced, hbase⟩ := hsound.resumes.placed hplace (by unfold span header; omega)
    have hstart := hplaced.start_eq
    have hbounded := hplaced.bounded
    refine ⟨⟨?_, h.credible.initial, fun id loc hloc => ?_, h.credible.rooted⟩, ?_⟩
    · change start + _ < 2 ^ 64
      omega
    · exact (h.credible.located id loc hloc).mono (by dsimp only [Journal.append]; omega)
    · exact headed_append hbase (headedAt_place hplace hlength h.headed) hplaced.fits

end ForkFs.Journal
