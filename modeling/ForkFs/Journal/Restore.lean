import ForkFs.Journal.Located

/-!
# Restoring a checkpoint

The payload of a checkpoint record parses back to the index that was written, as long as no
identity in it is the zero identity. A journal that continues after the record opens from it to
the same state as from the beginning of the log.
-/

namespace ForkFs.Journal

open Bytes Replay

/-- No identity in an index is the zero identity, which stands for the absence of one. -/
structure Named (index : Index) : Prop where
  /-- Objects have an identity. -/
  objects : ∀ id ∈ index.objects, id ≠ Hash.zero
  /-- The last commit has an identity. -/
  commit : index.seq ≠ 0 → index.lastHash ≠ Hash.zero

instance (index : Index) : Decidable (Named index) :=
  decidable_of_iff ((∀ e ∈ index.objects.toList, e.1 ≠ Hash.zero) ∧
      (index.seq ≠ 0 → index.lastHash ≠ Hash.zero)) <| by
    constructor
    · rintro ⟨hobjects, hcommit⟩
      refine ⟨fun id hid => ?_, hcommit⟩
      obtain ⟨e, he, rfl⟩ := List.mem_map.mp (StdMap.mem_map_toList.mpr hid)
      exact hobjects e he
    · rintro ⟨hobjects, hcommit⟩
      exact ⟨fun e he => hobjects e.1 (StdMap.mem_map_toList.mp (List.mem_map_of_mem he)), hcommit⟩

/-- One object of a checkpoint payload. -/
def objectBytes (e : Hash × Location) : Bytes := e.1.val ++ (store e.2.payload 8 ++ store e.2.length 4)

/-- One root of a checkpoint payload. -/
def rootBytes (e : Bytes × Hash) : Bytes := store e.1.length 4 ++ (e.1 ++ e.2.val)

theorem length_objectBytes (e : Hash × Location) : (objectBytes e).length = 44 := by
  simp [objectBytes, e.1.property]

theorem length_rootBytes (e : Bytes × Hash) : (rootBytes e).length = 36 + e.1.length := by
  simp [rootBytes, e.2.property]
  omega

theorem slice_objectBytes (e : Hash × Location) :
    slice (objectBytes e) 0 32 = e.1.val ∧ slice (objectBytes e) 32 8 = store e.2.payload 8 ∧
      slice (objectBytes e) 40 4 = store e.2.length 4 := by
  have hbytes : objectBytes e = [e.1.val, store e.2.payload 8, store e.2.length 4].flatten := by
    simp [objectBytes]
  rw [hbytes]
  refine ⟨slice_flatten (i := 0) rfl ?_ ?_, slice_flatten (i := 1) rfl ?_ ?_,
    slice_flatten (i := 2) rfl ?_ ?_⟩
  all_goals simp [e.1.property]

theorem slice_rootBytes (e : Bytes × Hash) :
    slice (rootBytes e) 0 4 = store e.1.length 4 ∧ slice (rootBytes e) 4 e.1.length = e.1 ∧
      slice (rootBytes e) (4 + e.1.length) 32 = e.2.val := by
  have hbytes : rootBytes e = [store e.1.length 4, e.1, e.2.val].flatten := by
    simp [rootBytes]
  rw [hbytes]
  refine ⟨slice_flatten (i := 0) rfl ?_ ?_, slice_flatten (i := 1) rfl ?_ ?_,
    slice_flatten (i := 2) rfl ?_ ?_⟩
  all_goals simp [e.2.property]

section Objects

variable {offset end_ : ℕ} {pre : Bytes}

/-- One object parses back. -/
theorem parseObject_objectBytes (rest : Bytes) {s : Objects} {e : Hash × Location}
    (hcursor : s.cursor = pre.length)
    (hid : e.1 ≠ Hash.zero) (hprevious : ∀ previous ∈ s.previous, previous < e.1)
    (hinside : Inside end_ e.2) (hend : end_ ≤ offset) (hlt : end_ < 2 ^ 64) :
    parseObject offset (pre ++ objectBytes e ++ rest) s =
      .ok ⟨(pre ++ objectBytes e).length, some e.1, s.objects.insertIfNew e.1 e.2⟩ := by
  obtain ⟨hid', hoff, hlen⟩ := slice_objectBytes e
  have hlength := length_objectBytes e
  obtain ⟨hbase, hbefore, hsize, haligned, hheader, hfits⟩ := hinside
  have hid'' : Hash.ofBytes (slice (pre ++ objectBytes e ++ rest) s.cursor 32) = e.1 := by
    rw [← Nat.add_zero s.cursor, slice_piece hcursor (by omega), hid', Hash.ofBytes_val]
  have hoff' : load (slice (pre ++ objectBytes e ++ rest) (s.cursor + 32) 8) = e.2.payload := by
    rw [slice_piece hcursor (by omega), hoff, load_store_of_lt (by omega)]
  have hlen' : load (slice (pre ++ objectBytes e ++ rest) (s.cursor + 40) 4) = e.2.length := by
    unfold maxPayload at hsize
    rw [slice_piece hcursor (by omega), hlen, load_store_of_lt (by omega)]
  simp only [parseObject, hid'', hoff', hlen', need_bind_eq_ok, Outcome.pure_eq_ok]
  refine ⟨⟨hid, hprevious⟩, ⟨hbase, by omega, by omega, hsize.1, hsize.2, haligned.1, haligned.2,
    hheader, hfits⟩, ?_⟩
  rw [List.length_append, hlength, hcursor]

/-- The objects parse back. -/
theorem parseObjects_flatMap (rest : Bytes) {s : Objects} {entries : List (Hash × Location)}
    (hcursor : s.cursor = pre.length) (hids : ∀ e ∈ entries, e.1 ≠ Hash.zero)
    (hsorted : entries.Pairwise fun a b => a.1 < b.1)
    (hprevious : ∀ e ∈ entries, ∀ previous ∈ s.previous, previous < e.1)
    (hinside : ∀ e ∈ entries, Inside end_ e.2) (hend : end_ ≤ offset) (hlt : end_ < 2 ^ 64) :
    ∃ previous, parseObjects offset (pre ++ entries.flatMap objectBytes ++ rest) entries.length s =
      .ok ⟨(pre ++ entries.flatMap objectBytes).length, previous, s.objects.emplaceAll entries⟩ := by
  induction entries generalizing s pre with
  | nil => exact ⟨s.previous, by simp [parseObjects, ← hcursor, StdMap.emplaceAll]⟩
  | cons e entries ih =>
    obtain ⟨hfirst, hsorted⟩ := List.pairwise_cons.mp hsorted
    have hone := parseObject_objectBytes (entries.flatMap objectBytes ++ rest) hcursor
      (hids e (by simp)) (hprevious e (by simp)) (hinside e (by simp)) hend hlt
    have hnext : (Objects.mk (pre ++ objectBytes e).length (some e.1)
        (s.objects.insertIfNew e.1 e.2)).cursor = (pre ++ objectBytes e).length := rfl
    obtain ⟨previous, hall⟩ := ih hnext (fun e' he' => hids e' (by simp [he'])) hsorted
      (fun e' he' previous hp => by cases hp; exact hfirst e' he')
      (fun e' he' => hinside e' (by simp [he']))
    refine ⟨previous, ?_⟩
    simp only [List.flatMap_cons, List.append_assoc] at hone hall ⊢
    rw [List.length_cons, parseObjects, hone, Outcome.ok_bind, hall]
    rfl

end Objects

section Roots

variable {objects : StdMap Hash Location} {pre : Bytes}

/-- One root parses back. -/
theorem parseRoot_rootBytes (rest : Bytes) {s : Roots} {e : Bytes × Hash} (hcursor : s.cursor = pre.length)
    (hkey : e.1 ≠ [] ∧ e.1.length ≤ 1024) (hprevious : ∀ previous ∈ s.previous, previous < e.1)
    (hid : e.2 ∈ objects) :
    parseRoot objects (pre ++ rootBytes e ++ rest) s =
      .ok ⟨(pre ++ rootBytes e).length, some e.1, s.roots.insertIfNew e.1 e.2⟩ := by
  obtain ⟨hn, hname, hobject⟩ := slice_rootBytes e
  have hlength := length_rootBytes e
  have hpos := List.length_pos_of_ne_nil hkey.1
  have hbound := hkey.2
  have hsize : (pre ++ rootBytes e ++ rest).length = s.cursor + (36 + e.1.length) + rest.length := by
    rw [List.length_append, List.length_append, hlength, hcursor]
  have hn' : load (slice (pre ++ rootBytes e ++ rest) s.cursor 4) = e.1.length := by
    rw [← Nat.add_zero s.cursor, slice_piece hcursor (by omega), hn, load_store_of_lt (by omega)]
  have hname' : slice (pre ++ rootBytes e ++ rest) (s.cursor + 4) e.1.length = e.1 := by
    rw [slice_piece hcursor (by omega), hname]
  have hobject' : Hash.ofBytes (slice (pre ++ rootBytes e ++ rest) (s.cursor + 4 + e.1.length) 32) =
      e.2 := by
    rw [Nat.add_assoc, slice_piece hcursor (by omega), hobject, Hash.ofBytes_val]
  simp only [parseRoot, hn', hname', hobject', need_bind_eq_ok, Outcome.pure_eq_ok]
  refine ⟨by omega, ⟨hpos, hbound, by omega⟩, ⟨hprevious, hid⟩, ?_⟩
  rw [List.length_append, hlength, ← hcursor]
  congr 1
  omega

/-- The roots parse back. -/
theorem parseRoots_flatMap (rest : Bytes) {s : Roots} {entries : List (Bytes × Hash)}
    (hcursor : s.cursor = pre.length) (hsorted : entries.Pairwise fun a b => a.1 < b.1)
    (hprevious : ∀ e ∈ entries, ∀ previous ∈ s.previous, previous < e.1)
    (hentries : ∀ e ∈ entries, (e.1 ≠ [] ∧ e.1.length ≤ 1024) ∧ e.2 ∈ objects) :
    ∃ previous, parseRoots objects (pre ++ entries.flatMap rootBytes ++ rest) entries.length s =
      .ok ⟨(pre ++ entries.flatMap rootBytes).length, previous, s.roots.emplaceAll entries⟩ := by
  induction entries generalizing s pre with
  | nil => exact ⟨s.previous, by simp [parseRoots, ← hcursor, StdMap.emplaceAll]⟩
  | cons e entries ih =>
    obtain ⟨hfirst, hsorted⟩ := List.pairwise_cons.mp hsorted
    obtain ⟨hkey, hid⟩ := hentries e (by simp)
    have hone := parseRoot_rootBytes (entries.flatMap rootBytes ++ rest) hcursor hkey
      (hprevious e (by simp)) hid
    have hnext : (Roots.mk (pre ++ rootBytes e).length (some e.1)
        (s.roots.insertIfNew e.1 e.2)).cursor = (pre ++ rootBytes e).length := rfl
    obtain ⟨previous, hall⟩ := ih hnext hsorted
      (fun e' he' previous hp => by cases hp; exact hfirst e' he')
      (fun e' he' => hentries e' (by simp [he']))
    refine ⟨previous, ?_⟩
    simp only [List.flatMap_cons, List.append_assoc] at hone hall ⊢
    rw [List.length_cons, parseRoots, hone, Outcome.ok_bind, hall]
    rfl

theorem length_objects (entries : List (Hash × Location)) :
    (entries.flatMap objectBytes).length = 44 * entries.length := by
  induction entries with
  | nil => rfl
  | cons e entries ih =>
    rw [List.flatMap_cons, List.length_append, length_objectBytes, ih, List.length_cons]
    omega

theorem length_roots_le (entries : List (Bytes × Hash)) (h : ∀ e ∈ entries, e.1 ≠ []) :
    37 * entries.length ≤ (entries.flatMap rootBytes).length := by
  induction entries with
  | nil => simp
  | cons e entries ih =>
    have hpos := List.length_pos_of_ne_nil (h e (by simp))
    have hrest := ih fun e' he' => h e' (by simp [he'])
    rw [List.flatMap_cons, List.length_append, length_rootBytes, List.length_cons]
    omega

end Roots

section Payload

variable {index : Index} {end_ : ℕ} {c : Checkpoint}

/-- The fixed part of a checkpoint payload. -/
def checkpointHead (index : Index) : Bytes :=
  [store index.seq 8, index.lastHash.val, store index.objects.size 4,
    store index.roots.size 4].flatten

theorem checkpointPayload_eq (index : Index) :
    checkpointPayload index = checkpointHead index ++ index.objects.toList.flatMap objectBytes ++
      index.roots.toList.flatMap rootBytes := by
  simp [checkpointPayload, checkpointHead]
  rfl

theorem length_checkpointHead (index : Index) : (checkpointHead index).length = 48 := by
  simp [checkpointHead, index.lastHash.property]

theorem slice_checkpointHead (index : Index) :
    slice (checkpointHead index) 0 8 = store index.seq 8 ∧
      slice (checkpointHead index) 8 32 = index.lastHash.val ∧
      slice (checkpointHead index) 40 4 = store index.objects.size 4 ∧
      slice (checkpointHead index) 44 4 = store index.roots.size 4 := by
  refine ⟨slice_flatten (i := 0) rfl ?_ ?_, slice_flatten (i := 1) rfl ?_ ?_,
    slice_flatten (i := 2) rfl ?_ ?_, slice_flatten (i := 3) rfl ?_ ?_⟩
  all_goals simp [index.lastHash.property]

/-- A checkpoint payload parses back to the index. -/
theorem parseCheckpoint_checkpointPayload (hcredible : Credible index end_) (hnamed : Named index)
    (hlimit : (checkpointPayload index).length ≤ 1024 * 1024 - 87) (hseq : index.seq < 2 ^ 64)
    (hsequence : c.sequence = index.seq) (hend : end_ ≤ c.offset) :
    parseCheckpoint c (checkpointPayload index) = .ok index := by
  have hhead := length_checkpointHead index
  obtain ⟨hfield, hlast, hno, hnr⟩ := slice_checkpointHead index
  have hobjects := length_objects index.objects.toList
  have hroots := length_roots_le index.roots.toList fun e he =>
    (hcredible.rooted e.1 e.2 (StdMap.mem_toList.mp he)).1.1
  have hsize : (checkpointPayload index).length = 48 + 44 * index.objects.size +
      (index.roots.toList.flatMap rootBytes).length := by
    rw [checkpointPayload_eq, List.length_append, List.length_append, hhead, hobjects,
      Std.ExtTreeMap.length_toList]
  rw [Std.ExtTreeMap.length_toList] at hobjects hroots
  have hslice : ∀ i n, i + n ≤ 48 →
      slice (checkpointPayload index) i n = slice (checkpointHead index) i n := by
    intro i n hin
    rw [checkpointPayload_eq, List.append_assoc, slice_append_left (by omega)]
  have hno' : load (slice (checkpointPayload index) 40 4) = index.objects.size := by
    rw [hslice _ _ (by omega), hno, load_store_of_lt (by omega)]
  have hnr' : load (slice (checkpointPayload index) 44 4) = index.roots.size := by
    rw [hslice _ _ (by omega), hnr, load_store_of_lt (by omega)]
  have hlast' : Hash.ofBytes (slice (checkpointPayload index) 8 32) = index.lastHash := by
    rw [hslice _ _ (by omega), hlast, Hash.ofBytes_val]
  have hobjectsAt : (Objects.mk 48 none ∅).cursor = (checkpointHead index).length := hhead.symm
  obtain ⟨previous, hparse⟩ := parseObjects_flatMap (index.roots.toList.flatMap rootBytes) hobjectsAt
    (fun e he => hnamed.objects e.1 (StdMap.mem_map_toList.mp (List.mem_map_of_mem he)))
    index.objects.sorted_toList (by simp)
    (fun e he => hcredible.located e.1 e.2 (StdMap.mem_toList.mp he)) hend hcredible.end_lt
  have hrootsAt : (Roots.mk (checkpointHead index ++ index.objects.toList.flatMap objectBytes).length
      none ∅).cursor = (checkpointHead index ++ index.objects.toList.flatMap objectBytes).length := rfl
  obtain ⟨previous', hparse'⟩ := parseRoots_flatMap [] hrootsAt index.roots.sorted_toList (by simp)
    (fun e he => hcredible.rooted e.1 e.2 (StdMap.mem_toList.mp he))
  rw [← checkpointPayload_eq, Std.ExtTreeMap.length_toList] at hparse
  rw [List.append_nil, ← checkpointPayload_eq, Std.ExtTreeMap.length_toList] at hparse'
  rw [StdMap.emplaceAll_toList] at hparse hparse'
  simp only [parseCheckpoint, hno', hnr', hlast', need_bind_eq_ok]
  refine ⟨⟨by omega, ?_⟩, ?_, by omega, ?_⟩
  · rw [hslice _ _ (by omega), hfield, load_store_of_lt (by omega), hsequence]
  · rw [hsequence]
    refine ⟨hcredible.initial, fun hzero => ?_⟩
    by_contra hne
    exact hnamed.commit hne hzero
  · rw [hparse, Outcome.ok_bind, hparse', Outcome.ok_bind, need_of rfl, Outcome.ok_bind, hsequence]
    rfl

end Payload

variable [Digest] {repository : Repository} {j : Journal} {a : Append} {d : Checkpoint}

/-- A descriptor that opens the journal without its first part, whatever follows the kept part. -/
def Anchored (repository : Repository) (j : Journal) (d : Checkpoint) : Prop :=
  d.offset = 0 ∨ ∃ index₀, Resumes repository index₀ d.replayStart j ∧
    ∀ rest, restoreCheckpoint repository (j.kept ++ rest) d = .ok (index₀, d.replayStart)

omit [Digest] in
theorem log_eq_kept (j : Journal) : ∃ rest, j.log = j.kept ++ rest := by
  unfold kept
  split
  · exact ⟨_, (List.take_append_drop ..).symm⟩
  · exact ⟨[], (List.append_nil _).symm⟩

/-- Opening from an anchored descriptor and replaying the whole log give the same journal. -/
theorem Anchored.opens (h : Anchored repository j d) (hsound : Sound repository j) :
    open_ repository j.log d = .ok j := by
  rcases h with hzero | ⟨index₀, hresumes, hrestore⟩
  · rw [open_, if_pos hzero]
    exact hsound.resumes.opens
  · unfold open_
    split
    · exact hsound.resumes.opens
    · obtain ⟨rest, hlog⟩ := log_eq_kept j
      rw [hlog, hrestore, Outcome.ok_bind, ← hlog]
      exact hresumes.opens

theorem Anchored.append (h : Anchored repository j d) (ha : Replays repository j.index j.end_ a) :
    Anchored repository (j.append a) d := by
  refine h.imp_right fun ⟨index₀, hresumes, hrestore⟩ => ⟨index₀, hresumes.append ha, fun rest => ?_⟩
  change restoreCheckpoint repository (j.kept ++ a.bytes ++ rest) d = _
  rw [List.append_assoc]
  exact hrestore _

theorem Anchored.cutOff (h : Anchored repository j d) {n : ℕ} (hn : n < a.bytes.length)
    (ha : Replays repository j.index j.end_ a) :
    Anchored repository (j.cutOff (a.bytes.take n)) d := by
  refine h.imp_right fun ⟨index₀, hresumes, hrestore⟩ =>
    ⟨index₀, hresumes.cutOff hn ha, fun rest => ?_⟩
  rw [kept_cutOff hresumes.length_kept]
  exact hrestore rest

omit [Digest] in
theorem Headed.append {log : Bytes} {end_ : ℕ} (h : Headed repository log end_) (bytes : Bytes) :
    Headed repository (log ++ bytes) end_ := fun hne => (h hne).append bytes

omit [Digest] in
theorem Rests.resume {r : Replay} {index : Index} {end_ : ℕ} (h : Rests r index end_) :
    Rests (Replay.from_ index end_) index end_ := by
  have hpos : end_ - base = r.pos := by
    rw [← h.at_eq, Replay.at_]
    omega
  refine ⟨rfl, rfl, rfl, ?_, ?_, ?_⟩
  · rw [← h.at_eq, Replay.at_, Replay.at_]
    change base + (base + r.pos - base) = _
    omega
  · change 8 ∣ end_ - base
    rw [hpos]
    exact h.aligned
  · change (end_ - base) % span = 0 ∨ header ≤ (end_ - base) % span
    rw [hpos]
    exact h.inside

/-- A checkpoint that was just written opens the journal. -/
theorem resumes_checkpoint (hsound : Sound repository j) (hlaid : Laid repository (j.append a))
    (ha : Replays repository j.index j.end_ a) :
    Resumes repository a.index a.end_ (j.append a) := by
  have happend := hsound.resumes.append ha
  have hlength : base + (j.kept ++ a.bytes).length = a.end_ := happend.length_kept
  obtain ⟨_, _, r, -, -, -, hrests⟩ := happend.replays
  have hstart := hrests.resume
  have hsegment : ∀ rest, checkSegment repository ((j.append a).kept ++ rest) a.end_ = .ok () :=
    fun rest => checkSegment_of_headed (hlaid.headed.append rest)
  refine ⟨hstart, ⟨_, [], _, (List.append_nil _).symm, hlength, .refl _, hstart⟩, hsegment, ?_⟩
  have hpos : (reader repository).pos (Replay.from_ a.index a.end_) = (j.kept ++ a.bytes).length := by
    change a.end_ - base = _
    omega
  have hopen := openFrom_eq_ok (hsegment []) (.refl (Replay.from_ a.index a.end_))
    (LogReader.halts_of_pos (by rw [List.append_nil]; exact hpos))
  rw [List.append_nil] at hopen
  refine hopen.trans ?_
  change Except.ok (Journal.mk (j.kept ++ a.bytes) a.index a.end_
    (decide (base + (j.kept ++ a.bytes).length ≠ a.end_))) = _
  rw [hlength]
  simp [Journal.append]

/-- A checkpoint that was just written restores the index. -/
theorem anchored_checkpoint (hsound : Sound repository j) (hlaid : Laid repository j)
    (hnamed : Named j.index) (hplan : planCheckpoint repository j = .ok (a, d)) :
    Anchored repository (j.append a) d := by
  have hplan' : plan repository j .checkpoint = .ok a := Outcome.map_eq_ok.mpr ⟨_, hplan, rfl⟩
  have hresumes := resumes_checkpoint hsound (laid_append hsound hlaid hplan')
    (replays_checkpoint hplan hsound.seq_lt)
  obtain ⟨hlimit, lead, start, hplace, rfl, rfl⟩ := planCheckpoint_eq_ok hplan
  have hrecord := recordLength_eq (checkpointPayload j.index).length
  obtain ⟨hplaced, hbase⟩ := hsound.resumes.placed hplace (by unfold span header; omega)
  refine Or.inr ⟨j.index, hresumes, fun rest => ?_⟩
  have hlength := hsound.resumes.length_kept
  have hat : start = base + (j.kept ++ lead).length := by
    rw [hplaced.start_eq, List.length_append]
    omega
  have hlog : (j.append ⟨lead ++ record 5 j.index.seq (checkpointPayload j.index) Hash.zero, j.index,
      start + recordLength (checkpointPayload j.index).length⟩).kept ++ rest =
      j.kept ++ lead ++ record 5 j.index.seq (checkpointPayload j.index) Hash.zero ++ rest := by
    change j.kept ++ (lead ++ _) ++ rest = _
    rw [← List.append_assoc j.kept]
  rw [hlog]
  have hheaded := (headedAt_place hplace hlength hlaid.headed).append
    (record 5 j.index.seq (checkpointPayload j.index) Hash.zero ++ rest)
  rw [← List.append_assoc] at hheaded
  have hencodable : Encodable 5 j.index.seq (checkpointPayload j.index) :=
    ⟨by decide, hsound.seq_lt, hlimit⟩
  have hsize : base + (j.kept ++ lead ++ record 5 j.index.seq (checkpointPayload j.index) Hash.zero ++
      rest).length = start + recordLength (checkpointPayload j.index).length + rest.length := by
    rw [List.length_append, List.length_append, length_record, hat]
    omega
  have hread : readRecord (j.kept ++ lead ++ record 5 j.index.seq (checkpointPayload j.index)
      Hash.zero ++ rest) start
      (start + recordLength (checkpointPayload j.index).length + rest.length) = _ :=
    readRecord_record hencodable hat (by omega) hplaced.fits
  simp only [restoreCheckpoint, need_bind_eq_ok, hsize]
  refine ⟨⟨hbase, by omega, by omega, trivial⟩, hplaced.inside, ?_⟩
  rw [readBytes_header hheaded, Outcome.ok_bind, need_of rfl, Outcome.ok_bind, hread,
    Outcome.ok_bind]
  simp only [need_bind_eq_ok]
  refine ⟨⟨rfl, rfl, rfl, Rec.length_encoded_of .., rfl⟩, ?_⟩
  have hparse := parseCheckpoint_checkpointPayload (c := ⟨start,
    recordLength (checkpointPayload j.index).length, j.index.seq,
    start + recordLength (checkpointPayload j.index).length,
    digest (checkpointPayload j.index)⟩) hlaid.credible hnamed hlimit hsound.seq_lt rfl
    (by rw [hplaced.start_eq]; exact Nat.le_add_right _ _)
  change (parseCheckpoint _ (checkpointPayload j.index) >>= _) = _
  rw [hparse]
  rfl

end ForkFs.Journal
