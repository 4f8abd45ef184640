import ForkFs.Journal.Feeds

/-!
# Replaying one transaction

The records that a transaction writes are accepted one after the other. Before the COMMIT record
nothing of the committed index changes, so a log that ends inside the transaction keeps the
previous index. The COMMIT record yields the index that the writer computed.
-/

namespace ForkFs.Journal

open Bytes Replay

variable [Digest]

/-- A record of the current transaction before it is placed in the log. -/
structure Draft where
  /-- The record type. -/
  type : ℕ
  /-- The payload. -/
  payload : Bytes
  /-- The object it carries, or zero. -/
  oid : Hash

/-- The bytes of a sequence of records. -/
def draftBytes (seq : ℕ) (drafts : List Draft) : Bytes :=
  drafts.flatMap fun d => record d.type seq d.payload d.oid

/-- Replay a sequence of records. -/
def replayAll (seq : ℕ) : List Draft → Replay → Except String Replay
  | [], r => .ok r
  | d :: drafts, r => do
    let r ← replayRecord r (Rec.of d.type seq d.payload d.oid r.at_)
    replayAll seq drafts r

variable {repository : Repository} {r r' : Replay} {seq : ℕ}

/-- Types of the records before a COMMIT record. -/
def Uncommitted (type : ℕ) : Prop := type = 1 ∨ type = 2 ∨ type = 7 ∨ type = 8

/-- Before the COMMIT record a transaction changes neither the index nor the end. -/
theorem replayRecord_keeps {c : Rec} (htype : Uncommitted c.type)
    (h : replayRecord r c = .ok r') : r'.index = r.index ∧ r'.end_ = r.end_ := by
  have hfive : ¬ (r.phase = .idle ∧ c.type = 5) := by
    unfold Uncommitted at htype
    omega
  rw [replayRecord, if_neg hfive] at h
  obtain ⟨-, h⟩ := need_bind_eq_ok.mp h
  obtain ⟨r₁, htransaction, h⟩ := Outcome.bind_eq_ok.mp h
  obtain ⟨-, h⟩ := need_bind_eq_ok.mp h
  cases h
  have hbegin : (if r.phase = .idle then r.begin_ else r).index = r.index ∧
      (if r.phase = .idle then r.begin_ else r).end_ = r.end_ := by
    split <;> exact ⟨rfl, rfl⟩
  rw [← hbegin.1, ← hbegin.2]
  change r₁.index = _ ∧ r₁.end_ = _
  generalize (if r.phase = .idle then r.begin_ else r) = r₀ at htransaction ⊢
  unfold replayTransaction at htransaction
  split at htransaction
  · simp only [replayData, need_bind_eq_ok, Outcome.pure_eq_ok] at htransaction
    obtain ⟨-, -, -, -, rfl⟩ := htransaction
    exact ⟨rfl, rfl⟩
  · split at htransaction
    · simp only [replayPrepare, need_bind_eq_ok] at htransaction
      obtain ⟨-, -, h⟩ := htransaction
      obtain ⟨_, -, h⟩ := Outcome.bind_eq_ok.mp h
      cases h
      exact ⟨rfl, rfl⟩
    · obtain ⟨hcommit, -⟩ := need_bind_eq_ok.mp htransaction
      unfold Uncommitted at htype
      omega

/-- The records before a COMMIT record are consumed, and a log that ends inside them keeps the
index and the end. -/
theorem feeds_drafts (repository : Repository) (reserve : ℕ) {drafts : List Draft}
    (hreserve : 0 < reserve)
    (hdrafts : ∀ d ∈ drafts, Encodable d.type seq d.payload ∧ Uncommitted d.type)
    (hin : header ≤ r.pos % span)
    (hfits : (draftBytes seq drafts).length + reserve ≤ span - r.pos % span)
    (h : replayAll seq drafts r = .ok r') :
    (reader repository).Feeds r (draftBytes seq drafts) r' ∧
      (reader repository).Cuts r (draftBytes seq drafts)
        (fun s => s.index = r.index ∧ s.end_ = r.end_) ∧
      r'.index = r.index ∧ r'.end_ = r.end_ := by
  induction drafts generalizing r with
  | nil =>
    cases h
    exact ⟨.refl _, LogReader.cuts_nil _ _, rfl, rfl⟩
  | cons d drafts ih =>
    obtain ⟨r₁, hrecord, h⟩ := Outcome.bind_eq_ok.mp h
    obtain ⟨hencodable, htype⟩ := hdrafts d (by simp)
    have hbytes : draftBytes seq (d :: drafts) =
        record d.type seq d.payload d.oid ++ draftBytes seq drafts := rfl
    have hlength := recordLength_eq d.payload.length
    rw [hbytes, List.length_append, length_record] at hfits
    have hlt : r.pos % span < span := Nat.mod_lt _ (by decide)
    have hzero : r.pos % span ≠ 0 := by
      unfold header at hin
      omega
    have hpos : r₁.pos = r.pos + recordLength d.payload.length := by
      rw [pos_replayRecord hrecord, Rec.length_encoded_of]
    have hmod : r₁.pos % span = r.pos % span + recordLength d.payload.length := by
      rw [hpos, Nat.add_mod, Nat.mod_eq_of_lt (by omega : recordLength d.payload.length < span),
        Nat.mod_eq_of_lt (by omega)]
    have hkeeps : r₁.index = r.index ∧ r₁.end_ = r.end_ := replayRecord_keeps htype hrecord
    obtain ⟨hfeeds, hcuts, hindex, hend⟩ := ih (r := r₁) (fun d' hd' => hdrafts d' (by simp [hd']))
      (by omega) (by omega) h
    rw [hkeeps.1, hkeeps.2] at hcuts
    have hfirst : (reader repository).Feeds r _ r₁ :=
      feeds_record hencodable hzero (by omega) hrecord
    rw [hbytes]
    exact ⟨hfirst.append hfeeds,
      (cuts_record hencodable hzero (by omega) ⟨rfl, rfl⟩).append hfirst hcuts,
      hindex.trans hkeeps.1, hend.trans hkeeps.2⟩

section Data

/-- Forget the previous transaction and expect records of the next one. -/
def Replay.begun (r : Replay) : Replay := { r.begin_ with phase := .objects }

theorem replayTransaction_data {c : Rec} (hphase : r.phase ≠ .prepared) (htype : c.type = 1) :
    replayTransaction r c = replayData r c :=
  if_pos ⟨hphase, htype⟩

theorem replayTransaction_prepare {c : Rec} (hphase : r.phase ≠ .prepared)
    (htype : c.type = 2 ∨ c.type = 7 ∨ c.type = 8) :
    replayTransaction r c = replayPrepare r c := by
  rw [replayTransaction, if_neg (by omega), if_pos ⟨hphase, htype⟩]

/-- A record of a transaction in progress. -/
theorem replayRecord_of_ne_idle {c : Rec} (hphase : r.phase ≠ .idle)
    (hseq : r.index.seq ≠ 2 ^ 64 - 1) (hc : c.seq = r.index.seq + 1)
    (h : replayTransaction r c = .ok r') (hbatch : r'.batch.length ≤ 2 * 1024 * 1024) :
    replayRecord r c = .ok { r' with pos := r'.pos + c.encoded.length } := by
  rw [replayRecord, if_neg fun h => hphase h.1, need_of ⟨hseq, hc⟩, Outcome.ok_bind,
    if_neg hphase, h, Outcome.ok_bind, need_of hbatch, Outcome.ok_bind]
  rfl

/-- The first record of a transaction begins it. -/
theorem replayRecord_begun {c : Rec} (hphase : r.phase = .idle) (htype : Uncommitted c.type) :
    replayRecord r c = replayRecord r.begun c := by
  have hidle : r.begin_.phase ≠ .prepared := by
    change r.phase ≠ .prepared
    rw [hphase]
    decide
  have hobjects : r.begun.phase ≠ .prepared := by
    change Phase.objects ≠ .prepared
    decide
  have hne : r.begun.phase ≠ .idle := by
    change Phase.objects ≠ .idle
    decide
  have htransaction : replayTransaction r.begin_ c = replayTransaction r.begun c := by
    rcases htype with hdata | hprepare
    · rw [replayTransaction_data hidle hdata, replayTransaction_data hobjects hdata]
      rfl
    · rw [replayTransaction_prepare hidle hprepare, replayTransaction_prepare hobjects hprepare]
      rfl
  have hfive : ¬ c.type = 5 := by
    unfold Uncommitted at htype
    omega
  unfold replayRecord
  rw [if_neg fun h => hfive h.2, if_pos hphase, htransaction]
  symm
  rw [if_neg fun h => hfive h.2, if_neg hne]
  rfl

/-- The values that a transaction may store. -/
structure Storable (values : List (Hash × Bytes)) : Prop where
  /-- Identities are distinct. -/
  nodup : (values.map Prod.fst).Nodup
  /-- Values are stored under their own identity. -/
  hash : ∀ e ∈ values, objectHash e.2 = e.1
  /-- Values are within the size limit. -/
  length_le : ∀ e ∈ values, e.2.length ≤ maxPayload
  /-- There are at most 64 of them. -/
  count_le : values.length ≤ 64

/-- The DATA records of values. -/
def dataDrafts (values : List (Hash × Bytes)) : List Draft :=
  values.map fun e => ⟨1, dataPayload e.2, e.1⟩

omit [Digest] in
theorem length_dataPayload (value : Bytes) : (dataPayload value).length = 4 + value.length := by
  simp only [dataPayload, List.length_append, length_store]
  omega

omit [Digest] in
theorem draftBytes_dataDrafts (values : List (Hash × Bytes)) :
    draftBytes seq (dataDrafts values) = dataRecords seq values := by
  rw [draftBytes, dataDrafts, List.flatMap_map, dataRecords]

omit [Digest] in
theorem map_locations (offset : ℕ) (values : List (Hash × Bytes)) :
    (locations offset values).map Prod.fst = values.map Prod.fst := by
  induction values generalizing offset with
  | nil => rfl
  | cons e values ih => rw [locations, List.map_cons, List.map_cons, ih]

theorem replayRecord_data {id : Hash} {value : Bytes} (hphase : r.phase = .objects)
    (hseq : r.index.seq ≠ 2 ^ 64 - 1) (hid : objectHash value = id)
    (hlength : value.length ≤ maxPayload) (hcount : r.pendingObjects.size < 64)
    (hnew : id ∉ r.pendingObjects)
    (hbatch : r.batch.length + recordLength (dataPayload value).length ≤ 2 * 1024 * 1024) :
    replayRecord r (Rec.of 1 (r.index.seq + 1) (dataPayload value) id r.at_) =
      .ok { r with
        pos := r.pos + recordLength (dataPayload value).length
        pendingObjects := r.pendingObjects.insert id ⟨r.at_, recordLength (dataPayload value).length⟩
        batch := r.batch ++ record 1 (r.index.seq + 1) (dataPayload value) id } := by
  have hpayload := length_dataPayload value
  have hfields : slice (dataPayload value) 0 2 = store 4 2 ∧
      slice (dataPayload value) 2 2 = store 0 2 ∧ (dataPayload value).drop 4 = value :=
    ⟨rfl, rfl, rfl⟩
  have hdata : replayData r (Rec.of 1 (r.index.seq + 1) (dataPayload value) id r.at_) =
      .ok { r with
        pendingObjects := r.pendingObjects.insert id ⟨r.at_, recordLength (dataPayload value).length⟩
        batch := r.batch ++ record 1 (r.index.seq + 1) (dataPayload value) id
        phase := .objects } := by
    simp only [replayData, need_bind_eq_ok, Outcome.pure_eq_ok]
    refine ⟨?_, ⟨congrArg load hfields.1, congrArg load hfields.2.1⟩, ?_, ⟨hcount, hnew⟩, ?_⟩
    · change 4 ≤ (dataPayload value).length ∧ (dataPayload value).length ≤ maxPayload + 4
      omega
    · exact (congrArg objectHash hfields.2.2).trans hid
    · rw [Rec.length_encoded_of]
      rfl
  have hprepared : r.phase ≠ .prepared := by
    rw [hphase]
    decide
  have hidle : r.phase ≠ .idle := by
    rw [hphase]
    decide
  rw [replayRecord_of_ne_idle hidle hseq rfl ((replayTransaction_data hprepared rfl).trans hdata)]
  · rw [Rec.length_encoded_of, ← hphase]
  · rwa [List.length_append, length_record]

/-- DATA records are held back in order. -/
theorem replayAll_data {values : List (Hash × Bytes)} (hphase : r.phase = .objects)
    (hseq : r.index.seq ≠ 2 ^ 64 - 1) (hvalues : Storable values)
    (hcount : r.pendingObjects.size + values.length ≤ 64)
    (hnew : ∀ e ∈ values, e.1 ∉ r.pendingObjects)
    (hbatch : r.batch.length + (dataRecords (r.index.seq + 1) values).length ≤ 2 * 1024 * 1024) :
    replayAll (r.index.seq + 1) (dataDrafts values) r =
      .ok { r with
        pos := r.pos + (dataRecords (r.index.seq + 1) values).length
        pendingObjects := r.pendingObjects.insertAll (locations r.at_ values)
        batch := r.batch ++ dataRecords (r.index.seq + 1) values } := by
  induction values generalizing r with
  | nil =>
    simp [dataDrafts, replayAll, dataRecords, locations, StdMap.insertAll]
  | cons e values ih =>
    have hrest : Storable values :=
      ⟨(List.nodup_cons.mp hvalues.nodup).2, fun e' he' => hvalues.hash e' (by simp [he']),
        fun e' he' => hvalues.length_le e' (by simp [he']),
        (Nat.le_succ _).trans hvalues.count_le⟩
    have hbytes : dataRecords (r.index.seq + 1) (e :: values) =
        record 1 (r.index.seq + 1) (dataPayload e.2) e.1 ++ dataRecords (r.index.seq + 1) values := rfl
    rw [hbytes, List.length_append, length_record] at hbatch ⊢
    rw [List.length_cons] at hcount
    change (replayRecord r (Rec.of 1 (r.index.seq + 1) (dataPayload e.2) e.1 r.at_) >>=
      replayAll (r.index.seq + 1) (dataDrafts values)) = _
    rw [replayRecord_data hphase hseq (hvalues.hash e (by simp)) (hvalues.length_le e (by simp))
      (by omega) (hnew e (by simp)) (by omega), Outcome.ok_bind]
    have hfresh : ∀ e' ∈ values, e'.1 ≠ e.1 := fun e' he' heq =>
      (List.nodup_cons.mp hvalues.nodup).1 (heq ▸ List.mem_map_of_mem he')
    refine (ih (r := { r with
      pos := r.pos + recordLength (dataPayload e.2).length
      pendingObjects := r.pendingObjects.insert e.1 ⟨r.at_, recordLength (dataPayload e.2).length⟩
      batch := r.batch ++ record 1 (r.index.seq + 1) (dataPayload e.2) e.1 }) hphase hseq hrest
      ?_ ?_ ?_).trans ?_
    · have hcontains : ¬ r.pendingObjects.contains e.1 = true := fun h =>
        hnew e (by simp) (Std.ExtTreeMap.mem_iff_contains.mpr h)
      rw [Std.ExtTreeMap.size_insert, if_neg hcontains]
      omega
    · intro e' he' hmem
      rw [Std.ExtTreeMap.mem_insert, compare_eq_iff_eq] at hmem
      rcases hmem with heq | hmem
      · exact hfresh e' he' heq.symm
      · exact hnew e' (by simp [he']) hmem
    · simp only [List.length_append, length_record]
      omega
    · simp only [Replay.at_, locations, Nat.add_assoc, List.append_assoc]
      rfl

end Data

section Commit

/-- The replay has consumed a complete transaction or checkpoint. -/
structure Rests (r : Replay) (index : Index) (end_ : ℕ) : Prop where
  /-- No transaction is in progress. -/
  phase : r.phase = .idle
  /-- The committed index. -/
  index_eq : r.index = index
  /-- The recorded end. -/
  end_eq : r.end_ = end_
  /-- The position is the end. -/
  at_eq : r.at_ = end_
  /-- Offsets are multiples of eight. -/
  aligned : 8 ∣ r.pos
  /-- The position is a segment boundary or after a segment header. -/
  inside : r.pos % span = 0 ∨ header ≤ r.pos % span

/-- What appended bytes do to a replay that has consumed everything before them. -/
def Replays (repository : Repository) (index : Index) (end_ : ℕ) (a : Append) : Prop :=
  ∀ r, Rests r index end_ → ∃ r', (reader repository).Feeds r a.bytes r' ∧
    Rests r' a.index a.end_ ∧
    (reader repository).Cuts r a.bytes fun s => s.index = index ∧ s.end_ = end_

omit [Digest] in
/-- A write that fits its segment ends at the segment's end or inside it. -/
theorem inside_add {pos n : ℕ} (hin : header ≤ pos % span) (hfits : n ≤ span - pos % span) :
    (pos + n) % span = 0 ∨ header ≤ (pos + n) % span := by
  unfold header span at *
  omega

omit [Digest] in
theorem dvd_length_dataRecords (seq : ℕ) (values : List (Hash × Bytes)) :
    8 ∣ (dataRecords seq values).length := by
  induction values with
  | nil => simp [dataRecords]
  | cons e values ih =>
    have hlength := recordLength_eq (dataPayload e.2).length
    have hbytes : dataRecords seq (e :: values) =
        record 1 seq (dataPayload e.2) e.1 ++ dataRecords seq values := rfl
    rw [hbytes, List.length_append, length_record]
    omega

theorem replayAll_append {drafts drafts' : List Draft} (h : replayAll seq drafts r = .ok r') :
    replayAll seq (drafts ++ drafts') r = replayAll seq drafts' r' := by
  induction drafts generalizing r with
  | nil =>
    cases h
    rfl
  | cons d drafts ih =>
    obtain ⟨r₁, hrecord, h⟩ := Outcome.bind_eq_ok.mp h
    change (replayRecord _ _ >>= replayAll seq (drafts ++ drafts')) = _
    rw [hrecord, Outcome.ok_bind, ih h]

theorem replayAll_begun {d : Draft} {drafts : List Draft} (hphase : r.phase = .idle)
    (htype : Uncommitted d.type) :
    replayAll seq (d :: drafts) r = replayAll seq (d :: drafts) r.begun := by
  change (replayRecord _ _ >>= _) = (replayRecord _ _ >>= _)
  rw [replayRecord_begun hphase htype]
  rfl

section Fields

variable (index : Index) (prepareAt prepareLength : ℕ) (prepare : Bytes) (start : ℕ) (batch : Bytes)

theorem length_commitPayload :
    (commitPayload index prepareAt prepareLength prepare start batch).length = 136 := by
  simp [commitPayload, index.lastHash.property, (digest prepare).property, (digest batch).property]

theorem slice_commitPayload :
    slice (commitPayload index prepareAt prepareLength prepare start batch) 0 8 =
        store (index.seq + 1) 8 ∧
      slice (commitPayload index prepareAt prepareLength prepare start batch) 8 32 =
        index.lastHash.val ∧
      slice (commitPayload index prepareAt prepareLength prepare start batch) 40 8 =
        store prepareAt 8 ∧
      slice (commitPayload index prepareAt prepareLength prepare start batch) 48 4 =
        store prepareLength 4 ∧
      slice (commitPayload index prepareAt prepareLength prepare start batch) 52 4 = store 0 4 ∧
      slice (commitPayload index prepareAt prepareLength prepare start batch) 56 32 =
        (digest prepare).val ∧
      slice (commitPayload index prepareAt prepareLength prepare start batch) 88 8 = store start 8 ∧
      slice (commitPayload index prepareAt prepareLength prepare start batch) 96 8 =
        store (start + batch.length) 8 ∧
      slice (commitPayload index prepareAt prepareLength prepare start batch) 104 32 =
        (digest batch).val := by
  refine ⟨slice_flatten (i := 0) rfl ?_ ?_, slice_flatten (i := 1) rfl ?_ ?_,
    slice_flatten (i := 2) rfl ?_ ?_, slice_flatten (i := 3) rfl ?_ ?_,
    slice_flatten (i := 4) rfl ?_ ?_, slice_flatten (i := 5) rfl ?_ ?_,
    slice_flatten (i := 6) rfl ?_ ?_, slice_flatten (i := 7) rfl ?_ ?_,
    slice_flatten (i := 8) rfl ?_ ?_⟩
  all_goals
    simp [index.lastHash.property, (digest prepare).property, (digest batch).property]

end Fields

/-- A COMMIT record publishes the prepared transaction. -/
theorem replayRecord_commit {index : Index} {type : ℕ} {prepare : Bytes} {prepareAt : ℕ}
    (hphase : r.phase = .prepared) (hindex : r.index = index) (hseq : index.seq < 2 ^ 64 - 1)
    (hprep : r.prep = Rec.of type (index.seq + 1) prepare Hash.zero prepareAt)
    (hprepareAt : r.prepareAt = prepareAt) (hat : r.at_ = r.start + r.batch.length)
    (hbatch : r.batch.length ≤ 2 * 1024 * 1024) (hbound : r.at_ < 256 ^ 8)
    (hprepare : prepareAt ≤ r.at_) (hlength : recordLength prepare.length < 256 ^ 4) :
    replayRecord r (Rec.of 3 (index.seq + 1) (commitPayload index prepareAt
        (recordLength prepare.length) prepare r.start r.batch) Hash.zero r.at_) =
      .ok { r with
        index := {
          seq := index.seq + 1
          lastHash := tagged "forkfs.commit.v0" (commitPayload index prepareAt
            (recordLength prepare.length) prepare r.start r.batch)
          roots := index.roots.override r.changes
          objects := index.objects.insertAll r.pendingObjects.toList }
        end_ := r.at_ + 216
        pos := r.pos + 216
        phase := .idle } := by
  obtain ⟨h0, h1, h2, h3, h4, h5, h6, h7, h8⟩ := slice_commitPayload index prepareAt
    (recordLength prepare.length) prepare r.start r.batch
  have hlen := length_commitPayload index prepareAt (recordLength prepare.length) prepare r.start
    r.batch
  generalize commitPayload index prepareAt (recordLength prepare.length) prepare r.start r.batch =
    payload at h0 h1 h2 h3 h4 h5 h6 h7 h8 hlen ⊢
  have hencoded : (Rec.of 3 (index.seq + 1) payload Hash.zero r.at_).encoded.length = 216 := by
    rw [Rec.length_encoded_of, hlen]
    rfl
  have hcommit : replayCommit r (Rec.of 3 (index.seq + 1) payload Hash.zero r.at_) =
      .ok { r with
        index := {
          seq := index.seq + 1
          lastHash := tagged "forkfs.commit.v0" payload
          roots := index.roots.override r.changes
          objects := index.objects.insertAll r.pendingObjects.toList }
        end_ := r.at_ + 216
        phase := .idle } := by
    simp only [replayCommit, need_bind_eq_ok, Outcome.pure_eq_ok]
    refine ⟨⟨hphase, rfl, rfl, hlen⟩, ⟨?_, ?_⟩, ⟨?_, ?_, congrArg load h4⟩, ⟨?_, ?_, ?_, ?_⟩, ?_⟩
    · exact (congrArg load h0).trans (load_store_of_lt (by omega))
    · rw [hindex]
      exact h1
    · rw [hprepareAt]
      exact (congrArg load h2).trans (load_store_of_lt (by omega))
    · rw [hprep, Rec.length_encoded_of]
      exact (congrArg load h3).trans (load_store_of_lt hlength)
    · rw [hprep]
      exact h5
    · exact (congrArg load h6).trans (load_store_of_lt (by omega))
    · rw [hat] at hbound ⊢
      exact (congrArg load h7).trans (load_store_of_lt hbound)
    · exact h8
    · rw [hencoded, hindex]
      rfl
  have hidle : r.phase ≠ .idle := by
    rw [hphase]
    decide
  have htransaction : replayTransaction r (Rec.of 3 (index.seq + 1) payload Hash.zero r.at_) =
      replayCommit r (Rec.of 3 (index.seq + 1) payload Hash.zero r.at_) := by
    rw [replayTransaction, if_neg fun h => h.1 hphase, if_neg fun h => h.1 hphase]
  rw [replayRecord_of_ne_idle hidle (by rw [hindex]; omega) (by rw [hindex]; rfl)
    (htransaction.trans hcommit) hbatch, hencoded]

/-- A prepare record is held back. -/
theorem replayRecord_prepare {type : ℕ} {prepare : Bytes} {changes : StdMap Bytes (Option Hash)}
    (hphase : r.phase = .objects) (hseq : r.index.seq ≠ 2 ^ 64 - 1)
    (htype : type = 2 ∨ type = 7 ∨ type = 8) (hlength : 36 ≤ prepare.length)
    (hprevious : slice prepare 0 32 = r.index.lastHash.val)
    (hchanges : prepareChanges r (Rec.of type (r.index.seq + 1) prepare Hash.zero r.at_) =
      .ok changes)
    (hbatch : r.batch.length + recordLength prepare.length ≤ 2 * 1024 * 1024) :
    replayRecord r (Rec.of type (r.index.seq + 1) prepare Hash.zero r.at_) =
      .ok { r with
        pos := r.pos + recordLength prepare.length
        changes := changes
        prepareAt := r.at_
        prep := Rec.of type (r.index.seq + 1) prepare Hash.zero r.at_
        batch := r.batch ++ record type (r.index.seq + 1) prepare Hash.zero
        phase := .prepared } := by
  have hprepared : r.phase ≠ .prepared := by
    rw [hphase]
    decide
  have hidle : r.phase ≠ .idle := by
    rw [hphase]
    decide
  have hprepare : replayPrepare r (Rec.of type (r.index.seq + 1) prepare Hash.zero r.at_) =
      .ok { r with
        changes := changes
        prepareAt := r.at_
        prep := Rec.of type (r.index.seq + 1) prepare Hash.zero r.at_
        batch := r.batch ++ record type (r.index.seq + 1) prepare Hash.zero
        phase := .prepared } := by
    simp only [replayPrepare, need_bind_eq_ok]
    refine ⟨⟨rfl, hlength⟩, hprevious, ?_⟩
    rw [hchanges, Outcome.ok_bind]
    rfl
  rw [replayRecord_of_ne_idle hidle hseq rfl ((replayTransaction_prepare hprepared htype).trans
    hprepare)]
  · rw [Rec.length_encoded_of]
  · rwa [List.length_append, length_record]

/-- What a transaction writes before its COMMIT record, and what the reader requires of it. -/
structure Acceptable (index : Index) (values : List (Hash × Bytes)) (type : ℕ) (prepare : Bytes)
    (changes : StdMap Bytes (Option Hash)) : Prop where
  /-- Another commit is possible. -/
  seq_lt : index.seq < 2 ^ 64 - 1
  /-- The values are in range. -/
  storable : Storable values
  /-- The prepare record has one of three formats. -/
  type_eq : type = 2 ∨ type = 7 ∨ type = 8
  /-- The prepare payload has a fixed part. -/
  length_le : 36 ≤ prepare.length
  /-- It names the previous commit. -/
  previous : slice prepare 0 32 = index.lastHash.val
  /-- The batch is within the size limit. -/
  batch_le : (dataRecords (index.seq + 1) values).length + recordLength prepare.length ≤
    2 * 1024 * 1024
  /-- The record limit holds for the prepare record. -/
  prepare_le : prepare.length ≤ 1024 * 1024 - 87
  /-- Changed roots have a name in range and bind a new or a stored object. -/
  described : ∀ (k : Bytes) o, changes[k]? = some o → (k ≠ [] ∧ k.length ≤ 1024) ∧
    ∀ id ∈ o, id ∈ values.map Prod.fst ∨ id ∈ index.objects
  /-- The prepare payload describes the changes. -/
  changes_eq : ∀ (r : Replay) (start : ℕ), r.index = index →
    r.pendingObjects = StdMap.insertAll ∅ (locations start values) → r.changes = ∅ →
    prepareChanges r (Rec.of type (index.seq + 1) prepare Hash.zero r.at_) = .ok changes

variable {index : Index} {values : List (Hash × Bytes)} {type : ℕ} {prepare : Bytes}
  {changes : StdMap Bytes (Option Hash)}

/-- The records before the COMMIT record. -/
def batchDrafts (values : List (Hash × Bytes)) (type : ℕ) (prepare : Bytes) : List Draft :=
  dataDrafts values ++ [⟨type, prepare, Hash.zero⟩]

omit [Digest] in
theorem draftBytes_batchDrafts (seq : ℕ) :
    draftBytes seq (batchDrafts values type prepare) =
      dataRecords seq values ++ record type seq prepare Hash.zero := by
  rw [batchDrafts, draftBytes, List.flatMap_append, ← draftBytes, draftBytes_dataDrafts]
  simp

/-- The state after the DATA records of a transaction. -/
def Replay.withData (r : Replay) (values : List (Hash × Bytes)) : Replay :=
  { r with
    pos := r.pos + (dataRecords (r.index.seq + 1) values).length
    phase := .objects
    start := r.at_
    pendingObjects := StdMap.insertAll ∅ (locations r.at_ values)
    changes := ∅
    batch := dataRecords (r.index.seq + 1) values }

/-- The state after the records before the COMMIT record. -/
def Replay.withBatch (r : Replay) (values : List (Hash × Bytes)) (type : ℕ) (prepare : Bytes)
    (changes : StdMap Bytes (Option Hash)) : Replay :=
  { r.withData values with
    pos := (r.withData values).pos + recordLength prepare.length
    phase := .prepared
    changes := changes
    prepareAt := (r.withData values).at_
    prep := Rec.of type (r.index.seq + 1) prepare Hash.zero (r.withData values).at_
    batch := dataRecords (r.index.seq + 1) values ++
      record type (r.index.seq + 1) prepare Hash.zero }

/-- The records before the COMMIT record are held back. -/
theorem replayAll_batchDrafts (h : Acceptable r.index values type prepare changes)
    (hphase : r.phase = .idle) :
    replayAll (r.index.seq + 1) (batchDrafts values type prepare) r =
      .ok (r.withBatch values type prepare changes) := by
  have hbegun : replayAll (r.index.seq + 1) (batchDrafts values type prepare) r =
      replayAll (r.index.seq + 1) (batchDrafts values type prepare) r.begun := by
    cases values with
    | nil => exact replayAll_begun hphase (Or.inr h.type_eq)
    | cons e values => exact replayAll_begun hphase (Or.inl rfl)
  have hseq : r.index.seq ≠ 2 ^ 64 - 1 := by
    have := h.seq_lt
    omega
  have hbatch := h.batch_le
  have hdata : replayAll (r.index.seq + 1) (dataDrafts values) r.begun = .ok (r.withData values) := by
    apply replayAll_data (r := r.begun) rfl hseq h.storable
    · simpa [Replay.begun, Replay.begin_] using h.storable.count_le
    · simp [Replay.begun, Replay.begin_]
    · change 0 + _ ≤ _
      change _ + _ ≤ _ at hbatch
      simp only [Replay.begun, Replay.begin_]
      omega
  have hprepare : replayRecord (r.withData values)
      (Rec.of type (r.index.seq + 1) prepare Hash.zero (r.withData values).at_) =
      .ok (r.withBatch values type prepare changes) :=
    replayRecord_prepare (r := r.withData values) rfl hseq h.type_eq h.length_le h.previous
      (h.changes_eq _ r.at_ rfl rfl rfl) hbatch
  rw [hbegun, batchDrafts, replayAll_append hdata]
  change (replayRecord _ _ >>= replayAll _ []) = _
  rw [hprepare]
  rfl

/-- The records before the COMMIT record are in range. -/
theorem encodable_batchDrafts (h : Acceptable index values type prepare changes) :
    ∀ d ∈ batchDrafts values type prepare,
      Encodable d.type (index.seq + 1) d.payload ∧ Uncommitted d.type := by
  have hseq : index.seq + 1 < 256 ^ 8 := by
    have := h.seq_lt
    omega
  intro d hd
  rcases List.mem_append.mp hd with hd | hd
  · obtain ⟨e, he, rfl⟩ := List.mem_map.mp hd
    have hlength := h.storable.length_le e he
    refine ⟨⟨?_, hseq, ?_⟩, Or.inl rfl⟩
    · change 1 < 256 ^ 2
      decide
    · change (dataPayload e.2).length ≤ _
      rw [length_dataPayload]
      unfold maxPayload at hlength
      omega
  · rw [List.mem_singleton] at hd
    subst hd
    have htype := h.type_eq
    refine ⟨⟨?_, hseq, h.prepare_le⟩, Or.inr htype⟩
    change type < 256 ^ 2
    omega

/-- What a transaction does to a replay that has reached its first record. -/
theorem feeds_transaction (repository : Repository)
    (h : Acceptable r.index values type prepare changes)
    (hphase : r.phase = .idle) (halign : 8 ∣ r.pos) (hin : header ≤ r.pos % span)
    (hfits : (dataRecords (r.index.seq + 1) values ++
      record type (r.index.seq + 1) prepare Hash.zero).length + 216 ≤ span - r.pos % span)
    (hbound : r.at_ < 2 ^ 63) {commit : Bytes}
    (hcommit : commit = commitPayload r.index (r.at_ + (dataRecords (r.index.seq + 1) values).length)
      (recordLength prepare.length) prepare r.at_ (dataRecords (r.index.seq + 1) values ++
        record type (r.index.seq + 1) prepare Hash.zero)) :
    ∃ r', (reader repository).Feeds r (dataRecords (r.index.seq + 1) values ++
        record type (r.index.seq + 1) prepare Hash.zero ++
        record 3 (r.index.seq + 1) commit Hash.zero) r' ∧
      Rests r' ⟨r.index.seq + 1, tagged "forkfs.commit.v0" commit, r.index.roots.override changes,
          r.index.objects.insertAll (locations r.at_ values)⟩
        (r.at_ + (dataRecords (r.index.seq + 1) values ++
          record type (r.index.seq + 1) prepare Hash.zero).length + 216) ∧
      (reader repository).Cuts r (dataRecords (r.index.seq + 1) values ++
        record type (r.index.seq + 1) prepare Hash.zero ++
        record 3 (r.index.seq + 1) commit Hash.zero)
        (fun s => s.index = r.index ∧ s.end_ = r.end_) := by
  have hseq := h.seq_lt
  have hbatch := h.batch_le
  have hprepare := recordLength_eq prepare.length
  have hdvd := dvd_length_dataRecords (r.index.seq + 1) values
  have hlength : (dataRecords (r.index.seq + 1) values ++
      record type (r.index.seq + 1) prepare Hash.zero).length =
      (dataRecords (r.index.seq + 1) values).length + recordLength prepare.length := by
    rw [List.length_append, length_record]
  have hsize : recordLength commit.length = 216 := by
    rw [hcommit, length_commitPayload]
    rfl
  have hpos : (r.withBatch values type prepare changes).pos =
      r.pos + (dataRecords (r.index.seq + 1) values ++
        record type (r.index.seq + 1) prepare Hash.zero).length := by
    rw [hlength, ← Nat.add_assoc]
    rfl
  rw [← draftBytes_batchDrafts] at hfits hpos hlength hcommit ⊢
  generalize hbytes : draftBytes (r.index.seq + 1) (batchDrafts values type prepare) = batch at *
  obtain ⟨hfeeds, hcuts, hindex, hend⟩ := feeds_drafts repository 216
    (by decide) (encodable_batchDrafts h) hin (by rwa [hbytes]) (replayAll_batchDrafts h hphase)
  rw [hbytes] at hfeeds hcuts
  have hbatch₂ : (r.withBatch values type prepare changes).batch = batch :=
    (draftBytes_batchDrafts _).symm.trans hbytes
  have hat : (r.withBatch values type prepare changes).at_ = r.at_ + batch.length := by
    rw [Replay.at_, hpos, Replay.at_, Nat.add_assoc]
  have hprepareAt : (r.withData values).at_ =
      r.at_ + (dataRecords (r.index.seq + 1) values).length :=
    (Nat.add_assoc base r.pos _).symm
  have hrecord : replayRecord (r.withBatch values type prepare changes)
      (Rec.of 3 (r.index.seq + 1) commit Hash.zero (r.withBatch values type prepare changes).at_) =
      .ok { r.withBatch values type prepare changes with
        index := ⟨r.index.seq + 1, tagged "forkfs.commit.v0" commit, r.index.roots.override changes,
          r.index.objects.insertAll (locations r.at_ values)⟩
        end_ := r.at_ + batch.length + 216
        pos := r.pos + batch.length + 216
        phase := .idle } := by
    have hnodup : ((locations r.at_ values).map Prod.fst).Nodup := by
      rw [map_locations]
      exact h.storable.nodup
    rw [← StdMap.insertAll_toList hnodup, ← hat, ← hpos, hcommit, ← hprepareAt, ← hbatch₂]
    exact replayRecord_commit (r := r.withBatch values type prepare changes) rfl rfl hseq rfl rfl
      (by rw [hat, hbatch₂]; rfl) (by rw [hbatch₂]; omega) (by omega) (by omega) (by omega)
  have hencodable : Encodable 3 (r.index.seq + 1) commit :=
    ⟨by decide, by omega, by rw [hcommit, length_commitPayload]; decide⟩
  have hlt : r.pos % span < span := Nat.mod_lt _ (by decide)
  have hmod : (r.withBatch values type prepare changes).pos % span = r.pos % span + batch.length := by
    rw [hpos, Nat.add_mod, Nat.mod_eq_of_lt (by omega : batch.length < span),
      Nat.mod_eq_of_lt (by omega)]
  have hzero : (r.withBatch values type prepare changes).pos % span ≠ 0 := by
    unfold header at hin
    omega
  refine ⟨_, hfeeds.append (feeds_record hencodable hzero (by omega) hrecord), ⟨rfl, rfl, rfl, ?_, ?_, ?_⟩,
    hcuts.append hfeeds (cuts_record hencodable hzero (by omega) ⟨hindex, hend⟩)⟩
  · change base + (r.pos + batch.length + 216) = r.at_ + batch.length + 216
    rw [Replay.at_]
    omega
  · change 8 ∣ r.pos + batch.length + 216
    omega
  · change (r.pos + batch.length + 216) % span = 0 ∨ header ≤ (r.pos + batch.length + 216) % span
    rw [Nat.add_assoc]
    exact inside_add hin hfits

/-- A transaction that the reader accepts replays to the index that was written. -/
theorem replays_commitBatch {j : Journal} {a : Append}
    (h : commitBatch repository j values type prepare changes = .ok a)
    (hacceptable : Acceptable j.index values type prepare changes) :
    Replays repository j.index j.end_ a := by
  intro r hr
  obtain ⟨log, index, end_, tail⟩ := j
  obtain ⟨⟨lead, start⟩, hplace, h⟩ := Outcome.bind_eq_ok.mp h
  cases h
  obtain ⟨hphase, rfl, rfl, hat, halign, hinside⟩ := hr
  have hbatch := hacceptable.batch_le
  obtain ⟨hplaced, hlead, hleadcuts⟩ :=
    feeds_place (p := fun s => s.index = r.index ∧ s.end_ = r.end_) hplace hphase hat halign hinside
      (by rw [List.length_append, length_record]; unfold span header; omega) fun _ => ⟨rfl, rfl⟩
  have hstart : base + (start - base) = start := by
    rw [hplaced.start_eq, ← hat, Replay.at_]
    omega
  obtain ⟨r', hfeeds, hrests, hcuts⟩ := feeds_transaction repository
    (r := { r with pos := start - base }) hacceptable hphase hplaced.aligned hplaced.inside
    hplaced.fits (by rw [Replay.at_, hstart]; exact hplaced.bounded) rfl
  simp only [Replay.at_, hstart] at hfeeds hrests hcuts
  refine ⟨r', hlead.append hfeeds, ?_, hleadcuts.append hlead hcuts⟩
  change Rests r' _ (_ + _ + recordLength _)
  rw [length_commitPayload]
  exact hrests

end Commit

end ForkFs.Journal
