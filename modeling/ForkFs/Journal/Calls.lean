import ForkFs.Journal.Transaction

/-!
# The calls write what the reader accepts

The three prepare formats parse back to the changes they describe, so the transactions of `put`
and `transact` are accepted. A checkpoint record moves the end of the log and nothing else.
-/

namespace ForkFs.Journal

open Bytes Replay

variable [Digest]

section Pending

variable {values : List (Hash × Bytes)}

omit [Digest] in
theorem nodup_locations (start : ℕ) (hnodup : (values.map Prod.fst).Nodup) :
    ((locations start values).map Prod.fst).Nodup := by
  rwa [map_locations]

omit [Digest] in
theorem size_pending (start : ℕ) (hnodup : (values.map Prod.fst).Nodup) :
    (StdMap.insertAll ∅ (locations start values)).size = values.length := by
  have hlength := congrArg List.length (map_locations start values)
  rw [List.length_map, List.length_map] at hlength
  rw [StdMap.size_insertAll (nodup_locations start hnodup) (by simp), hlength]
  exact Nat.zero_add _

omit [Digest] in
/-- The objects of the DATA records are those of the values. -/
theorem mem_pending (start : ℕ) {id : Hash} :
    id ∈ StdMap.insertAll ∅ (locations start values) ↔ id ∈ values.map Prod.fst := by
  rw [StdMap.mem_insertAll, map_locations]
  simp

end Pending

section Put

variable {index : Index} {key value : Bytes} {oid : Hash}

omit [Digest] in
theorem slice_putPayload (index : Index) (key : Bytes) (oid : Hash) :
    slice (putPayload index key oid) 0 32 = index.lastHash.val ∧
      slice (putPayload index key oid) 32 4 = store key.length 4 ∧
      slice (putPayload index key oid) 36 key.length = key ∧
      slice (putPayload index key oid) (36 + key.length) 32 = oid.val ∧
      (putPayload index key oid).length = 68 + key.length := by
  refine ⟨slice_flatten (i := 0) rfl ?_ ?_, slice_flatten (i := 1) rfl ?_ ?_,
    slice_flatten (i := 2) rfl ?_ ?_, slice_flatten (i := 3) rfl ?_ ?_, ?_⟩
  all_goals simp [putPayload, index.lastHash.property, oid.property]
  all_goals omega

/-- The transaction of `put` is accepted. -/
theorem acceptable_put (hseq : index.seq < 2 ^ 64 - 1) (hkey : key ≠ [] ∧ key.length ≤ 1024)
    (hvalue : value.length ≤ maxPayload) :
    Acceptable index [(objectHash value, value)] 2 (putPayload index key (objectHash value))
      ((∅ : StdMap Bytes (Option Hash)).insert key (some (objectHash value))) := by
  obtain ⟨hprevious, hlength, hname, hoid, hsize⟩ := slice_putPayload index key (objectHash value)
  have hpos := List.length_pos_of_ne_nil hkey.1
  have hdata := recordLength_eq (dataPayload value).length
  have hprepare := recordLength_eq (putPayload index key (objectHash value)).length
  rw [length_dataPayload] at hdata
  unfold maxPayload at hvalue
  refine ⟨hseq, ⟨by simp, by simp, by simpa [maxPayload] using hvalue, by simp⟩, Or.inl rfl,
    by omega, hprevious, ?_, by omega, ?_, ?_⟩
  · simp only [dataRecords, List.flatMap_cons, List.flatMap_nil, List.append_nil, length_record,
      length_dataPayload]
    omega
  · intro k o ho
    rw [StdMap.getElem?_insert] at ho
    split at ho
    · rename_i heq
      cases ho
      exact ⟨heq ▸ hkey, by simp⟩
    · simp at ho
  · intro r start hindex hpending hchanges
    have hn : load (slice (putPayload index key (objectHash value)) 32 4) = key.length := by
      rw [hlength, load_store_of_lt (by omega)]
    change legacyChanges r _ = _
    simp only [legacyChanges, need_bind_eq_ok, Outcome.pure_eq_ok, Rec.of, hn, hoid, hname,
      Hash.ofBytes_val, hpending, hchanges]
    refine ⟨⟨hpos, hkey.2, hsize, size_pending start (by simp)⟩,
      (mem_pending start).mpr (by simp), ?_⟩
    apply StdMap.ext
    intro k
    simp [StdMap.getElem?_insertIfNew, StdMap.getElem?_insert]

end Put

section Entries

variable {index : Index} {pending : StdMap Hash Location} {type : ℕ}

/-- What the reader requires of one change. -/
structure Admissible (index : Index) (pending : StdMap Hash Location) (type : ℕ)
    (e : Bytes × Option Hash) : Prop where
  /-- The key is in range. -/
  key : e.1 ≠ [] ∧ e.1.length ≤ 1024
  /-- A bound object is new or, in the format that allows it, already stored. -/
  bound : ∀ id ∈ e.2, id ∈ pending ∨ type = 8 ∧ id ∈ index.objects
  /-- A deleted root exists. -/
  deleted : e.2 = none → e.1 ∈ index.roots

omit [Digest] in
theorem slice_entryBytes (e : Bytes × Option Hash) :
    slice (entryBytes e) 0 4 = store (if e.2.isSome then 1 else 2) 4 ∧
      slice (entryBytes e) 4 4 = store e.1.length 4 ∧
      slice (entryBytes e) 8 e.1.length = e.1 ∧
      slice (entryBytes e) (8 + e.1.length) 32 = (e.2.getD Hash.zero).val ∧
      (entryBytes e).length = 40 + e.1.length := by
  refine ⟨slice_flatten (i := 0) rfl ?_ ?_, slice_flatten (i := 1) rfl ?_ ?_,
    slice_flatten (i := 2) rfl ?_ ?_, slice_flatten (i := 3) rfl ?_ ?_, ?_⟩
  all_goals simp [entryBytes, (e.2.getD Hash.zero).property]
  all_goals omega

omit [Digest] in
/-- One entry parses back. -/
theorem parseEntry_entryBytes {c : Rec} {p : Parsed} {e : Bytes × Option Hash} {pre rest : Bytes}
    (hc : c.payload = pre ++ entryBytes e ++ rest) (hcursor : p.cursor = pre.length)
    (he : Admissible index pending c.type e) (hprevious : ∀ previous ∈ p.previous, previous < e.1) :
    ∃ referenced, parseEntry index pending c p =
        .ok ⟨(pre ++ entryBytes e).length, some e.1, p.changes.insertIfNew e.1 e.2, referenced⟩ ∧
      ∀ id, id ∈ referenced ↔ id ∈ p.referenced ∨ id ∈ pending ∧ e.2 = some id := by
  obtain ⟨hop, hn, hkey, hid, hlength⟩ := slice_entryBytes e
  have hpos := List.length_pos_of_ne_nil he.key.1
  have hlen := he.key.2
  have hfield : ∀ i k, i + k ≤ (entryBytes e).length →
      slice c.payload (p.cursor + i) k = slice (entryBytes e) i k := by
    intro i k hik
    rw [hc, slice_piece hcursor hik]
  have hsize : c.payload.length = p.cursor + (40 + e.1.length) + rest.length := by
    rw [hc, hcursor, List.length_append, List.length_append, hlength]
  have hop' : load (slice c.payload p.cursor 4) = if e.2.isSome then 1 else 2 := by
    rw [← Nat.add_zero p.cursor, hfield 0 4 (by omega), hop, load_store_of_lt (by split <;> decide)]
  have hn' : load (slice c.payload (p.cursor + 4) 4) = e.1.length := by
    rw [hfield 4 4 (by omega), hn, load_store_of_lt (by omega)]
  have hkey' : slice c.payload (p.cursor + 8) e.1.length = e.1 := by
    rw [hfield 8 _ (by omega), hkey]
  have hid' : Hash.ofBytes (slice c.payload (p.cursor + 8 + e.1.length) 32) = e.2.getD Hash.zero := by
    rw [Nat.add_assoc, hfield _ 32 (by omega), hid, Hash.ofBytes_val]
  have hnext : (pre ++ entryBytes e).length = p.cursor + 8 + e.1.length + 32 := by
    rw [List.length_append, hlength, hcursor]
    omega
  rw [parseEntry, need_of (by omega), Outcome.ok_bind]
  simp only [hop', hn', hkey', hid', hnext]
  cases hvalue : e.2 with
  | some id =>
    simp only [Option.isSome_some, if_true, Option.getD_some, need_bind_eq_ok, Outcome.pure_eq_ok]
    refine ⟨if id ∈ pending then insert id p.referenced else p.referenced, ⟨⟨Or.inl trivial, hpos, hlen,
      by omega⟩, hprevious, he.bound id hvalue, rfl⟩, fun x => ?_⟩
    split
    · rename_i hmem
      rw [Finset.mem_insert, Option.some.injEq, or_comm]
      constructor
      · rintro (h | rfl)
        · exact Or.inl h
        · exact Or.inr ⟨hmem, rfl⟩
      · rintro (h | ⟨-, rfl⟩)
        · exact Or.inl h
        · exact Or.inr rfl
    · rename_i hmem
      refine ⟨Or.inl, ?_⟩
      rintro (h | ⟨h, hx⟩)
      · exact h
      · cases hx
        exact absurd h hmem
  | none =>
    simp only [Option.isSome_none, Option.getD_none, need_bind_eq_ok]
    exact ⟨p.referenced, ⟨⟨Or.inr rfl, hpos, hlen, by omega⟩, hprevious, by
      rw [if_neg (by decide), need_of ⟨trivial, he.deleted hvalue⟩]; rfl⟩, by simp⟩

omit [Digest] in
/-- Sorted entries parse back, and the objects they reference are counted. -/
theorem parseEntries_flatMap {c : Rec} {p : Parsed} {entries : List (Bytes × Option Hash)}
    {pre : Bytes} (hc : c.payload = pre ++ entries.flatMap entryBytes)
    (hcursor : p.cursor = pre.length) (hentries : ∀ e ∈ entries, Admissible index pending c.type e)
    (hsorted : entries.Pairwise fun a b => a.1 < b.1)
    (hprevious : ∀ e ∈ entries, ∀ previous ∈ p.previous, previous < e.1) :
    ∃ p', parseEntries index pending c entries.length p = .ok p' ∧
      p'.cursor = c.payload.length ∧ p'.changes = p.changes.emplaceAll entries ∧
      ∀ id, id ∈ p'.referenced ↔
        id ∈ p.referenced ∨ id ∈ pending ∧ ∃ e ∈ entries, e.2 = some id := by
  induction entries generalizing p pre with
  | nil => exact ⟨p, rfl, by simp [hc, hcursor], rfl, by simp⟩
  | cons e entries ih =>
    obtain ⟨hlt, hsorted⟩ := List.pairwise_cons.mp hsorted
    have hsplit : c.payload = pre ++ entryBytes e ++ entries.flatMap entryBytes := by
      rw [hc, List.flatMap_cons, List.append_assoc]
    obtain ⟨referenced, hparse, hreferenced⟩ := parseEntry_entryBytes hsplit hcursor
      (hentries e (by simp)) (hprevious e (by simp))
    obtain ⟨p', hparses, hend, hchanges, hmem⟩ := ih
      (p := ⟨(pre ++ entryBytes e).length, some e.1, p.changes.insertIfNew e.1 e.2, referenced⟩)
      hsplit rfl
      (fun e' he' => hentries e' (by simp [he'])) hsorted
      (fun e' he' previous hp => by cases hp; exact hlt e' he')
    refine ⟨p', ?_, hend, hchanges, fun id => ?_⟩
    · rw [List.length_cons, parseEntries, hparse, Outcome.ok_bind]
      exact hparses
    · rw [hmem, hreferenced]
      simp only [List.mem_cons, exists_eq_or_imp]
      constructor
      · rintro ((h | ⟨h, heq⟩) | ⟨h, hex⟩)
        · exact Or.inl h
        · exact Or.inr ⟨h, Or.inl heq⟩
        · exact Or.inr ⟨h, Or.inr hex⟩
      · rintro (h | ⟨h, heq | hex⟩)
        · exact Or.inl (Or.inl h)
        · exact Or.inl (Or.inr ⟨h, heq⟩)
        · exact Or.inr ⟨h, hex⟩

end Entries

section Transact

/-- The mutations that were checked so far. -/
structure Checked (j : Journal) (g : Gathered) (n : ℕ) : Prop where
  /-- Every mutation has its own key. -/
  size : g.changes.size = n
  /-- Every change is one that the reader accepts. -/
  admissible : ∀ k o, g.changes[k]? = some o →
    (k ≠ [] ∧ k.length ≤ 1024) ∧
    (∀ id ∈ o, id ∈ g.values ∨ g.references = true ∧ id ∈ j.index.objects) ∧
    (o = none → k ∈ j.index.roots)
  /-- Values are stored under their own identity and in range. -/
  values : ∀ id value, g.values[id]? = some value → objectHash value = id ∧ value.length ≤ maxPayload
  /-- Every new value is bound to a root. -/
  bound : ∀ id ∈ g.values, ∃ k : Bytes, g.changes[k]? = some (some id)
  /-- There are no more values than mutations. -/
  count : g.values.size ≤ n

variable {j : Journal} {g g' : Gathered} {n : ℕ}

theorem checked_empty (j : Journal) : Checked j ⟨∅, ∅, 0, false⟩ 0 :=
  ⟨rfl, by simp, by simp, by simp, by simp⟩

/-- A checked mutation adds one change and at most one value, which the change binds. -/
theorem gatherOne_eq_ok {m : Mutation} (h : gatherOne j g m = .ok g') :
    ∃ o, (m.key ≠ [] ∧ m.key.length ≤ 1024) ∧ m.key ∉ g.changes ∧
      g'.changes = g.changes.insert m.key o ∧
      (∀ id value, g'.values[id]? = some value → g.values[id]? = some value ∨
        o = some id ∧ objectHash value = id ∧ value.length ≤ maxPayload) ∧
      (∀ id ∈ g.values, id ∈ g'.values) ∧ g'.values.size ≤ g.values.size + 1 ∧
      (g.references = true → g'.references = true) ∧
      (∀ id ∈ o, id ∈ g'.values ∨ g'.references = true ∧ id ∈ j.index.objects) ∧
      (o = none → m.key ∈ j.index.roots) := by
  obtain ⟨hkey, h⟩ := need_bind_eq_ok.mp h
  obtain ⟨hnew, h⟩ := need_bind_eq_ok.mp h
  obtain ⟨-, h⟩ := need_bind_eq_ok.mp h
  split at h
  · obtain ⟨hid, h⟩ := need_bind_eq_ok.mp h
    obtain ⟨_, -, h⟩ := Outcome.bind_eq_ok.mp h
    cases h
    refine ⟨_, hkey, hnew, rfl, fun _ _ => Or.inl, fun _ h => h, Nat.le_succ _, fun _ => rfl, ?_,
      by simp⟩
    rintro _ ⟨⟩
    exact Or.inr ⟨rfl, hid⟩
  · rename_i value _ _
    obtain ⟨hvalue, h⟩ := need_bind_eq_ok.mp h
    obtain ⟨-, h⟩ := need_bind_eq_ok.mp h
    cases h
    refine ⟨_, hkey, hnew, rfl, fun id v hv => ?_, fun id hid => ?_, ?_, fun h => h, ?_, by simp⟩
    · rw [StdMap.getElem?_insertIfNew] at hv
      split at hv
      · rename_i heq
        cases hv
        exact Or.inr ⟨congrArg some heq.1.symm, heq.1.symm, hvalue⟩
      · exact Or.inl hv
    · exact Std.ExtTreeMap.mem_insertIfNew.mpr (Or.inr hid)
    · exact Std.ExtTreeMap.size_insertIfNew_le
    · rintro _ ⟨⟩
      exact Or.inl Std.ExtTreeMap.mem_insertIfNew_self
  · obtain ⟨hroot, h⟩ := need_bind_eq_ok.mp h
    cases h
    exact ⟨none, hkey, hnew, rfl, fun _ _ => Or.inl, fun _ h => h, Nat.le_succ _, fun h => h,
      by simp, fun _ => hroot⟩

theorem checked_gatherOne {m : Mutation} (hg : Checked j g n) (h : gatherOne j g m = .ok g') :
    Checked j g' (n + 1) := by
  obtain ⟨o, hkey, hnew, hchanges, hvalues, hmono, hcount, hreferences, hbound, hdeleted⟩ :=
    gatherOne_eq_ok h
  have hself : g'.changes[m.key]? = some o := by
    rw [hchanges, StdMap.getElem?_insert, if_pos rfl]
  have hother : ∀ k : Bytes, k ≠ m.key → g'.changes[k]? = g.changes[k]? := by
    intro k hk
    rw [hchanges, StdMap.getElem?_insert, if_neg hk]
  have hne : ∀ (k : Bytes) o', g.changes[k]? = some o' → k ≠ m.key := by
    rintro k o' hk rfl
    exact hnew (Std.ExtTreeMap.mem_iff_isSome_getElem?.mpr (by rw [hk]; rfl))
  constructor
  · have hcontains : ¬ g.changes.contains m.key = true := fun h =>
      hnew (Std.ExtTreeMap.mem_iff_contains.mpr h)
    rw [hchanges, Std.ExtTreeMap.size_insert, if_neg hcontains, hg.size]
  · intro k o' hk
    by_cases heq : k = m.key
    · subst heq
      rw [hself, Option.some.injEq] at hk
      subst hk
      exact ⟨hkey, hbound, hdeleted⟩
    · rw [hother k heq] at hk
      obtain ⟨hk', hbound', hdeleted'⟩ := hg.admissible k o' hk
      refine ⟨hk', fun id hid => ?_, hdeleted'⟩
      exact (hbound' id hid).imp (hmono id) fun h => ⟨hreferences h.1, h.2⟩
  · intro id value hv
    rcases hvalues id value hv with hold | ⟨-, hid, hlength⟩
    · exact hg.values id value hold
    · exact ⟨hid, hlength⟩
  · intro id hid
    obtain ⟨value, hv⟩ := Option.isSome_iff_exists.mp (Std.ExtTreeMap.mem_iff_isSome_getElem?.mp hid)
    rcases hvalues id value hv with hold | ⟨ho, -, -⟩
    · obtain ⟨k, hk⟩ := hg.bound id (Std.ExtTreeMap.mem_iff_isSome_getElem?.mpr (by rw [hold]; rfl))
      exact ⟨k, (hother k (hne k _ hk)).trans hk⟩
    · exact ⟨m.key, ho ▸ hself⟩
  · exact hcount.trans (Nat.succ_le_succ hg.count)

theorem checked_foldlM {mutations : List Mutation} (hg : Checked j g n)
    (h : mutations.foldlM (gatherOne j) g = .ok g') : Checked j g' (n + mutations.length) := by
  induction mutations generalizing g n with
  | nil =>
    cases h
    exact hg
  | cons m mutations ih =>
    obtain ⟨g₁, hone, h⟩ := Outcome.bind_eq_ok.mp ((List.foldlM_cons ..).symm.trans h)
    have hall := ih (checked_gatherOne hg hone) h
    rwa [Nat.add_assoc, Nat.add_comm 1] at hall

omit [Digest] in
theorem slice_batchPayload (index : Index) (changes : StdMap Bytes (Option Hash)) :
    slice (batchPayload index changes) 0 32 = index.lastHash.val ∧
      slice (batchPayload index changes) 32 8 = store index.seq 8 ∧
      slice (batchPayload index changes) 40 4 = store changes.size 4 ∧
      ∃ pre : Bytes, pre.length = 44 ∧
        batchPayload index changes = pre ++ changes.toList.flatMap entryBytes := by
  refine ⟨slice_flatten (i := 0) rfl ?_ ?_, slice_flatten (i := 1) rfl ?_ ?_,
    slice_flatten (i := 2) rfl ?_ ?_,
    index.lastHash.val ++ (store index.seq 8 ++ store changes.size 4), ?_, ?_⟩
  all_goals simp [batchPayload, index.lastHash.property]

omit [Digest] in
theorem length_entries_le {entries : List (Bytes × Option Hash)}
    (h : ∀ e ∈ entries, e.1.length ≤ 1024) :
    (entries.flatMap entryBytes).length ≤ 1064 * entries.length := by
  induction entries with
  | nil => simp
  | cons e entries ih =>
    have hfirst := h e (by simp)
    have hrest := ih fun e' he' => h e' (by simp [he'])
    rw [List.flatMap_cons, List.length_append, (slice_entryBytes e).2.2.2.2, List.length_cons]
    omega

/-- The batch prepare record parses back to the changes. -/
theorem batchChanges_batchPayload {r : Replay} {c : Rec} {start : ℕ} (hg : Checked j g n)
    (hn : 0 < n ∧ n ≤ 64) (hseq : j.index.seq < 256 ^ 8) (hindex : r.index = j.index)
    (hpending : r.pendingObjects = StdMap.insertAll ∅ (locations start g.values.toList))
    (hchanges : r.changes = ∅) (hc : c.payload = batchPayload j.index g.changes)
    (htype : c.type = if g.references then 8 else 7) :
    batchChanges r c = .ok g.changes := by
  obtain ⟨-, hfield, hcount, pre, hpre, hpayload⟩ := slice_batchPayload j.index g.changes
  have hmem : ∀ id, id ∈ r.pendingObjects ↔ id ∈ g.values := by
    intro id
    rw [hpending, mem_pending start, StdMap.mem_map_toList]
  have hentries : ∀ e ∈ g.changes.toList, Admissible r.index r.pendingObjects c.type e := by
    intro e he
    obtain ⟨hkey, hbound, hdeleted⟩ := hg.admissible e.1 e.2 (StdMap.mem_toList.mp he)
    rw [hindex]
    refine ⟨hkey, fun id hid => (hbound id hid).imp (hmem id).mpr fun h => ?_, hdeleted⟩
    rw [htype, if_pos h.1]
    exact ⟨rfl, h.2⟩
  obtain ⟨p, hparse, hcursor, hp, hreferenced⟩ := parseEntries_flatMap (c := c)
    (p := ⟨44, none, r.changes, ∅⟩) (hc.trans hpayload) hpre.symm hentries g.changes.sorted_toList
    (by simp)
  rw [Std.ExtTreeMap.length_toList, hg.size] at hparse
  have hcard : p.referenced.card = r.pendingObjects.size := by
    have heq : p.referenced = (r.pendingObjects.toList.map Prod.fst).toFinset := by
      ext id
      rw [hreferenced, List.mem_toFinset, StdMap.mem_map_toList]
      simp only [Finset.notMem_empty, false_or]
      refine ⟨And.left, fun hid => ⟨hid, ?_⟩⟩
      obtain ⟨k, hk⟩ := hg.bound id ((hmem id).mp hid)
      exact ⟨(k, some id), StdMap.mem_toList.mpr hk, rfl⟩
    rw [heq, List.toFinset_card_of_nodup (StdMap.nodup_toList _), List.length_map,
      Std.ExtTreeMap.length_toList]
  simp only [batchChanges, need_bind_eq_ok]
  refine ⟨⟨?_, ?_⟩, ?_, ?_⟩
  · rw [hc, hpayload, List.length_append]
    omega
  · rw [hc, hfield, hindex, load_store_of_lt hseq]
  · rw [hc, hcount, hg.size, load_store_of_lt (by omega)]
    exact hn
  · rw [hc, hcount, hg.size, load_store_of_lt (by omega), hparse, Outcome.ok_bind, ← hc,
      need_of ⟨hcursor, hcard⟩, Outcome.ok_bind, hp, hchanges]
    exact congrArg Except.ok (StdMap.emplaceAll_toList _)

/-- The transaction of `transact` is accepted. -/
theorem acceptable_transact (hg : Checked j g n) (hn : 0 < n ∧ n ≤ 64)
    (hseq : j.index.seq < 2 ^ 64 - 1)
    (hbatch : (dataRecords (j.index.seq + 1) g.values.toList).length +
      recordLength (batchPayload j.index g.changes).length ≤ 2 * 1024 * 1024) :
    Acceptable j.index g.values.toList (if g.references then 8 else 7)
      (batchPayload j.index g.changes) g.changes := by
  obtain ⟨hprevious, -, -, pre, hpre, hpayload⟩ := slice_batchPayload j.index g.changes
  have hlength := length_entries_le fun e he => (hg.admissible e.1 e.2 (StdMap.mem_toList.mp he)).1.2
  rw [Std.ExtTreeMap.length_toList, hg.size] at hlength
  have hsize : (batchPayload j.index g.changes).length =
      44 + (g.changes.toList.flatMap entryBytes).length := by
    rw [hpayload, List.length_append, hpre]
  refine ⟨hseq, ⟨StdMap.nodup_toList _, ?_, ?_, ?_⟩, ?_, by omega, hprevious, hbatch, by omega, ?_,
    ?_⟩
  · exact fun e he => (hg.values e.1 e.2 (StdMap.mem_toList.mp he)).1
  · exact fun e he => (hg.values e.1 e.2 (StdMap.mem_toList.mp he)).2
  · rw [Std.ExtTreeMap.length_toList]
    exact hg.count.trans hn.2
  · split <;> simp
  · intro k o ho
    obtain ⟨hkey, hbound, -⟩ := hg.admissible k o ho
    refine ⟨hkey, fun id hid => (hbound id hid).imp StdMap.mem_map_toList.mpr And.right⟩
  · intro r start hindex hpending hchanges
    have htype : ¬ (if g.references = true then 8 else 7) = 2 := by
      split <;> decide
    exact (if_neg htype).trans
      (batchChanges_batchPayload hg hn (by omega) hindex hpending hchanges rfl rfl)

end Transact

section Checkpoint

omit [Digest] in
theorem slice_checkpointPayload (index : Index) :
    slice (checkpointPayload index) 0 8 = store index.seq 8 ∧
      slice (checkpointPayload index) 8 32 = index.lastHash.val ∧
      48 ≤ (checkpointPayload index).length := by
  refine ⟨slice_flatten (i := 0) rfl ?_ ?_, slice_flatten (i := 1) rfl ?_ ?_, ?_⟩
  all_goals simp [checkpointPayload, index.lastHash.property]
  omega

/-- A checkpoint record moves the end and keeps the index. -/
theorem replayRecord_checkpoint {r : Replay} (hphase : r.phase = .idle)
    (hseq : r.index.seq < 256 ^ 8) :
    replayRecord r (Rec.of 5 r.index.seq (checkpointPayload r.index) Hash.zero r.at_) =
      .ok { r with
        pos := r.pos + recordLength (checkpointPayload r.index).length
        end_ := r.at_ + recordLength (checkpointPayload r.index).length } := by
  obtain ⟨hfield, hprevious, hlength⟩ := slice_checkpointPayload r.index
  rw [replayRecord, if_pos ⟨hphase, rfl⟩, replayCheckpoint, Rec.length_encoded_of, need_of]
  · rfl
  · refine ⟨rfl, rfl, hlength, ?_, hprevious⟩
    exact (congrArg load hfield).trans (load_store_of_lt hseq)

/-- A checkpoint replays to the same index. -/
theorem replays_checkpoint {repository : Repository} {j : Journal} {a : Append} {c : Checkpoint}
    (h : planCheckpoint repository j = .ok (a, c)) (hseq : j.index.seq < 256 ^ 8) :
    Replays repository j.index j.end_ a := by
  intro r hr
  obtain ⟨log, index, end_, tail⟩ := j
  obtain ⟨hlimit, h⟩ := need_bind_eq_ok.mp h
  obtain ⟨⟨lead, start⟩, hplace, h⟩ := Outcome.bind_eq_ok.mp h
  cases h
  obtain ⟨hphase, rfl, rfl, hat, halign, hinside⟩ := hr
  have hlength := recordLength_eq (checkpointPayload r.index).length
  obtain ⟨hplaced, hlead, hleadcuts⟩ :=
    feeds_place (p := fun s => s.index = r.index ∧ s.end_ = r.end_) hplace hphase hat halign hinside
      (by unfold span header; dsimp only at hlimit ⊢; omega) fun _ => ⟨rfl, rfl⟩
  have hstart : base + (start - base) = start := by
    rw [hplaced.start_eq, ← hat, Replay.at_]
    omega
  have hin := hplaced.inside
  have hzero : (start - base) % span ≠ 0 := by
    unfold header at hin
    omega
  have hencodable : Encodable 5 r.index.seq (checkpointPayload r.index) := ⟨by decide, hseq, hlimit⟩
  have hrecord := replayRecord_checkpoint (r := { r with pos := start - base }) hphase hseq
  have hfeeds : (reader repository).Feeds { r with pos := start - base } _ _ :=
    feeds_record hencodable hzero hplaced.fits hrecord
  refine ⟨_, hlead.append hfeeds, ⟨hphase, rfl, ?_, ?_, ?_, ?_⟩,
    hleadcuts.append hlead (cuts_record hencodable hzero hplaced.fits ⟨rfl, rfl⟩)⟩
  · change base + (start - base) + _ = _
    rw [hstart]
  · change base + (start - base + _) = start + _
    rw [← Nat.add_assoc, hstart]
  · have haligned := hplaced.aligned
    change 8 ∣ start - base + recordLength (checkpointPayload r.index).length
    omega
  · exact inside_add hin hplaced.fits

end Checkpoint

section Plan

variable {repository : Repository} {j : Journal} {c : Call} {a : Append}

/-- A call that is not rejected appends an acceptable transaction or a checkpoint. -/
theorem plan_cases (h : plan repository j c = .ok a) (hseq : j.index.seq < 2 ^ 64) :
    (∃ values type prepare changes, Acceptable j.index values type prepare changes ∧
      commitBatch repository j values type prepare changes = .ok a) ∨
    (c = .checkpoint ∧ ∃ d, planCheckpoint repository j = .ok (a, d)) := by
  cases c with
  | put key value =>
    simp only [plan, planPut, need_bind_eq_ok] at h
    obtain ⟨hkey, hvalue, hne, h⟩ := h
    exact Or.inl ⟨_, _, _, _, acceptable_put (by omega) hkey hvalue, h⟩
  | transact expected mutations =>
    simp only [plan, planTransact, need_bind_eq_ok] at h
    obtain ⟨-, hne, hcount, h⟩ := h
    obtain ⟨g, hgather, h⟩ := Outcome.bind_eq_ok.mp h
    obtain ⟨hbatch, h⟩ := need_bind_eq_ok.mp h
    have hg := checked_foldlM (checked_empty j) hgather
    have hpos := List.length_pos_of_ne_nil hcount.1
    exact Or.inl ⟨_, _, _, _, acceptable_transact hg (by omega) (by omega) hbatch, h⟩
  | checkpoint =>
    obtain ⟨⟨a', d⟩, hplan, rfl⟩ := Outcome.map_eq_ok.mp h
    exact Or.inr ⟨rfl, d, hplan⟩

/-- What a transaction appends and leaves. -/
theorem commitBatch_eq_ok {values : List (Hash × Bytes)} {type : ℕ} {prepare : Bytes}
    {changes : StdMap Bytes (Option Hash)}
    (h : commitBatch repository j values type prepare changes = .ok a) :
    ∃ lead start commit, place repository j.end_ ((dataRecords (j.index.seq + 1) values ++
        record type (j.index.seq + 1) prepare Hash.zero).length + 216) = .ok (lead, start) ∧
      a = ⟨lead ++ (dataRecords (j.index.seq + 1) values ++
          record type (j.index.seq + 1) prepare Hash.zero ++
          record 3 (j.index.seq + 1) commit Hash.zero),
        ⟨j.index.seq + 1, tagged "forkfs.commit.v0" commit, j.index.roots.override changes,
          j.index.objects.insertAll (locations start values)⟩,
        start + (dataRecords (j.index.seq + 1) values ++
          record type (j.index.seq + 1) prepare Hash.zero).length + 216⟩ := by
  obtain ⟨⟨lead, start⟩, hplace, h⟩ := Outcome.bind_eq_ok.mp h
  cases h
  refine ⟨lead, start, commitPayload j.index (start + (dataRecords (j.index.seq + 1) values).length)
    (recordLength prepare.length) prepare start (dataRecords (j.index.seq + 1) values ++
      record type (j.index.seq + 1) prepare Hash.zero), hplace, ?_⟩
  rw [length_commitPayload]
  rfl

/-- What a checkpoint appends, and its descriptor. -/
theorem planCheckpoint_eq_ok {d : Checkpoint} (h : planCheckpoint repository j = .ok (a, d)) :
    (checkpointPayload j.index).length ≤ 1024 * 1024 - 87 ∧
    ∃ lead start, place repository j.end_ (recordLength (checkpointPayload j.index).length) =
        .ok (lead, start) ∧
      a = ⟨lead ++ record 5 j.index.seq (checkpointPayload j.index) Hash.zero, j.index,
        start + recordLength (checkpointPayload j.index).length⟩ ∧
      d = ⟨start, recordLength (checkpointPayload j.index).length, j.index.seq,
        start + recordLength (checkpointPayload j.index).length,
        digest (checkpointPayload j.index)⟩ := by
  obtain ⟨hlimit, h⟩ := need_bind_eq_ok.mp h
  obtain ⟨⟨lead, start⟩, hplace, h⟩ := Outcome.bind_eq_ok.mp h
  cases h
  exact ⟨hlimit, lead, start, hplace, rfl, rfl⟩

/-- Whatever a call appends replays to the index that the call leaves. -/
theorem replays_plan (h : plan repository j c = .ok a) (hseq : j.index.seq < 2 ^ 64) :
    Replays repository j.index j.end_ a ∧ a.index.seq < 2 ^ 64 := by
  rcases plan_cases h hseq with ⟨values, type, prepare, changes, hacceptable, h⟩ | ⟨-, d, h⟩
  · refine ⟨replays_commitBatch h hacceptable, ?_⟩
    have hlt := hacceptable.seq_lt
    obtain ⟨lead, start, commit, -, rfl⟩ := commitBatch_eq_ok h
    change j.index.seq + 1 < 2 ^ 64
    omega
  · refine ⟨replays_checkpoint h hseq, ?_⟩
    obtain ⟨-, lead, start, -, rfl, -⟩ := planCheckpoint_eq_ok h
    exact hseq

end Plan

end ForkFs.Journal
