import ForkFs.NamespaceView.View

/-!
# The format of sorted runs

`decodeRun` reads what is left of a run. The source reads a buffer at an offset: `scanRun` does the
same with its accesses checked, and agrees with `decodeRun` on all strings. A string is accepted
exactly if it is the encoding of a sorted list of valid entries.
-/

namespace ForkFs.NamespaceView

open Bytes Outcome Scan

section Scanner

/-- A number, and the offset after it. -/
def scanNumber (b : Bytes) (pos : ℕ) : Scanned (ℕ × ℕ) := do
  let n ← Scan.u32 "truncated metadata integer" b pos
  pure (n, pos + 4)

/-- The operation of an entry. Old full maps have none. -/
def scanOperation (full : Bool) (b : Bytes) (pos : ℕ) : Scanned (ℕ × ℕ) :=
  if full then pure (1, pos) else scanNumber b pos

/-- The object of an entry. -/
def scanTarget (op : ℕ) (target : Hash) : Scanned (Option Hash) :=
  if op = 1 then do
    demand (target ≠ Hash.zero) "zero PUT reference"
    pure (some target)
  else do
    demand (target = Hash.zero) "nonzero tombstone reference"
    pure none

/-- The key and the object of an entry, after its header. -/
def scanBinding (previous : Option Bytes) (op n : ℕ) (b : Bytes) (pos : ℕ) :
    Scanned ((Bytes × Option Hash) × ℕ) := do
  let rest ← left b pos
  demand ((op = 1 ∨ op = 2) ∧ 8 ≤ n ∧ n ≤ 1024 ∧ n + 32 ≤ rest) "invalid run entry"
  let key ← peek b pos n
  let target ← peek b (pos + n) 32
  demand (namespacePrefix <+: key ∧ ∀ last ∈ previous, last < key) "unordered run keys"
  let object ← scanTarget op (Hash.ofBytes target)
  pure ((key, object), pos + n + 32)

/-- An entry. -/
def scanEntry (full : Bool) (previous : Option Bytes) (b : Bytes) (pos : ℕ) :
    Scanned ((Bytes × Option Hash) × ℕ) := do
  let (op, pos) ← scanOperation full b pos
  let (n, pos) ← scanNumber b pos
  scanBinding previous op n b pos

/-- Whether a payload starts with a format tag. -/
def scanMagic (b : Bytes) (text : String) : Scanned Bool :=
  if 12 ≤ b.length then do
    let tag ← peek b 0 8
    pure (tag = ascii text)
  else pure false

/-- The entries of a run, after its tag. -/
def scanEntries (full : Bool) (b : Bytes) (pos : ℕ) : Scanned (List (Bytes × Option Hash) × ℕ) := do
  let (count, pos) ← scanNumber b pos
  let rest ← left b pos
  demand (0 < count ∧ count ≤ rest / (if full then 44 else 48)) "invalid sorted run count"
  many (scanEntry full) (fun _ e => some e.1) count none b pos

/-- Read a sorted run. -/
def scanRun (b : Bytes) : Scanned Delta := do
  let full ← scanMagic b "FFMAN001"
  let run ← scanMagic b "FFRUN001"
  demand (full = true ∨ run = true) "unsupported sorted run"
  let entries ← finish "unexpected sorted run suffix" (scanEntries full) b 8
  pure (StdMap.insertAll ∅ entries)

end Scanner

section Format

/-- The bytes of an entry. -/
def entryBytes (full : Bool) (e : Bytes × Option Hash) : Bytes :=
  (if full then [] else store (if e.2.isSome then 1 else 2) 4) ++
    (store e.1.length 4 ++ (e.1 ++ (e.2.getD Hash.zero).val))

/-- An entry that a run can hold. -/
structure Runnable (full : Bool) (e : Bytes × Option Hash) : Prop where
  key : namespacePrefix <+: e.1
  length_le : e.1.length ≤ 1024
  nonzero : e.2 ≠ some Hash.zero
  /-- Full maps have no deletions. -/
  put : full = true → e.2.isSome = true

/-- A list of entries that a run can hold. -/
structure Sorted (full : Bool) (l : List (Bytes × Option Hash)) : Prop where
  runnable : ∀ e ∈ l, Runnable full e
  increasing : l.Pairwise fun a b => a.1 < b.1

/-- The tag of a run. -/
def tag (full : Bool) : Bytes := ascii (if full then "FFMAN001" else "FFRUN001")

/-- The bytes of a run. -/
def runBytes (full : Bool) (l : List (Bytes × Option Hash)) : Bytes :=
  tag full ++ (store l.length 4 ++ l.flatMap (entryBytes full))

end Format

section Exact

variable {full : Bool} {previous : Option Bytes} {op n pos stop : ℕ} {b : Bytes}
  {e : Bytes × Option Hash} {l : List (Bytes × Option Hash)}

theorem reads_number : Reads scanNumber (fun n => store n 4) fun n => n < 256 ^ 4 where
  exact := by
    intro b pos n stop hpos
    rw [scanNumber, bind_eq_ok, length_store]
    constructor
    · rintro ⟨n', hn, h⟩
      obtain ⟨rfl, rfl⟩ := Prod.mk.inj (pure_eq_ok.mp h)
      obtain ⟨hlt, hin⟩ := (u32_eq_ok hpos).mp hn
      exact ⟨hlt, rfl, hin⟩
    · rintro ⟨hlt, rfl, hin⟩
      exact ⟨n, (u32_eq_ok hpos).mpr ⟨hlt, hin⟩, rfl⟩
  safe := fun _ _ _ => safe_u32.bind fun _ _ => safe_pure _

theorem reads_operation : Reads (scanOperation full) (fun op => if full then [] else store op 4)
    fun op => op < 256 ^ 4 ∧ (full = true → op = 1) := by
  cases full with
  | false => exact reads_number.congr fun op => by simp
  | true =>
    refine ⟨fun b pos op stop hpos => ?_, fun _ _ _ => safe_pure _⟩
    simp only [scanOperation, if_true, pure_eq_ok, Prod.mk.injEq, List.length_nil, Nat.add_zero,
      List.nil_prefix, and_true]
    constructor
    · rintro ⟨rfl, rfl⟩
      exact ⟨⟨by decide, fun _ => rfl⟩, rfl⟩
    · rintro ⟨⟨-, hop⟩, rfl⟩
      exact ⟨(hop trivial).symm, rfl⟩

theorem scanTarget_eq_ok {target : Hash} {object : Option Hash} :
    scanTarget op target = .ok object ↔ object ≠ some Hash.zero ∧ (op = 1 ↔ object.isSome = true) ∧
      target = object.getD Hash.zero := by
  unfold scanTarget
  split
  · rename_i hop
    rw [demand_bind_eq_ok, pure_eq_ok]
    constructor
    · rintro ⟨hne, rfl⟩
      exact ⟨fun heq => hne (Option.some.inj heq), by simp [hop], rfl⟩
    · rintro ⟨hne, hput, rfl⟩
      obtain ⟨id, rfl⟩ := Option.isSome_iff_exists.mp (hput.mp hop)
      exact ⟨fun heq => hne (congrArg some heq), rfl⟩
  · rename_i hop
    rw [demand_bind_eq_ok, pure_eq_ok]
    constructor
    · rintro ⟨rfl, rfl⟩
      exact ⟨nofun, by simp [hop], rfl⟩
    · rintro ⟨-, hput, rfl⟩
      have hnone : object = none := Option.not_isSome_iff_eq_none.mp fun hsome => hop (hput.mpr hsome)
      rw [hnone]
      exact ⟨rfl, rfl⟩

theorem safe_scanTarget {target : Hash} : Safe (scanTarget op target) := by
  unfold scanTarget
  split
  · exact safe_demand fun _ => safe_pure _
  · exact safe_demand fun _ => safe_pure _

/-- The code of an entry. -/
def opcode (e : Bytes × Option Hash) : ℕ := if e.2.isSome then 1 else 2

/-- What follows a header. -/
structure Follows (previous : Option Bytes) (op n : ℕ) (e : Bytes × Option Hash) : Prop where
  runnable : Runnable false e
  increasing : ∀ last ∈ previous, last < e.1
  op_eq : op = opcode e
  length_eq : n = e.1.length

theorem length_namespacePrefix : namespacePrefix.length = 8 := by decide

theorem reads_binding (previous : Option Bytes) (op n : ℕ) :
    Reads (scanBinding previous op n) (fun e => e.1 ++ (e.2.getD Hash.zero).val)
      (Follows previous op n) where
  exact := by
    intro b pos e stop hpos
    rw [scanBinding, left_of_le hpos, ok_bind, demand_bind_eq_ok]
    constructor
    · rintro ⟨⟨hcase, hmin, hmax, hin⟩, h⟩
      obtain ⟨key, hpeek, h⟩ := bind_eq_ok.mp h
      obtain ⟨rfl, hkey⟩ := (peek_eq_ok hpos).mp hpeek
      obtain ⟨field, hpeek', h⟩ := bind_eq_ok.mp h
      obtain ⟨hlength, hfield⟩ := (peek_eq_ok (by omega)).mp hpeek'
      obtain ⟨⟨hpre, hincreasing⟩, h⟩ := demand_bind_eq_ok.mp h
      obtain ⟨object, hobject, h⟩ := bind_eq_ok.mp h
      obtain ⟨rfl, rfl⟩ := Prod.mk.inj (pure_eq_ok.mp h)
      obtain ⟨hnonzero, hput, htarget⟩ := scanTarget_eq_ok.mp hobject
      have hval : (object.getD Hash.zero).val = field := by
        rw [← htarget, Hash.val_ofBytes hlength]
      have hop : op = opcode (key, object) := by
        unfold opcode
        split
        · exact hput.mpr ‹_›
        · exact hcase.resolve_left fun hop => ‹¬ _› (hput.mp hop)
      refine ⟨⟨⟨hpre, hmax, hnonzero, nofun⟩, hincreasing, hop, rfl⟩, ?_, ?_⟩
      · rw [hval, List.length_append, hlength, Nat.add_assoc]
      · rw [hval]
        exact append_at_iff.mpr ⟨hkey, hfield⟩
    · rintro ⟨⟨hrunnable, hincreasing, rfl, rfl⟩, rfl, hin⟩
      obtain ⟨hkey, hfield⟩ := append_at_iff.mp hin
      have hlength := hin.length_le
      have hhash := (e.2.getD Hash.zero).property
      have hpre := hrunnable.key.length_le
      rw [List.length_append, List.length_drop] at hlength
      rw [length_namespacePrefix] at hpre
      have hcase : opcode e = 1 ∨ opcode e = 2 := by
        unfold opcode
        split <;> simp
      have hobject : scanTarget (opcode e) (Hash.ofBytes (e.2.getD Hash.zero).val) = .ok e.2 := by
        rw [scanTarget_eq_ok, Hash.ofBytes_val]
        refine ⟨hrunnable.nonzero, ?_, rfl⟩
        unfold opcode
        split <;> simp_all
      refine ⟨⟨hcase, hpre, hrunnable.length_le, by omega⟩, ?_⟩
      rw [(peek_eq_ok hpos).mpr ⟨rfl, hkey⟩, ok_bind,
        (peek_eq_ok (by omega)).mpr ⟨hhash, hfield⟩, ok_bind, demand_bind_eq_ok, hobject,
        List.length_append, hhash, Nat.add_assoc]
      exact ⟨⟨hrunnable.key, hincreasing⟩, rfl⟩
  safe := by
    intro b pos hpos
    rw [scanBinding, left_of_le hpos, ok_bind]
    refine safe_demand fun hchecks => ?_
    refine (safe_peek (by omega)).bind fun key _ => ?_
    refine (safe_peek (by omega)).bind fun field _ => ?_
    exact safe_demand fun _ => safe_scanTarget.bind fun _ _ => safe_pure _

/-- A step reads exactly the entries of runs. -/
theorem reads_entry (full : Bool) (previous : Option Bytes) :
    Reads (scanEntry full previous) (entryBytes full)
      fun e => Runnable full e ∧ ∀ last ∈ previous, last < e.1 := by
  have hn (op : ℕ) := reads_number.seq (reads_binding previous op) fun n e h => h.length_eq
  have hop := (@reads_operation full).seq hn fun op e h => h.2.op_eq
  refine hop.congr fun e => ?_
  constructor
  · rintro ⟨⟨-, hput⟩, -, hfollows⟩
    refine ⟨⟨hfollows.runnable.key, hfollows.runnable.length_le, hfollows.runnable.nonzero, ?_⟩,
      hfollows.increasing⟩
    intro hfull
    have hone := hput hfull
    unfold opcode at hone
    split at hone
    · assumption
    · cases hone
  · rintro ⟨hrunnable, hincreasing⟩
    have hlength := hrunnable.length_le
    refine ⟨⟨?_, fun hfull => if_pos (hrunnable.put hfull)⟩, by omega,
      ⟨hrunnable.key, hrunnable.length_le, hrunnable.nonzero, nofun⟩, hincreasing, rfl, rfl⟩
    unfold opcode
    split <;> decide

/-- Entries after a last key. -/
theorem validAll_entries : ValidAll (fun previous e => Runnable full e ∧ ∀ last ∈ previous, last < e.1)
    (fun _ e => some e.1) previous l ↔ Sorted full l ∧ ∀ last ∈ previous, ∀ e ∈ l, last < e.1 := by
  induction l generalizing previous with
  | nil =>
    refine ⟨fun _ => ⟨⟨nofun, .nil⟩, nofun⟩, fun _ => trivial⟩
  | cons e l ih =>
    rw [ValidAll, ih]
    constructor
    · rintro ⟨⟨hrunnable, hlast⟩, hsorted, hless⟩
      have hnext : ∀ e' ∈ l, e.1 < e'.1 := hless e.1 rfl
      refine ⟨⟨?_, .cons hnext hsorted.increasing⟩, fun last hprevious e' he' => ?_⟩
      · exact List.forall_mem_cons.mpr ⟨hrunnable, hsorted.runnable⟩
      · rcases List.mem_cons.mp he' with rfl | he'
        · exact hlast last hprevious
        · exact (hlast last hprevious).trans (hnext e' he')
    · rintro ⟨⟨hrunnable, hincreasing⟩, hlast⟩
      obtain ⟨hnext, hrest⟩ := List.pairwise_cons.mp hincreasing
      refine ⟨⟨hrunnable e List.mem_cons_self, fun last h => hlast last h e List.mem_cons_self⟩,
        ⟨fun e' he' => hrunnable e' (List.mem_cons_of_mem _ he'), hrest⟩, ?_⟩
      rintro _ ⟨⟩
      exact hnext

theorem reads_many (count : ℕ) :
    Reads (many (scanEntry full) (fun _ e => some e.1) count none)
      (fun l => l.flatMap (entryBytes full)) fun l => l.length = count ∧ Sorted full l := by
  refine (Reads.many (reads_entry full) count none).congr fun l => and_congr_right fun _ => ?_
  rw [validAll_entries]
  exact and_iff_left nofun

/-- Entries have at least the length that the count is checked against. -/
theorem length_entries_ge (h : ∀ e ∈ l, Runnable full e) :
    l.length * (if full then 44 else 48) ≤ (l.flatMap (entryBytes full)).length := by
  induction l with
  | nil => simp
  | cons e l ih =>
    have hrest := ih fun e' he' => h e' (List.mem_cons_of_mem _ he')
    have hkey := (h e List.mem_cons_self).key.length_le
    have hhash := (e.2.getD Hash.zero).property
    rw [length_namespacePrefix] at hkey
    rw [List.flatMap_cons, List.length_append, List.length_cons, Nat.add_mul, Nat.one_mul]
    cases full with
    | true =>
      simp only [entryBytes, if_true, List.length_append, length_store, hhash, List.length_nil] at hrest ⊢
      omega
    | false =>
      simp only [entryBytes, Bool.false_eq_true, if_false, List.length_append, length_store, hhash]
        at hrest ⊢
      omega

/-- The check of the count is redundant. -/
theorem reads_checked (count : ℕ) :
    Reads (fun b pos => do
        let rest ← left b pos
        demand (0 < count ∧ count ≤ rest / (if full then 44 else 48)) "invalid sorted run count"
        many (scanEntry full) (fun _ e => some e.1) count none b pos)
      (fun l => l.flatMap (entryBytes full)) fun l => 0 < count ∧ l.length = count ∧ Sorted full l where
  exact := by
    intro b pos l stop hpos
    rw [left_of_le hpos, ok_bind, demand_bind_eq_ok, (reads_many count).exact b pos l stop hpos]
    constructor
    · rintro ⟨⟨hcount, -⟩, hvalid, hstop, hin⟩
      exact ⟨⟨hcount, hvalid⟩, hstop, hin⟩
    · rintro ⟨⟨hcount, rfl, hsorted⟩, hstop, hin⟩
      refine ⟨⟨hcount, ?_⟩, ⟨rfl, hsorted⟩, hstop, hin⟩
      have hlength := hin.length_le
      rw [List.length_drop] at hlength
      rw [Nat.le_div_iff_mul_le (by split <;> decide)]
      exact (length_entries_ge hsorted.runnable).trans hlength
  safe := by
    intro b pos hpos
    rw [left_of_le hpos, ok_bind]
    exact safe_demand fun _ => (reads_many count).safe b pos hpos

theorem reads_entries (full : Bool) :
    Reads (scanEntries full) (fun l => store l.length 4 ++ l.flatMap (entryBytes full))
      fun l => (0 < l.length ∧ l.length < 256 ^ 4) ∧ Sorted full l := by
  refine (reads_number.seq reads_checked fun count l h => h.2.1.symm).congr fun l => ?_
  constructor
  · rintro ⟨hlt, hpos, -, hsorted⟩
    exact ⟨⟨hpos, hlt⟩, hsorted⟩
  · rintro ⟨⟨hpos, hlt⟩, hsorted⟩
    exact ⟨hlt, hpos, rfl, hsorted⟩

theorem scanMagic_eq (b : Bytes) (text : String) : scanMagic b text = .ok (decide (magic b text)) := by
  unfold scanMagic magic
  split
  · rw [peek_of_le (by omega), ok_bind]
    simp [*, pure, Except.pure]
  · simp [*, pure, Except.pure]

end Exact

section Runs

variable {full : Bool} {b : Bytes} {c : Delta} {l : List (Bytes × Option Hash)}

/-- A string is the encoding of a run. -/
structure IsRun (full : Bool) (l : List (Bytes × Option Hash)) (b : Bytes) : Prop where
  nonempty : 0 < l.length
  count_lt : l.length < 2 ^ 32
  sorted : Sorted full l
  eq : b = runBytes full l

theorem length_tag (full : Bool) : (tag full).length = 8 := by cases full <;> decide

/-- The tag of an encoded run is the only one. -/
theorem magic_runBytes {text : String} :
    magic (runBytes full l) text ↔ tag full = ascii text := by
  have hlength : 12 ≤ (runBytes full l).length := by
    rw [runBytes, List.length_append, List.length_append, length_tag, length_store]
    omega
  rw [magic, and_iff_right hlength, runBytes, slice_append_self (length_tag full)]

/-- What the scanner accepts. -/
theorem scanRun_eq_ok :
    scanRun b = .ok c ↔ ∃ full l, IsRun full l b ∧ c = StdMap.insertAll ∅ l := by
  rw [scanRun, scanMagic_eq, ok_bind, scanMagic_eq, ok_bind, demand_bind_eq_ok]
  simp only [decide_eq_true_eq]
  constructor
  · rintro ⟨htag, h⟩
    have hlength : 12 ≤ b.length := by
      rcases htag with hmagic | hmagic
      · exact hmagic.1
      · exact hmagic.1
    obtain ⟨l, hl, h⟩ := bind_eq_ok.mp h
    obtain ⟨⟨⟨hpos, hlt⟩, hsorted⟩, hrest⟩ := ((reads_entries _).finish_eq_ok (by omega)).mp hl
    refine ⟨_, l, ⟨hpos, hlt, hsorted, ?_⟩, (pure_eq_ok.mp h).symm⟩
    have hfirst : slice b 0 8 = tag (decide (magic b "FFMAN001")) := by
      by_cases hfull : magic b "FFMAN001"
      · rw [decide_eq_true hfull]
        exact hfull.2
      · rw [decide_eq_false hfull]
        exact (htag.resolve_left hfull).2
    rw [runBytes, ← hrest, ← hfirst]
    exact (List.take_append_drop 8 b).symm
  · rintro ⟨full, l, ⟨hpos, hlt, hsorted, rfl⟩, rfl⟩
    have hmagic : decide (magic (runBytes full l) "FFMAN001") = full := by
      cases full with
      | true => exact decide_eq_true (magic_runBytes.mpr rfl)
      | false => exact decide_eq_false fun h => absurd (magic_runBytes.mp h) (by decide)
    have hrest : (runBytes full l).drop 8 = store l.length 4 ++ l.flatMap (entryBytes full) :=
      List.drop_left' (length_tag full)
    have hlength : 8 ≤ (runBytes full l).length := by
      rw [runBytes, List.length_append, length_tag]
      omega
    refine ⟨?_, ?_⟩
    · rw [magic_runBytes, magic_runBytes]
      cases full <;> decide
    · rw [hmagic, ((reads_entries full).finish_eq_ok hlength).mpr ⟨⟨⟨hpos, hlt⟩, hsorted⟩, hrest⟩]
      rfl

theorem safe_scanRun (b : Bytes) : Safe (scanRun b) := by
  rw [scanRun, scanMagic_eq, ok_bind, scanMagic_eq, ok_bind]
  refine safe_demand fun htag => ?_
  have hlength : 8 ≤ b.length := by
    simp only [decide_eq_true_eq] at htag
    rcases htag with hmagic | hmagic
    · exact hmagic.1.trans' (by decide)
    · exact hmagic.1.trans' (by decide)
  exact ((reads_entries _).safe_finish hlength).bind fun _ _ => safe_pure _

end Runs

section Simulation

variable {full : Bool} {previous : Option Bytes} {result : Delta} {b : Bytes} {pos op n : ℕ}

theorem lift_u32 (hpos : pos ≤ b.length) :
    lift (u32 (b.drop pos)) = Scan.u32 "truncated metadata integer" b pos := by
  have hcheck : (4 ≤ b.length - pos) ↔ (pos ≤ b.length ∧ 4 ≤ b.length - pos) := by omega
  rw [u32, lift_bind, lift_need, List.length_drop, Scan.u32]
  simp only [← hcheck]
  refine demand_bind_congr fun hin => ?_
  rw [peek_of_le (by omega)]
  rfl

/-- A reader after an entry. -/
def RunReader.after (b : Bytes) (result : Delta) (p : (Bytes × Option Hash) × ℕ) : RunReader :=
  ⟨b.drop p.2, some p.1.1, result.insert p.1.1 p.1.2⟩

/-- The part of an entry after its header. -/
def decodeBinding (op n : ℕ) (rest : Bytes) (r : RunReader) : Except String RunReader := do
  need ((op = 1 ∨ op = 2) ∧ 8 ≤ n ∧ n ≤ 1024 ∧ n + 32 ≤ rest.length) "invalid run entry"
  need (namespacePrefix <+: rest.take n ∧ ∀ previous ∈ r.previous, previous < rest.take n)
    "unordered run keys"
  if op = 1 then
    need (Hash.ofBytes (slice rest n 32) ≠ Hash.zero) "zero PUT reference"
    return ⟨rest.drop (n + 32), some (rest.take n),
      r.result.insert (rest.take n) (some (Hash.ofBytes (slice rest n 32)))⟩
  else
    need (Hash.ofBytes (slice rest n 32) = Hash.zero) "nonzero tombstone reference"
    return ⟨rest.drop (n + 32), some (rest.take n), r.result.insert (rest.take n) none⟩

theorem decodeEntry_true (r : RunReader) : decodeEntry true r =
    (u32 r.rest >>= fun n => decodeBinding 1 n (r.rest.drop 4) r) :=
  rfl

theorem decodeEntry_false (r : RunReader) : decodeEntry false r =
    (u32 r.rest >>= fun op => u32 (r.rest.drop 4) >>= fun n =>
      decodeBinding op n ((r.rest.drop 4).drop 4) r) :=
  rfl

theorem lift_decodeBinding (hpos : pos ≤ b.length) (rest : Bytes) :
    lift (decodeBinding op n (b.drop pos) ⟨rest, previous, result⟩) =
      scanBinding previous op n b pos >>= fun p => pure (RunReader.after b result p) := by
  rw [decodeBinding, lift_bind, lift_need, scanBinding, left_of_le hpos, ok_bind, bind_assoc,
    List.length_drop]
  refine demand_bind_congr fun hchecks => ?_
  have hslice : slice (b.drop pos) n 32 = slice b (pos + n) 32 := by
    rw [slice, slice, List.drop_drop]
  rw [lift_bind, lift_need, peek_of_le (by omega), ok_bind, peek_of_le (by omega), ok_bind,
    bind_assoc, hslice]
  refine demand_bind_congr fun _ => ?_
  have hdrop : (b.drop pos).drop (n + 32) = b.drop (pos + n + 32) := by
    rw [List.drop_drop, Nat.add_assoc]
  rw [hdrop]
  unfold scanTarget
  split
  · rw [lift_bind, lift_need, bind_assoc, bind_assoc]
    rfl
  · rw [lift_bind, lift_need, bind_assoc, bind_assoc]
    rfl

/-- What follows a number, on both sides. -/
theorem lift_u32_bind {α : Type} {f : ℕ → Bytes → Except String α} {g : ℕ → ℕ → Scanned α}
    (hpos : pos ≤ b.length) (h : ∀ n, pos + 4 ≤ b.length → lift (f n (b.drop (pos + 4))) = g n (pos + 4)) :
    lift (u32 (b.drop pos) >>= fun n => f n ((b.drop pos).drop 4)) =
      scanNumber b pos >>= fun q => g q.1 q.2 := by
  rw [lift_bind, lift_u32 hpos, scanNumber, bind_assoc, List.drop_drop]
  cases hn : Scan.u32 "truncated metadata integer" b pos with
  | error fault => rfl
  | ok n =>
    have hin := ((u32_eq_ok hpos).mp hn).2.length_le
    rw [length_store, List.length_drop] at hin
    exact h n (by omega)

/-- Reading an entry at an offset is reading it from the rest of the buffer. -/
theorem lift_decodeEntry (hpos : pos ≤ b.length) :
    lift (decodeEntry full ⟨b.drop pos, previous, result⟩) =
      scanEntry full previous b pos >>= fun p => pure (RunReader.after b result p) := by
  have hlength {op at_ : ℕ} (hat : at_ ≤ b.length) :
      lift (u32 (b.drop at_) >>= fun n =>
          decodeBinding op n ((b.drop at_).drop 4) ⟨b.drop pos, previous, result⟩) =
        scanNumber b at_ >>= fun q => scanBinding previous op q.1 b q.2 >>=
          fun p => pure (RunReader.after b result p) :=
    lift_u32_bind (f := fun n x => decodeBinding op n x _)
      (g := fun n at_ => scanBinding previous op n b at_ >>=
        fun p => pure (RunReader.after b result p)) hat fun n hin => lift_decodeBinding hin _
  cases full with
  | true =>
    rw [decodeEntry_true, scanEntry, bind_assoc]
    exact (hlength hpos).trans (bind_assoc ..).symm
  | false =>
    rw [decodeEntry_false, scanEntry, bind_assoc]
    exact lift_u32_bind (f := fun op x => u32 x >>= fun n => decodeBinding op n (x.drop 4) _)
      (g := fun op at_ => (scanNumber b at_ >>= fun q => scanBinding previous op q.1 b q.2) >>=
        fun p => pure (RunReader.after b result p)) hpos
      fun op hin => (hlength hin).trans (bind_assoc ..).symm

/-- Reading entries at an offset is reading them from the rest of the buffer. -/
theorem lift_decodeEntries (hpos : pos ≤ b.length) :
    lift (decodeEntries full n ⟨b.drop pos, previous, result⟩) =
      many (scanEntry full) (fun _ e => some e.1) n previous b pos >>= fun p =>
        pure ⟨b.drop p.2, p.1.foldl (fun _ e => some e.1) previous, result.insertAll p.1⟩ := by
  induction n generalizing pos previous result with
  | zero => rfl
  | succ n ih =>
    rw [decodeEntries, lift_bind, lift_decodeEntry hpos, many, bind_assoc, bind_assoc]
    cases he : scanEntry full previous b pos with
    | error fault => rfl
    | ok p =>
      have hstop : p.2 ≤ b.length := (reads_entry full previous).stop_le hpos he
      rw [ok_bind, ok_bind, pure_bind, bind_assoc]
      refine (ih hstop).trans ?_
      rfl

/-- The entries of a run, after its tag. -/
theorem lift_entries (full : Bool) (hlength : 12 ≤ b.length) :
    (finish "unexpected sorted run suffix" (scanEntries full) b 8 >>= fun entries =>
        pure (StdMap.insertAll ∅ entries)) =
      lift (do
        let count ← u32 (b.drop 8)
        need (0 < count ∧ count ≤ (b.length - 12) / (if full then 44 else 48)) "invalid sorted run count"
        let r ← decodeEntries full count ⟨b.drop 12, none, ∅⟩
        need (r.rest = []) "unexpected sorted run suffix"
        return r.result) := by
  have hdrop : b.drop 12 = (b.drop 8).drop 4 := by rw [List.drop_drop]
  rw [finish, scanEntries, bind_assoc, bind_assoc, hdrop]
  symm
  refine lift_u32_bind (f := fun count x => do
      need (0 < count ∧ count ≤ (b.length - 12) / (if full then 44 else 48)) "invalid sorted run count"
      let r ← decodeEntries full count ⟨x, none, ∅⟩
      need (r.rest = []) "unexpected sorted run suffix"
      return r.result)
    (g := fun count at_ => (do
      let rest ← left b at_
      demand (0 < count ∧ count ≤ rest / (if full then 44 else 48)) "invalid sorted run count"
      many (scanEntry full) (fun _ e => some e.1) count none b at_) >>= fun p =>
        (demand (p.2 = b.length) "unexpected sorted run suffix" >>= fun _ => pure p.1) >>=
          fun entries => pure (StdMap.insertAll ∅ entries)) (by omega : 8 ≤ b.length) fun count _ => ?_
  rw [left_of_le (by omega), ok_bind, bind_assoc, lift_bind, lift_need]
  refine demand_bind_congr fun _ => ?_
  rw [lift_bind, lift_decodeEntries hlength, bind_assoc]
  cases hmany : many (scanEntry full) (fun _ e => some e.1) count none b 12 with
  | error fault => rfl
  | ok p =>
    have hstop := (reads_many count).stop_le hlength hmany
    rw [ok_bind, pure_bind, lift_bind, lift_need, ok_bind, bind_assoc]
    have hend : b.drop p.2 = [] ↔ p.2 = b.length := by
      rw [List.drop_eq_nil_iff]
      omega
    simp only [hend]
    rfl

/-- The scanner is the decoder, with its accesses checked. -/
theorem scanRun_eq (b : Bytes) : scanRun b = lift (decodeRun b) := by
  rw [scanRun, scanMagic_eq, ok_bind, scanMagic_eq, ok_bind, decodeRun]
  generalize hfull : decide (magic b "FFMAN001") = full
  simp only [decide_eq_true_eq]
  rw [lift_bind, lift_need]
  refine demand_bind_congr fun htag => lift_entries full ?_
  rcases htag with rfl | hmagic
  · exact (of_decide_eq_true hfull).1
  · exact hmagic.1

/-- What the decoder accepts. -/
theorem decodeRun_eq_ok {c : Delta} :
    decodeRun b = .ok c ↔ ∃ full l, IsRun full l b ∧ c = StdMap.insertAll ∅ l := by
  rw [← lift_eq_ok, ← scanRun_eq, scanRun_eq_ok]

end Simulation

section Codec

variable {b : Bytes} {c : Delta}

/-- The size of a run. -/
def runSize (c : Delta) : ℕ := 12 + (c.toList.map fun e => 40 + e.1.length).sum

/-- Changes that a run can hold. -/
structure Holdable (c : Delta) : Prop where
  nonempty : c.toList ≠ []
  runnable : ∀ e ∈ c.toList, Runnable false e
  size_le : runSize c ≤ 256 * 1024

theorem encodeEntry_eq (e : Bytes × Option Hash) : encodeEntry e = entryBytes false e := by
  simp [encodeEntry, entryBytes]

theorem length_runBytes (c : Delta) : (runBytes false c.toList).length = runSize c := by
  have hentries (l : List (Bytes × Option Hash)) :
      (l.flatMap (entryBytes false)).length = (l.map fun e => 40 + e.1.length).sum := by
    induction l with
    | nil => rfl
    | cons e l ih =>
      have hhash := (e.2.getD Hash.zero).property
      rw [List.flatMap_cons, List.length_append, ih, List.map_cons, List.sum_cons]
      simp only [entryBytes, Bool.false_eq_true, if_false, List.length_append, length_store, hhash]
      omega
  rw [runBytes, List.length_append, List.length_append, length_tag, length_store, hentries, runSize]
  omega

/-- What the encoder writes. -/
theorem encodeRun_eq_ok : encodeRun c = .ok b ↔ c.toList ≠ [] ∧
    (∀ e ∈ c.toList, namespacePrefix <+: e.1 ∧ e.1.length ≤ 1024) ∧ runSize c ≤ 256 * 1024 ∧
      b = runBytes false c.toList := by
  have hbytes : ascii "FFRUN001" ++ (store c.size 4 ++ c.toList.flatMap encodeEntry) =
      runBytes false c.toList := by
    rw [runBytes, funext encodeEntry_eq, Std.ExtTreeMap.length_toList]
    rfl
  rw [encodeRun, need_bind_eq_ok, bind_eq_ok]
  refine and_congr_right fun _ => ?_
  constructor
  · rintro ⟨_, hkeys, h⟩
    rw [hbytes] at h
    obtain ⟨hsize, h⟩ := need_bind_eq_ok.mp h
    rw [length_runBytes] at hsize
    exact ⟨fun e he => need_eq_ok.mp (forM_eq_ok.mp hkeys e he), hsize, (pure_eq_ok.mp h).symm⟩
  · rintro ⟨hkeys, hsize, rfl⟩
    refine ⟨(), forM_eq_ok.mpr fun e he => need_of (hkeys e he), ?_⟩
    rw [hbytes]
    refine need_bind_eq_ok.mpr ⟨?_, rfl⟩
    rwa [length_runBytes]

theorem Holdable.encodeRun_eq (hc : Holdable c) : encodeRun c = .ok (runBytes false c.toList) := by
  refine encodeRun_eq_ok.mpr ⟨hc.nonempty, fun e he => ?_, hc.size_le, rfl⟩
  exact ⟨(hc.runnable e he).key, (hc.runnable e he).length_le⟩

theorem Holdable.decodeRun_eq (hc : Holdable c) : decodeRun (runBytes false c.toList) = .ok c := by
  refine decodeRun_eq_ok.mpr ⟨false, c.toList, ⟨?_, ?_, ⟨hc.runnable, c.sorted_toList⟩, rfl⟩, ?_⟩
  · exact List.length_pos_iff.mpr hc.nonempty
  · have hlength := length_entries_ge hc.runnable
    have hbytes := length_runBytes c
    have hsize := hc.size_le
    rw [runBytes, List.length_append, List.length_append] at hbytes
    simp only [Bool.false_eq_true, if_false] at hlength
    omega
  · exact c.insertAll_toList_self.symm

/-- Encoder and decoder of runs are inverse to each other. -/
structure Exact : Prop where
  /-- What is encoded is decoded. -/
  decode_encode : ∀ c : Delta, Holdable c → ∃ b, encodeRun c = .ok b ∧ decodeRun b = .ok c
  /-- What is decoded is encoded, if it is not an old full map and not too long. -/
  encode_decode : ∀ b c, decodeRun b = .ok c → magic b "FFRUN001" → b.length ≤ 256 * 1024 →
    encodeRun c = .ok b
  /-- Only the encoding of a sorted list of valid entries is decoded. -/
  only : ∀ b c, decodeRun b = .ok c → ∃ full, IsRun full c.toList b
  /-- No access is outside the string. -/
  safe : ∀ b, scanRun b = lift (decodeRun b)

theorem runCodec_exact : Exact where
  decode_encode := fun c hc => ⟨_, hc.encodeRun_eq, hc.decodeRun_eq⟩
  encode_decode := by
    intro b c h hmagic hlength
    obtain ⟨full, l, ⟨hpos, -, hsorted, rfl⟩, rfl⟩ := decodeRun_eq_ok.mp h
    obtain rfl : full = false := by
      have htag := magic_runBytes.mp hmagic
      cases full with
      | true => exact absurd htag (by decide)
      | false => rfl
    have hlist := StdMap.toList_insertAll hsorted.increasing
    rw [encodeRun_eq_ok, ← length_runBytes, hlist]
    refine ⟨List.length_pos_iff.mp hpos, fun e he => ?_, hlength, rfl⟩
    exact ⟨(hsorted.runnable e he).key, (hsorted.runnable e he).length_le⟩
  only := by
    intro b c h
    obtain ⟨full, l, hrun, rfl⟩ := decodeRun_eq_ok.mp h
    rw [StdMap.toList_insertAll hrun.sorted.increasing]
    exact ⟨full, hrun⟩
  safe := scanRun_eq

end Codec

end ForkFs.NamespaceView
