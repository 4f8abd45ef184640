import ForkFs.Container.Collect
import ForkFs.Lib.EpochCache

/-!
# The caches of the LevelDB store

Root facts are cached for one sequence number, payloads until a collection prunes them. Any number
of readers take their steps between those of the one transaction or collection that holds the
mutex of the store, which itself reads roots and referenced objects through the caches. Its batch
is applied to the database first and its sequence number is advanced in a later step. Of what a
read of a root returns, `contains` is whether it is a value and `root` fails without one.
-/

namespace ForkFs

open Bytes

section Caches

variable [Digest]

namespace LevelStore

/-- What a transaction or collection does up to its batch: reads through the caches, then a
failure or the contents after the batch. -/
inductive Script
  /-- The end. -/
  | finish (result : Except String LevelStore)
  /-- Whether a root exists. -/
  | contains (key : Bytes) (next : Bool → Script)
  /-- An object that must be readable. -/
  | object (id : Hash) (next : Script)

namespace Script

/-- Fail unless a condition holds. -/
def check (ok : Prop) [Decidable ok] (message : String) (next : Script) : Script :=
  if ok then next else finish (.error message)

/-- Validate mutations in order. -/
def gather (next : Batch → Script) : List Mutation → Batch → Script
  | [], g => next g
  | m :: mutations, g =>
    check (m.key ≠ [] ∧ m.key.length ≤ 1024 ∧ m.key ∉ g.updates) "invalid or duplicate root key" <|
    check (¬ (m.value.isSome ∧ m.reference.isSome)) "mutation has both value and reference" <|
    contains m.key fun found =>
      let added := if found then g.rootCount else g.rootCount + 1
      match m.reference, m.value with
      | some id, _ =>
        object id <|
        gather next mutations
          { g with updates := g.updates.insert m.key (some id), rootCount := added }
      | none, some value =>
        let hash := objectHash value
        let total := if hash ∈ g.values then g.total else g.total + value.length
        check (value.length ≤ 256 * 1024) "object exceeds 256 KiB" <|
        check (total ≤ 16 * 1024 * 1024) "LevelDB batch exceeds 16 MiB" <|
        gather next mutations
          ⟨g.updates.insert m.key (some hash), g.values.insertIfNew hash value, total, added⟩
      | none, none =>
        check found "cannot delete absent root" <|
        gather next mutations
          { g with updates := g.updates.insert m.key none, rootCount := g.rootCount - 1 }

/-- Check that roots exist, in order. -/
def require (next : Script) : List Bytes → Script
  | [] => next
  | key :: keys =>
    contains key fun found => check found "GC root disappeared" <| require next keys

/-- A transaction on a database, with the sequence number that the store knows. -/
def transact (s : LevelStore) (sequence expected : ℕ) (mutations : List Mutation) : Script :=
  check (expected = sequence) "transaction conflict: sequence changed" <|
  check (sequence ≠ 2 ^ 64 - 1) "transaction sequence exhausted" <|
  check (mutations ≠ [] ∧ mutations.length ≤ 4096) "LevelDB batch requires 1..4096 mutations" <|
  gather (fun g => finish do
    -- Objects of the values are looked up in the database itself.
    let (objects, objectCount) ← g.values.toList.foldlM (storeValue s) (s.objects, s.objectCount)
    return ⟨objects, s.roots.override g.updates, sequence + 1, objectCount, g.rootCount⟩)
    mutations ⟨∅, ∅, 0, s.rootCount⟩

/-- A collection on a database. -/
def collect (s : LevelStore) (sequence expected : ℕ) (live : Finset Hash) (obsolete : List Bytes) :
    Script :=
  check (sequence = expected ∧ expected ≠ 2 ^ 64 - 1) "GC sequence conflict" <|
  check (∀ id ∈ live, id ∈ s.objects.payloads) "GC live object missing" <|
  let objects := s.objects.retain live
  let removed := s.objects.payloads.size - objects.payloads.size
  require (check (removed ≤ s.objectCount ∧ obsolete.length ≤ s.rootCount) "invalid GC counters" <|
    finish (.ok ⟨objects, obsolete.foldl (fun roots key => roots.erase key) s.roots,
      expected + 1, s.objectCount - removed, s.rootCount - obsolete.length⟩)) obsolete

/-- The result when every read is answered by the database. -/
def eval (s : LevelStore) : Script → Except String LevelStore
  | finish result => result
  | contains key next => eval s (next (key ∈ s.roots))
  | object id next => do
    let _ ← s.objects.object id
    eval s next

variable {s : LevelStore} {mutations : List Mutation} {next : Script}

theorem eval_check {ok : Prop} [Decidable ok] {message : String} :
    (check ok message next).eval s = need ok message >>= fun _ => next.eval s := by
  unfold check need
  split
  · rfl
  · rfl

theorem eval_gather {next : Batch → Script} (g : Batch) :
    (gather next mutations g).eval s =
      mutations.foldlM (gatherOne s) g >>= fun g => (next g).eval s := by
  induction mutations generalizing g with
  | nil => rfl
  | cons m mutations ih =>
    rw [List.foldlM_cons, gather, gatherOne]
    simp only [eval_check, bind_assoc, eval, decide_eq_true_eq]
    congr 1
    funext _
    congr 1
    funext _
    cases m.reference with
    | some id => simp only [eval, bind_assoc, ih, pure_bind]
    | none =>
      cases m.value with
      | some value => simp only [eval_check, bind_assoc, ih, pure_bind]
      | none => simp only [eval_check, bind_assoc, ih, pure_bind]

theorem eval_require (keys : List Bytes) :
    (require next keys).eval s =
      need (∀ key ∈ keys, key ∈ s.roots) "GC root disappeared" >>= fun _ => next.eval s := by
  induction keys with
  | nil => rw [need_of (by simp), require, Outcome.ok_bind]
  | cons key keys ih =>
    rw [require, eval, eval_check, ih]
    by_cases hkey : key ∈ s.roots
    · rw [need_of (by simpa using hkey), Outcome.ok_bind]
      simp only [List.forall_mem_cons, hkey, true_and]
    · have hnot : ¬ ∀ key' ∈ key :: keys, key' ∈ s.roots := fun h => hkey (h key (by simp))
      rw [need_of_not hnot]
      simp only [hkey, decide_false]
      rfl

/-- A transaction whose reads are answered by the database. -/
theorem eval_transact (expected : ℕ) :
    (transact s s.sequence expected mutations).eval s = s.transact expected mutations := by
  unfold transact LevelStore.transact
  rw [eval_check, eval_check, eval_check, eval_gather]
  rfl

/-- A collection whose reads are answered by the database. -/
theorem eval_collect (expected : ℕ) (live : Finset Hash) (obsolete : List Bytes) :
    (collect s s.sequence expected live obsolete).eval s =
      Prod.snd <$> s.collect expected live obsolete := by
  unfold collect LevelStore.collect
  rw [eval_check, eval_check]
  simp only [eval_require, eval_check, map_bind]
  rfl

end Script

/-- A transaction or a collection. -/
inductive Job
  /-- Commit mutations at an expected sequence number. -/
  | transact (expected : ℕ) (mutations : List Mutation)
  /-- Delete all but the live objects, and obsolete roots. -/
  | collect (expected : ℕ) (live : Finset Hash) (obsolete : List Bytes)

namespace Job

/-- What a job does up to its batch. -/
def script (s : LevelStore) (sequence : ℕ) : Job → Script
  | transact expected mutations => .transact s sequence expected mutations
  | collect expected live obsolete => .collect s sequence expected live obsolete

/-- What a job does without caches. -/
def outcome (s : LevelStore) : Job → Except String LevelStore
  | transact expected mutations => s.transact expected mutations
  | collect expected live obsolete => Prod.snd <$> s.collect expected live obsolete

/-- A collection prunes the cached payloads. -/
def prunes : Job → Bool
  | transact _ _ => false
  | collect _ _ _ => true

variable {s s' : LevelStore} {job : Job}

theorem eval_script (s : LevelStore) (job : Job) :
    (job.script s s.sequence).eval s = job.outcome s := by
  cases job with
  | transact expected mutations => exact Script.eval_transact expected
  | collect expected live obsolete => exact Script.eval_collect expected live obsolete

theorem sequence_of_outcome (h : job.outcome s = .ok s') : s'.sequence = s.sequence + 1 := by
  cases job with
  | transact expected mutations => exact (transact_eq_ok h).sequence
  | collect expected live obsolete =>
    obtain ⟨⟨removed, _⟩, hcollect, rfl⟩ := Outcome.map_eq_ok.mp h
    unfold LevelStore.collect at hcollect
    obtain ⟨hsequence, hcollect⟩ := need_bind_eq_ok.mp hcollect
    obtain ⟨-, hcollect⟩ := need_bind_eq_ok.mp hcollect
    obtain ⟨-, hcollect⟩ := need_bind_eq_ok.mp hcollect
    obtain ⟨-, hcollect⟩ := need_bind_eq_ok.mp hcollect
    cases hcollect
    exact congrArg (· + 1) hsequence.1.symm

theorem readable_of_gather {mutations : List Mutation} {m : Mutation} {id : Hash} {g g' : Batch}
    (h : mutations.foldlM (gatherOne s) g = .ok g') (hm : m ∈ mutations) (hid : id ∈ m.reference) :
    ∃ b, s.objects.object id = .ok b := by
  induction mutations generalizing g with
  | nil => cases hm
  | cons m' mutations ih =>
    rw [List.foldlM_cons] at h
    obtain ⟨g₁, hone, hrest⟩ := Outcome.bind_eq_ok.mp h
    rcases List.mem_cons.mp hm with rfl | hm
    · exact (gatherOne_eq_ok hone).readable id hid
    · exact ih hrest hm

/-- The references of a transaction are readable before it. -/
theorem readable_of_transact {expected : ℕ} {mutations : List Mutation} {m : Mutation} {id : Hash}
    (h : s.transact expected mutations = .ok s') (hm : m ∈ mutations) (hid : id ∈ m.reference) :
    ∃ b, s.objects.object id = .ok b := by
  unfold LevelStore.transact at h
  obtain ⟨-, h⟩ := need_bind_eq_ok.mp h
  obtain ⟨-, h⟩ := need_bind_eq_ok.mp h
  obtain ⟨-, h⟩ := need_bind_eq_ok.mp h
  obtain ⟨g, hgather, -⟩ := Outcome.bind_eq_ok.mp h
  exact readable_of_gather hgather hm hid

/-- Only a collection deletes objects. -/
theorem extends_of_outcome (h : job.outcome s = .ok s') (hjob : job.prunes = false) :
    s.objects.Extends s'.objects := by
  cases job with
  | transact expected mutations => exact (transact_eq_ok h).extends_
  | collect expected live obsolete => cases hjob

end Job

/-- The party that holds the mutex of the store. -/
inductive Writer
  /-- There is none. -/
  | idle
  /-- A job reads, the root it asks for last through the cache of roots. -/
  | working (job : Job) (script : Script) (read : CachedRead Bytes (Option Hash))
  /-- Its batch is applied, its sequence number not yet advanced. -/
  | written (job : Job)
  /-- It failed before its batch. -/
  | rejected (job : Job) (message : String)

end LevelStore

open LevelStore

/-- A store with its caches, its readers and its writer. -/
structure CachedStore (ι : Type) where
  /-- The contents of the database. -/
  database : LevelStore
  /-- The earlier contents, the latest first. -/
  past : List LevelStore
  /-- The sequence number that the process knows. -/
  sequence : ℕ
  /-- The cached presence, absence and identities of roots. -/
  rootCache : EpochCache Bytes (Option Hash)
  /-- The cached payloads. -/
  objectCache : StdMap Hash Bytes
  /-- The capacity for payloads. -/
  objectCacheBytes : ℕ
  /-- The reads in progress. -/
  readers : ι → CachedRead Bytes (Option Hash)
  /-- The transaction or collection in progress. -/
  writer : Writer

/-- One step of a party. -/
inductive CacheEvent (ι : Type)
  /-- A reader takes the epoch and looks a root up. -/
  | start (reader : ι) (key : Bytes)
  /-- A reader reads the database. -/
  | fetch (reader : ι)
  /-- A reader installs what it read if it may, and returns. -/
  | install (reader : ι)
  /-- An object is read while no job is in progress. -/
  | object (id : Hash)
  /-- A payload is evicted. -/
  | evict (id : Hash)
  /-- A job takes the mutex. -/
  | begin (job : Job)
  /-- The job in progress takes its next step. -/
  | work

namespace CachedStore

variable {ι : Type}

/-- A store after it was opened. -/
def opened (ι : Type) (database : LevelStore) (objectCacheBytes : ℕ) : CachedStore ι where
  database := database
  past := []
  sequence := database.sequence
  rootCache := ⟨2 ^ 64 - 1, ∅⟩
  objectCache := ∅
  objectCacheBytes := objectCacheBytes
  readers _ := .idle
  writer := .idle

/-- The value of a root in the database. -/
def fetch (s : CachedStore ι) (read : CachedRead Bytes (Option Hash)) :
    CachedRead Bytes (Option Hash) :=
  read.fetch fun key => s.database.roots[key]?

/-- Keep what was read of a root unless a commit intervened. -/
def install (s : CachedStore ι) (read : CachedRead Bytes (Option Hash)) :
    EpochCache Bytes (Option Hash) × CachedRead Bytes (Option Hash) :=
  s.rootCache.install 4096 (fun key _ => key.length ≤ 1024) s.sequence read

/-- Read an object, and keep its payload unless it is large. -/
def object (s : CachedStore ι) (id : Hash) : Except String Bytes × StdMap Hash Bytes :=
  match s.objectCache[id]? with
  | some b => (.ok b, s.objectCache)
  | none =>
    match s.database.objects.object id with
    | .error message => (.error message, s.objectCache)
    | .ok b =>
      (.ok b,
        if b.length + 24 + 32 ≤ s.objectCacheBytes / 16 then s.objectCache.insert id b
        else s.objectCache)

/-- The next step of a job that reads. -/
def proceed (s : CachedStore ι) (job : Job) :
    Script → CachedRead Bytes (Option Hash) → CachedStore ι
  | .contains key next, .idle =>
    let found := s.rootCache.start s.sequence key
    { s with rootCache := found.1, writer := .working job (.contains key next) found.2 }
  | .contains key next, .missed k epoch =>
    { s with writer := .working job (.contains key next) (s.fetch (.missed k epoch)) }
  | .contains key next, .fetched k epoch value =>
    let kept := s.install (.fetched k epoch value)
    { s with rootCache := kept.1, writer := .working job (.contains key next) kept.2 }
  | .contains _ next, .done _ _ value => { s with writer := .working job (next value.isSome) .idle }
  | .object id next, read =>
    match s.object id with
    | (.ok _, objectCache) =>
      { s with objectCache := objectCache, writer := .working job next read }
    | (.error message, _) => { s with writer := .working job (.finish (.error message)) read }
  | .finish (.ok database), _ =>
    { s with database := database, past := s.database :: s.past, writer := .written job }
  | .finish (.error message), _ => { s with writer := .rejected job message }

/-- The next step of the job in progress. -/
def work (s : CachedStore ι) : Option (CachedStore ι) :=
  match s.writer with
  | .idle => none
  | .working job script read => some (s.proceed job script read)
  | .written job =>
    some { s with
      sequence := s.sequence + 1
      objectCache := if job.prunes then ∅ else s.objectCache
      writer := .idle }
  | .rejected _ _ => some { s with writer := .idle }

/-- One step, none if the party cannot take it. -/
def step [DecidableEq ι] (s : CachedStore ι) : CacheEvent ι → Option (CachedStore ι)
  | .start reader key =>
    match s.readers reader with
    | .missed _ _ => none
    | .fetched _ _ _ => none
    | _ =>
      let found := s.rootCache.start s.sequence key
      some { s with rootCache := found.1, readers := Function.update s.readers reader found.2 }
  | .fetch reader =>
    some { s with readers := Function.update s.readers reader (s.fetch (s.readers reader)) }
  | .install reader =>
    let kept := s.install (s.readers reader)
    some { s with rootCache := kept.1, readers := Function.update s.readers reader kept.2 }
  | .object id =>
    match s.writer with
    | .idle => some { s with objectCache := (s.object id).2 }
    | _ => none
  | .evict id => some { s with objectCache := s.objectCache.erase id }
  | .begin job =>
    match s.writer with
    | .idle => some { s with writer := .working job (job.script s.database s.sequence) .idle }
    | _ => none
  | .work => s.work

/-- The steps of an interleaving. -/
def run [DecidableEq ι] (s : CachedStore ι) (events : List (CacheEvent ι)) :
    Option (CachedStore ι) :=
  events.foldlM step s

section Coherence

/-- Everything that the database has held so far. -/
def databases (s : CachedStore ι) : List LevelStore := s.database :: s.past

/-- A root had a value in the database at or after a commit. -/
def Since (databases : List LevelStore) (epoch : ℕ) (key : Bytes) (value : Option Hash) : Prop :=
  ∃ d ∈ databases, epoch ≤ d.sequence ∧ d.roots[key]? = value

/-- A job waits for the root that it asks for, in the current epoch. -/
def Awaits (sequence : ℕ) : Script → CachedRead Bytes (Option Hash) → Prop
  | .contains key _, read => read = .idle ∨ read.Of key sequence
  | _, read => read = .idle

/-- What holds of the job in progress. -/
def Prepared (s : CachedStore ι) : Writer → Prop
  | .idle => s.sequence = s.database.sequence
  | .working job script read =>
    s.sequence = s.database.sequence ∧ script.eval s.database = job.outcome s.database ∧
      read.Valid (Since s.databases) ∧ Awaits s.sequence script read
  | .written job =>
    s.sequence + 1 = s.database.sequence ∧
      ∃ d rest, s.past = d :: rest ∧ job.outcome d = .ok s.database
  | .rejected job message =>
    s.sequence = s.database.sequence ∧ job.outcome s.database = .error message

/-- A collection has deleted objects and not yet pruned the cached payloads. -/
def Pruning : Writer → Prop
  | .written job => job.prunes = true
  | _ => False

/-- What holds in every interleaving. -/
structure Coherent (s : CachedStore ι) : Prop where
  /-- Sequence numbers grow. -/
  past : ∀ d ∈ s.past, d.sequence < s.database.sequence
  /-- Cached facts were read in their epoch. -/
  facts : s.rootCache.Valid (Since s.databases)
  /-- So were the values in the hands of readers. -/
  readers : ∀ r, (s.readers r).Valid (Since s.databases)
  /-- Their epochs have begun. -/
  epochs : ∀ r key epoch, (s.readers r).Of key epoch → epoch ≤ s.sequence
  /-- The job in progress does what it does without caches. -/
  writer : s.Prepared s.writer
  /-- Cached payloads are stored. -/
  objects : ¬ Pruning s.writer → ∀ (id : Hash) b, s.objectCache[id]? = some b →
    s.database.objects.object id = .ok b

variable {s s' : CachedStore ι} {databases databases' : List LevelStore} {epoch : ℕ} {key : Bytes}
  {value : Option Hash}

theorem Since.mono (h : Since databases epoch key value) (hsub : databases ⊆ databases') :
    Since databases' epoch key value := by
  obtain ⟨d, hd, hepoch, hvalue⟩ := h
  exact ⟨d, hsub hd, hepoch, hvalue⟩

theorem awaits_idle (sequence : ℕ) (script : Script) : Awaits sequence script .idle := by
  cases script with
  | finish result => rfl
  | contains key next => exact Or.inl rfl
  | object id next => rfl

theorem coherent_opened (database : LevelStore) (objectCacheBytes : ℕ) :
    (opened ι database objectCacheBytes).Coherent where
  past d hd := by cases hd
  facts key value hvalue := by simp [opened] at hvalue
  readers r := trivial
  epochs r key epoch h := h.elim
  writer := rfl
  objects _ id b hb := by simp [opened] at hb

theorem Coherent.sequence_le (h : s.Coherent) : s.sequence ≤ s.database.sequence := by
  have hwriter := h.writer
  unfold Prepared at hwriter
  split at hwriter
  · exact hwriter.le
  · exact hwriter.1.le
  · omega
  · exact hwriter.1.le

/-- The value in the database stands for every epoch so far. -/
theorem Coherent.since (h : s.Coherent) (hepoch : epoch ≤ s.sequence) :
    Since s.databases epoch key s.database.roots[key]? :=
  ⟨s.database, by simp [CachedStore.databases], hepoch.trans h.sequence_le, rfl⟩

/-- While no batch is ahead of the sequence number, only the database stands for it. -/
theorem Coherent.eq_of_since (h : s.Coherent) (hsequence : s.sequence = s.database.sequence)
    (hsince : Since s.databases s.sequence key value) : s.database.roots[key]? = value := by
  obtain ⟨d, hd, hepoch, hvalue⟩ := hsince
  rcases List.mem_cons.mp hd with rfl | hd
  · exact hvalue
  · have hlt := h.past d hd
    omega

/-- A read of an object is that of the database. -/
theorem Coherent.object_eq (h : s.Coherent) (hwriter : ¬ Pruning s.writer) (id : Hash) :
    (s.object id).1 = s.database.objects.object id ∧
      ∀ (id' : Hash) b, (s.object id).2[id']? = some b → s.database.objects.object id' = .ok b := by
  unfold object
  cases hcached : s.objectCache[id]? with
  | some b => exact ⟨(h.objects hwriter id b hcached).symm, h.objects hwriter⟩
  | none =>
    cases hobject : s.database.objects.object id with
    | error message => exact ⟨rfl, h.objects hwriter⟩
    | ok b =>
      refine ⟨rfl, fun id' b' hb' => ?_⟩
      dsimp only at hb'
      split at hb'
      · rw [StdMap.getElem?_insert] at hb'
        split at hb'
        · rename_i hid
          cases hb'
          rw [hid, hobject]
        · exact h.objects hwriter id' b' hb'
      · exact h.objects hwriter id' b' hb'

/-- A step of one reader. -/
theorem Coherent.update [DecidableEq ι] (h : s.Coherent) {c : EpochCache Bytes (Option Hash)}
    {read : CachedRead Bytes (Option Hash)} (r : ι) (hc : c.Valid (Since s.databases))
    (hread : read.Valid (Since s.databases))
    (hepoch : ∀ key epoch, read.Of key epoch → epoch ≤ s.sequence) :
    { s with rootCache := c, readers := Function.update s.readers r read }.Coherent where
  past := h.past
  facts := hc
  readers := (Function.forall_update_iff s.readers fun _ read => read.Valid _).mpr
    ⟨hread, fun r' _ => h.readers r'⟩
  epochs := (Function.forall_update_iff s.readers fun _ read =>
    ∀ key epoch, read.Of key epoch → epoch ≤ s.sequence).mpr ⟨hepoch, fun r' _ => h.epochs r'⟩
  writer := h.writer
  objects := h.objects

/-- A read in progress and the database. -/
theorem Coherent.fetch (h : s.Coherent) {read : CachedRead Bytes (Option Hash)}
    (hread : read.Valid (Since s.databases))
    (hepoch : ∀ key epoch, read.Of key epoch → epoch ≤ s.sequence) :
    (s.fetch read).Valid (Since s.databases) :=
  hread.fetch fun _ _ hof => h.since (hepoch _ _ hof)

theorem Coherent.install (h : s.Coherent) {read : CachedRead Bytes (Option Hash)}
    (hread : read.Valid (Since s.databases)) :
    (s.install read).1.Valid (Since s.databases) ∧ (s.install read).2.Valid (Since s.databases) :=
  EpochCache.Valid.install h.facts hread

/-- A step of a job that asks for a root. -/
theorem Coherent.await (h : s.Coherent) {job : Job} {next : Bool → Script}
    {read read' : CachedRead Bytes (Option Hash)} {c : EpochCache Bytes (Option Hash)}
    (hwriter : s.writer = .working job (.contains key next) read)
    (hc : c.Valid (Since s.databases)) (hread : read'.Valid (Since s.databases))
    (hof : read'.Of key s.sequence) :
    { s with rootCache := c, writer := .working job (.contains key next) read' }.Coherent where
  past := h.past
  facts := hc
  readers := h.readers
  epochs := h.epochs
  writer := by
    have hprepared := h.writer
    rw [hwriter] at hprepared
    exact ⟨hprepared.1, hprepared.2.1, hread, Or.inr hof⟩
  objects _ := h.objects (by simp [hwriter, Pruning])

/-- A step of a job to the rest of its script. -/
theorem Coherent.continue (h : s.Coherent) {job : Job} {script script' : Script}
    {read : CachedRead Bytes (Option Hash)} {objectCache : StdMap Hash Bytes}
    (hwriter : s.writer = .working job script read)
    (heval : script'.eval s.database = script.eval s.database)
    (hobjects : ∀ (id : Hash) b, objectCache[id]? = some b →
      s.database.objects.object id = .ok b) :
    { s with objectCache := objectCache, writer := .working job script' .idle }.Coherent where
  past := h.past
  facts := h.facts
  readers := h.readers
  epochs := h.epochs
  writer := by
    have hprepared := h.writer
    rw [hwriter] at hprepared
    exact ⟨hprepared.1, heval.trans hprepared.2.1, trivial, awaits_idle _ _⟩
  objects _ := hobjects

/-- A batch is applied. -/
theorem Coherent.written (h : s.Coherent) {job : Job} {read : CachedRead Bytes (Option Hash)}
    {database : LevelStore} (hwriter : s.writer = .working job (.finish (.ok database)) read) :
    { s with
      database := database
      past := s.database :: s.past
      writer := .written job }.Coherent := by
  have hprepared := h.writer
  rw [hwriter] at hprepared
  obtain ⟨hsequence, houtcome, -, -⟩ := hprepared
  have hnext : database.sequence = s.database.sequence + 1 := Job.sequence_of_outcome houtcome.symm
  have hgrow : ∀ epoch key value, Since s.databases epoch key value →
      Since (database :: s.database :: s.past) epoch key value := fun epoch key value hsince =>
    hsince.mono (List.subset_cons_self _ _)
  refine ⟨?_, h.facts.mono hgrow, fun r => (h.readers r).mono hgrow, h.epochs,
    ⟨hsequence ▸ hnext.symm, _, _, rfl, houtcome.symm⟩, ?_⟩
  · intro d hd
    rcases List.mem_cons.mp hd with rfl | hd
    · exact hnext ▸ Nat.lt_succ_self _
    · exact (h.past d hd).trans (hnext ▸ Nat.lt_succ_self _)
  · intro hpruning id b hb
    have hjob : job.prunes = false := Bool.eq_false_iff.mpr hpruning
    refine Job.extends_of_outcome houtcome.symm hjob id b ?_
    exact h.objects (by simp [hwriter, Pruning]) id b hb

theorem Coherent.proceed (h : s.Coherent) {job : Job} {script : Script}
    {read : CachedRead Bytes (Option Hash)} (hwriter : s.writer = .working job script read) :
    (s.proceed job script read).Coherent := by
  have hpruning : ¬ Pruning s.writer := by simp [hwriter, Pruning]
  have hprepared := h.writer
  rw [hwriter] at hprepared
  obtain ⟨hsequence, heval, hvalid, hawaits⟩ := hprepared
  cases script with
  | contains key next =>
    rcases hawaits with rfl | hof
    · exact h.await hwriter (h.facts.start _ key).1 (h.facts.start _ key).2
        (EpochCache.of_start _ _ _)
    cases read with
    | idle => exact hof.elim
    | missed k epoch =>
      exact h.await hwriter h.facts (h.fetch hvalid fun k e hk => by
        obtain ⟨rfl, rfl⟩ := hk
        exact hof.2.le) ((CachedRead.of_fetch _).mpr hof)
    | fetched k epoch value =>
      have hinstall := h.install hvalid
      exact h.await hwriter hinstall.1 hinstall.2 (EpochCache.of_install.mpr hof)
    | done k epoch value =>
      obtain ⟨rfl, rfl⟩ := hof
      refine h.continue hwriter ?_ (h.objects hpruning)
      -- The root was read in the epoch of the database.
      have hvalue := h.eq_of_since hsequence hvalid
      rw [Script.eval, ← hvalue]
      congr 2
      rw [Bool.eq_iff_iff, decide_eq_true_iff, Std.ExtTreeMap.mem_iff_isSome_getElem?]
  | object id next =>
    cases (hawaits : read = .idle)
    have hobject := h.object_eq hpruning id
    unfold CachedStore.proceed
    dsimp only
    split
    · rename_i b objectCache hread
      rw [hread] at hobject
      refine h.continue hwriter ?_ hobject.2
      rw [Script.eval, ← hobject.1]
      rfl
    · rename_i message objectCache hread
      rw [hread] at hobject
      refine h.continue hwriter ?_ (h.objects hpruning)
      rw [Script.eval, Script.eval, ← hobject.1]
      rfl
  | finish result =>
    cases result with
    | ok database => exact h.written hwriter
    | error message =>
      exact ⟨h.past, h.facts, h.readers, h.epochs, ⟨hsequence, heval.symm⟩,
        fun _ => h.objects hpruning⟩

/-- A job ends. -/
theorem Coherent.work (h : s.Coherent) (hstep : s.work = some s') : s'.Coherent := by
  unfold CachedStore.work at hstep
  have hprepared := h.writer
  have hobjects := h.objects
  cases hwriter : s.writer with
  | idle =>
    rw [hwriter] at hstep
    cases hstep
  | working job script read =>
    rw [hwriter] at hstep
    cases hstep
    exact h.proceed hwriter
  | written job =>
    rw [hwriter] at hstep hprepared hobjects
    cases hstep
    refine ⟨h.past, h.facts, h.readers, fun r key epoch hof => ?_, hprepared.1, ?_⟩
    · exact (h.epochs r key epoch hof).trans (Nat.le_succ _)
    · intro _ id b hb
      dsimp only at hb
      split at hb
      · simp at hb
      · rename_i hprunes
        exact hobjects hprunes id b hb
  | rejected job message =>
    rw [hwriter] at hstep hprepared hobjects
    cases hstep
    exact ⟨h.past, h.facts, h.readers, h.epochs, hprepared.1, fun _ => hobjects id⟩

variable [DecidableEq ι] {events : List (CacheEvent ι)}

/-- Every step keeps the caches coherent. -/
theorem Coherent.step {event : CacheEvent ι} (h : s.Coherent) (hstep : s.step event = some s') :
    s'.Coherent := by
  cases event with
  | start r key =>
    have hstart := h.facts.start s.sequence key
    have hepoch : ∀ k epoch, (s.rootCache.start s.sequence key).2.Of k epoch →
        epoch ≤ s.sequence := fun k epoch hof => ((EpochCache.of_start _ _ _).eq_epoch hof).le
    unfold CachedStore.step at hstep
    dsimp only at hstep
    split at hstep
    · cases hstep
    · cases hstep
    · cases hstep
      exact h.update r hstart.1 hstart.2 hepoch
  | fetch r =>
    cases hstep
    exact h.update r h.facts (h.fetch (h.readers r) (h.epochs r)) fun k epoch hof =>
      h.epochs r k epoch ((CachedRead.of_fetch _).mp hof)
  | install r =>
    cases hstep
    have hinstall := h.install (h.readers r)
    exact h.update r hinstall.1 hinstall.2 fun k epoch hof =>
      h.epochs r k epoch (EpochCache.of_install.mp hof)
  | object id =>
    unfold CachedStore.step at hstep
    dsimp only at hstep
    split at hstep
    · cases hstep
      exact ⟨h.past, h.facts, h.readers, h.epochs, h.writer, fun hpruning =>
        (h.object_eq hpruning id).2⟩
    · cases hstep
  | evict id =>
    cases hstep
    refine ⟨h.past, h.facts, h.readers, h.epochs, h.writer, fun hpruning id' b hb => ?_⟩
    dsimp only at hb
    rw [StdMap.getElem?_erase] at hb
    split at hb
    · cases hb
    · exact h.objects hpruning id' b hb
  | begin job =>
    unfold CachedStore.step at hstep
    dsimp only at hstep
    split at hstep
    · rename_i hwriter
      have hsequence := h.writer
      rw [hwriter] at hsequence
      cases hstep
      refine ⟨h.past, h.facts, h.readers, h.epochs, ⟨hsequence, ?_, trivial, ?_⟩, fun _ =>
        h.objects (by simp [hwriter, Pruning])⟩
      · rw [hsequence, Job.eval_script]
      · exact awaits_idle _ _
    · cases hstep
  | work => exact h.work hstep

theorem run_cons (s : CachedStore ι) (event : CacheEvent ι) (events : List (CacheEvent ι)) :
    s.run (event :: events) = s.step event >>= fun s => s.run events :=
  List.foldlM_cons

/-- In every interleaving the caches are coherent. -/
theorem Coherent.run (h : s.Coherent) (hrun : s.run events = some s') : s'.Coherent := by
  induction events generalizing s with
  | nil =>
    cases hrun
    exact h
  | cons event events ih =>
    rw [run_cons] at hrun
    obtain ⟨s₁, hstep, hrest⟩ := Option.bind_eq_some_iff.mp hrun
    exact ih (h.step hstep) hrest

omit [DecidableEq ι] in
theorem readers_work (h : s.work = some s') : s'.readers = s.readers := by
  unfold work at h
  split at h
  · cases h
  · cases h
    unfold proceed
    split
    · rfl
    · rfl
    · rfl
    · rfl
    · split
      · rfl
      · rfl
    · rfl
    · rfl
  · cases h
    rfl
  · cases h
    rfl

/-- A read goes on until its reader starts another. -/
theorem of_step {event : CacheEvent ι} {r : ι} (hstep : s.step event = some s')
    (hevent : ∀ k, event ≠ .start r k) (hof : (s.readers r).Of key epoch) :
    (s'.readers r).Of key epoch := by
  cases event with
  | start r' k =>
    unfold CachedStore.step at hstep
    dsimp only at hstep
    have hr : r ≠ r' := fun hr => hevent k (hr ▸ rfl)
    split at hstep
    · cases hstep
    · cases hstep
    · cases hstep
      dsimp only
      rwa [Function.update_of_ne hr]
  | fetch r' =>
    cases hstep
    dsimp only
    by_cases hr : r = r'
    · subst hr
      rw [Function.update_self]
      exact (CachedRead.of_fetch _).mpr hof
    · rwa [Function.update_of_ne hr]
  | install r' =>
    cases hstep
    dsimp only
    by_cases hr : r = r'
    · subst hr
      rw [Function.update_self]
      exact EpochCache.of_install.mpr hof
    · rwa [Function.update_of_ne hr]
  | object id =>
    unfold CachedStore.step at hstep
    dsimp only at hstep
    split at hstep
    · cases hstep
      exact hof
    · cases hstep
  | evict id =>
    cases hstep
    exact hof
  | begin job =>
    unfold CachedStore.step at hstep
    dsimp only at hstep
    split at hstep
    · cases hstep
      exact hof
    · cases hstep
  | work => rwa [readers_work hstep]

theorem of_run {r : ι} (hrun : s.run events = some s')
    (hevents : ∀ event ∈ events, ∀ k, event ≠ .start r k) (hof : (s.readers r).Of key epoch) :
    (s'.readers r).Of key epoch := by
  induction events generalizing s with
  | nil =>
    cases hrun
    exact hof
  | cons event events ih =>
    rw [run_cons] at hrun
    obtain ⟨s₁, hstep, hrest⟩ := Option.bind_eq_some_iff.mp hrun
    exact ih hrest (fun e he => hevents e (List.mem_cons_of_mem _ he))
      (of_step hstep (hevents event (by simp)) hof)

theorem of_step_start {r : ι} (h : s.step (.start r key) = some s') :
    (s'.readers r).Of key s.sequence := by
  unfold CachedStore.step at h
  dsimp only at h
  split at h
  · cases h
  · cases h
  · cases h
    dsimp only
    rw [Function.update_self]
    exact EpochCache.of_start _ _ _

/-- Nothing that the caches answer differs from what the database answers. -/
structure Transparent (s : CachedStore ι) : Prop where
  /-- A read of a root that starts now returns a value that the database had at or after every
  commit whose sequence number is advanced. -/
  roots : ∀ r key s₁ events s₂ k epoch value, s.step (.start r key) = some s₁ →
    s₁.run events = some s₂ → (∀ event ∈ events, ∀ k, event ≠ .start r k) →
    s₂.readers r = .done k epoch value →
    ∃ d ∈ s₂.databases, s.sequence ≤ d.sequence ∧ d.roots[key]? = value
  /-- An object read between jobs succeeds exactly if the object is stored. -/
  objects : s.writer = .idle → ∀ id b,
    (s.object id).1 = .ok b ↔ s.database.objects.payloads[id]? = some b
  /-- A job writes what it writes without caches. -/
  written : ∀ job script read s', s.writer = .working job script read → s.step .work = some s' →
    s'.writer = .written job → job.outcome s.database = .ok s'.database
  /-- A job fails as it fails without caches. -/
  rejected : ∀ job message, s.writer = .rejected job message →
    job.outcome s.database = .error message
  /-- An object that a written transaction refers to is stored. -/
  references : ∀ expected mutations script read s' m id,
    s.writer = .working (.transact expected mutations) script read → s.step .work = some s' →
    s'.writer = .written (.transact expected mutations) → m ∈ mutations → id ∈ m.reference →
    id ∈ s.database.objects.payloads

omit [DecidableEq ι] in
/-- Only the end of a script writes. -/
theorem finish_of_written {job : Job} {script : Script} {read : CachedRead Bytes (Option Hash)}
    (h : (s.proceed job script read).writer = .written job) :
    script = .finish (.ok (s.proceed job script read).database) := by
  unfold proceed at h ⊢
  split at h
  · cases h
  · cases h
  · cases h
  · cases h
  · split at h
    · cases h
    · cases h
  · rfl
  · cases h

theorem Coherent.transparent (h : s.Coherent) : s.Transparent := by
  have hwritten : ∀ job script read s', s.writer = .working job script read →
      s.step .work = some s' → s'.writer = .written job →
      job.outcome s.database = .ok s'.database := by
    intro job script read s' hwriter hstep hnext
    have hprepared := h.writer
    rw [CachedStore.step, CachedStore.work, hwriter] at hstep
    rw [hwriter] at hprepared
    cases hstep
    rw [← hprepared.2.1, finish_of_written hnext]
    rfl
  refine ⟨?_, ?_, hwritten, ?_, ?_⟩
  · intro r key s₁ events s₂ k epoch value hstart hrun hevents hdone
    have hof := of_run hrun hevents (of_step_start hstart)
    have hvalid := ((h.step hstart).run hrun).readers r
    rw [hdone] at hof hvalid
    obtain ⟨rfl, rfl⟩ := hof
    exact hvalid
  · intro hwriter id b
    rw [(h.object_eq (by simp [hwriter, Pruning]) id).1]
    exact ObjectStore.object_eq_ok
  · intro job message hwriter
    have hprepared := h.writer
    rw [hwriter] at hprepared
    exact hprepared.2
  · intro expected mutations script read s' m id hwriter hstep hnext hm hid
    obtain ⟨b, hb⟩ := Job.readable_of_transact (hwritten _ _ _ _ hwriter hstep hnext) hm hid
    exact StdMap.mem_iff.mpr ⟨b, ObjectStore.object_eq_ok.mp hb⟩

/-- The caches are transparent in every interleaving. -/
theorem caches_transparent {database : LevelStore} {objectCacheBytes : ℕ}
    (h : (opened ι database objectCacheBytes).run events = some s) : s.Transparent :=
  ((coherent_opened database objectCacheBytes).run h).transparent

end Coherence

end CachedStore

end Caches

namespace CachedStore

open LevelStore

section Samples

local instance cachesDigest : Digest := sha256

/-- A reader misses a root, a transaction binds it, and two readers read it. -/
def sampleInterleaving : List (CacheEvent ℕ) :=
  [.start 0 (ascii "a"), .fetch 0,
    .begin (.transact 0 [⟨ascii "a", some (ascii "x"), none⟩]), .work, .work, .work, .work, .work,
    .install 0, .work, .start 1 (ascii "a"), .fetch 1, .install 1, .start 2 (ascii "a")]

/-- The transaction is committed, and the last reader is answered by the cache. -/
theorem caches_transparent_sample :
    ∃ s, (opened ℕ .create 8388608).run sampleInterleaving = some s ∧ s.sequence = 1 ∧
      s.rootCache.facts.size = 1 ∧ s.Transparent := by
  have hcheck : (match (opened ℕ .create 8388608).run sampleInterleaving with
      | none => false
      | some s => decide (s.sequence = 1 ∧ s.rootCache.facts.size = 1)) = true := by
    decide +kernel
  cases hrun : (opened ℕ .create 8388608).run sampleInterleaving with
  | none => simp [hrun] at hcheck
  | some s =>
    simp only [hrun, decide_eq_true_eq] at hcheck
    exact ⟨s, rfl, hcheck.1, hcheck.2, caches_transparent hrun⟩

end Samples

end CachedStore

end ForkFs
