import ForkFs.Catalog
import ForkFs.LevelStore.Objects

/-!
# The LevelDB store

One database holds the objects, the roots and the counters. A transaction validates all of its
mutations, then writes objects, roots and counters in one atomic batch. The caches of the source
hold only what the database holds and are left out, as is the flag of a failed write.
-/

namespace ForkFs

open Bytes

variable [Digest]

/-- The contents of a repository. -/
structure LevelStore where
  /-- The keyspace of objects. -/
  objects : ObjectStore
  /-- The keyspace of roots. -/
  roots : StdMap Bytes Hash
  /-- The number of committed batches. -/
  sequence : ℕ
  /-- The stored number of objects. -/
  objectCount : ℕ
  /-- The stored number of roots. -/
  rootCount : ℕ

/-- The object that a mutation binds its root to, if it binds one. -/
def Mutation.target (m : Mutation) : Option Hash :=
  match m.reference with
  | some id => some id
  | none => m.value.map objectHash

namespace LevelStore

/-- A new repository. -/
def create : LevelStore := ⟨.empty, ∅, 0, 0, 0⟩

/-- The reads of the store. -/
def catalog (s : LevelStore) : Catalog := ⟨true, s.roots, s.objects.object⟩

/-- The effect of a transaction while its mutations are validated. -/
structure Batch where
  /-- The changed roots. -/
  updates : StdMap Bytes (Option Hash)
  /-- The values to store, by identity. -/
  values : StdMap Hash Bytes
  /-- The size of these values. -/
  total : ℕ
  /-- The number of roots afterwards. -/
  rootCount : ℕ

/-- Validate one mutation. -/
def gatherOne (s : LevelStore) (g : Batch) (m : Mutation) : Except String Batch := do
  need (m.key ≠ [] ∧ m.key.length ≤ 1024 ∧ m.key ∉ g.updates) "invalid or duplicate root key"
  need (¬ (m.value.isSome ∧ m.reference.isSome)) "mutation has both value and reference"
  let added := if m.key ∈ s.roots then g.rootCount else g.rootCount + 1
  match m.reference, m.value with
  | some id, _ =>
    let _ ← s.objects.object id
    return { g with updates := g.updates.insert m.key (some id), rootCount := added }
  | none, some value =>
    need (value.length ≤ 256 * 1024) "object exceeds 256 KiB"
    let hash := objectHash value
    let total := if hash ∈ g.values then g.total else g.total + value.length
    need (total ≤ 16 * 1024 * 1024) "LevelDB batch exceeds 16 MiB"
    return ⟨g.updates.insert m.key (some hash), g.values.insertIfNew hash value, total, added⟩
  | none, none =>
    need (m.key ∈ s.roots) "cannot delete absent root"
    return { g with updates := g.updates.insert m.key none, rootCount := g.rootCount - 1 }

/-- Add one value to the batch unless its object exists, which is then compared. -/
def storeValue (s : LevelStore) (found : ObjectStore × ℕ) (e : Hash × Bytes) :
    Except String (ObjectStore × ℕ) :=
  match s.objects.payloads[e.1]? with
  | some previous => do
    need (previous = e.2) "immutable object collision/corruption"
    return found
  | none => return (found.1.put e.2, found.2 + 1)

/-- Commit a batch of mutations. -/
def transact (s : LevelStore) (expected : ℕ) (mutations : List Mutation) :
    Except String LevelStore := do
  need (expected = s.sequence) "transaction conflict: sequence changed"
  need (s.sequence ≠ 2 ^ 64 - 1) "transaction sequence exhausted"
  need (mutations ≠ [] ∧ mutations.length ≤ 4096) "LevelDB batch requires 1..4096 mutations"
  let g ← mutations.foldlM (gatherOne s) ⟨∅, ∅, 0, s.rootCount⟩
  let (objects, objectCount) ← g.values.toList.foldlM (storeValue s) (s.objects, s.objectCount)
  return ⟨objects, s.roots.override g.updates, s.sequence + 1, objectCount, g.rootCount⟩

/-- Check every object, every root and the counters. -/
def verify (s : LevelStore) : Except String Unit := do
  s.objects.payloads.toList.forM fun e => need (objectHash e.2 = e.1) "object checksum mismatch"
  s.roots.toList.forM fun e => discard (s.objects.object e.2)
  need (s.roots.size = s.rootCount ∧ s.objects.payloads.size = s.objectCount)
    "LevelDB count mismatch"

variable {s s' : LevelStore} {g g' : Batch} {m : Mutation} {mutations : List Mutation}
  {expected : ℕ}

section Gather

/-- What one accepted mutation adds to a batch. -/
structure Gathers (s : LevelStore) (g : Batch) (m : Mutation) (g' : Batch) : Prop where
  /-- The root was not changed before. -/
  fresh : m.key ∉ g.updates
  /-- It is bound to the target. -/
  updates : g'.updates = g.updates.insert m.key m.target
  /-- A value is stored unless one of its identity is. -/
  values : g'.values = match m.reference, m.value with
    | none, some value => g.values.insertIfNew (objectHash value) value
    | _, _ => g.values
  /-- A reference names an object. -/
  readable : ∀ id ∈ m.reference, ∃ b, s.objects.object id = .ok b
  /-- The count follows the roots. -/
  count : g.rootCount = (s.roots.override g.updates).size →
    g'.rootCount = (s.roots.override g'.updates).size

theorem gatherOne_eq_ok (h : gatherOne s g m = .ok g') : Gathers s g m g' := by
  unfold gatherOne at h
  obtain ⟨⟨-, -, hfresh⟩, h⟩ := need_bind_eq_ok.mp h
  obtain ⟨-, h⟩ := need_bind_eq_ok.mp h
  -- A root outside the updates is bound in the overridden map as it is in the store.
  have hmem : m.key ∈ s.roots.override g.updates ↔ m.key ∈ s.roots := by
    rw [StdMap.mem_iff, StdMap.mem_iff, StdMap.getElem?_override, StdMap.notMem_iff.mp hfresh]
  have hadded : ∀ id : Hash, g.rootCount = (s.roots.override g.updates).size →
      (if m.key ∈ s.roots then g.rootCount else g.rootCount + 1) =
        (s.roots.override (g.updates.insert m.key (some id))).size := by
    intro id hcount
    rw [s.roots.override_insert hfresh, hcount]
    simp only [StdMap.size_insert, hmem]
  cases href : m.reference with
  | some id =>
    simp only [href] at h
    obtain ⟨b, hb, h⟩ := Outcome.bind_eq_ok.mp h
    cases h
    refine ⟨hfresh, by simp [Mutation.target, href], by simp [href], ?_, hadded id⟩
    intro id' hid
    rw [href, Option.mem_some_iff] at hid
    exact ⟨b, hid ▸ hb⟩
  | none =>
    cases hval : m.value with
    | some value =>
      simp only [href, hval] at h
      obtain ⟨-, h⟩ := need_bind_eq_ok.mp h
      obtain ⟨-, h⟩ := need_bind_eq_ok.mp h
      cases h
      exact ⟨hfresh, by simp [Mutation.target, href, hval], by simp [href, hval],
        by simp [href], hadded (objectHash value)⟩
    | none =>
      simp only [href, hval] at h
      obtain ⟨hroot, h⟩ := need_bind_eq_ok.mp h
      cases h
      refine ⟨hfresh, by simp [Mutation.target, href, hval], by simp [href, hval],
        by simp [href], ?_⟩
      intro hcount
      rw [s.roots.override_insert hfresh, hcount]
      simp only [StdMap.size_erase, hmem, hroot, if_true]

/-- What the accepted mutations add to a batch. -/
structure GathersAll (s : LevelStore) (g : Batch) (mutations : List Mutation) (g' : Batch) :
    Prop where
  /-- The roots are distinct. -/
  nodup : (mutations.map Mutation.key).Nodup
  /-- None of them was changed before. -/
  fresh : ∀ m ∈ mutations, m.key ∉ g.updates
  /-- Each is bound to its target. -/
  updates : g'.updates = g.updates.insertAll (mutations.map fun m => (m.key, m.target))
  /-- Every stored value comes from a mutation. -/
  source : ∀ (id : Hash) b, g'.values[id]? = some b →
    g.values[id]? = some b ∨ ∃ m ∈ mutations, m.value = some b ∧ objectHash b = id
  /-- Values stay. -/
  keeps : ∀ id ∈ g.values, id ∈ g'.values
  /-- Every target is an object or one of the values. -/
  readable : ∀ m ∈ mutations, ∀ id ∈ m.target,
    (∃ b, s.objects.object id = .ok b) ∨ id ∈ g'.values
  /-- The count follows the roots. -/
  count : g.rootCount = (s.roots.override g.updates).size →
    g'.rootCount = (s.roots.override g'.updates).size

theorem Gathers.source (h : Gathers s g m g') {id : Hash} {b : Bytes}
    (hb : g'.values[id]? = some b) :
    g.values[id]? = some b ∨ m.value = some b ∧ objectHash b = id := by
  rw [h.values] at hb
  split at hb
  · rename_i value _ hvalue
    rw [StdMap.getElem?_insertIfNew] at hb
    split at hb
    · rename_i hid
      cases hb
      exact Or.inr ⟨hvalue, hid.1.symm⟩
    · exact Or.inl hb
  · exact Or.inl hb

theorem Gathers.keeps (h : Gathers s g m g') {id : Hash} (hid : id ∈ g.values) :
    id ∈ g'.values := by
  rw [h.values]
  split
  · rw [Std.ExtTreeMap.mem_insertIfNew]
    exact Or.inr hid
  · exact hid

theorem Gathers.target_readable (h : Gathers s g m g') {id : Hash} (hid : id ∈ m.target) :
    (∃ b, s.objects.object id = .ok b) ∨ id ∈ g'.values := by
  have hreadable := h.readable
  have hvalues := h.values
  rw [Mutation.target] at hid
  cases href : m.reference with
  | some ref =>
    rw [href] at hid
    exact Or.inl (hreadable id (href ▸ hid))
  | none =>
    rw [href] at hid hvalues
    obtain ⟨value, hvalue, rfl⟩ := Option.mem_map.mp hid
    rw [Option.mem_def.mp hvalue] at hvalues
    refine Or.inr ?_
    rw [hvalues]
    exact Std.ExtTreeMap.mem_insertIfNew_self

theorem gather_eq_ok (h : mutations.foldlM (gatherOne s) g = .ok g') :
    GathersAll s g mutations g' := by
  induction mutations generalizing g with
  | nil =>
    cases h
    exact ⟨List.nodup_nil, by simp, rfl, fun _ _ hb => Or.inl hb, fun _ hid => hid, by simp, id⟩
  | cons m mutations ih =>
    rw [List.foldlM_cons] at h
    obtain ⟨g₁, hone, hrest⟩ := Outcome.bind_eq_ok.mp h
    have hone := gatherOne_eq_ok hone
    have hrest := ih hrest
    have hfresh : ∀ m' ∈ mutations, m'.key ≠ m.key ∧ m'.key ∉ g.updates := by
      intro m' hm'
      have hnot := hrest.fresh m' hm'
      rw [hone.updates, Std.ExtTreeMap.mem_insert, compare_eq_iff_eq, not_or] at hnot
      exact ⟨fun heq => hnot.1 heq.symm, hnot.2⟩
    refine ⟨?_, ?_, ?_, ?_, fun id hid => hrest.keeps id (hone.keeps hid), ?_,
      fun hcount => hrest.count (hone.count hcount)⟩
    · rw [List.map_cons, List.nodup_cons]
      refine ⟨fun hmem => ?_, hrest.nodup⟩
      obtain ⟨m', hm', heq⟩ := List.mem_map.mp hmem
      exact (hfresh m' hm').1 heq
    · intro m' hm'
      rcases List.mem_cons.mp hm' with rfl | hm'
      · exact hone.fresh
      · exact (hfresh m' hm').2
    · rw [hrest.updates, hone.updates]
      rfl
    · intro id b hb
      rcases hrest.source id b hb with hb | ⟨m', hm', hb⟩
      · rcases hone.source hb with hb | hb
        · exact Or.inl hb
        · exact Or.inr ⟨m, by simp, hb⟩
      · exact Or.inr ⟨m', List.mem_cons_of_mem m hm', hb⟩
    · intro m' hm' id hid
      rcases List.mem_cons.mp hm' with rfl | hm'
      · exact (hone.target_readable hid).imp_right (hrest.keeps id)
      · exact hrest.readable m' hm' id hid

end Gather

section Objects

/-- The objects after some values of a batch were added. -/
structure Stores (s : LevelStore) (found : ObjectStore × ℕ) (values : List (Hash × Bytes))
    (found' : ObjectStore × ℕ) : Prop where
  /-- Objects stay. -/
  extends_ : found.1.Extends found'.1
  /-- New objects are values. -/
  contents : found'.1.contents ⊆ found.1.contents ∪ { b | ∃ e ∈ values, e.2 = b }
  /-- Every value is an object. -/
  stored : s.objects.Extends found.1 → (∀ e ∈ values, objectHash e.2 = e.1) →
    ∀ e ∈ values, ∃ b, found'.1.object e.1 = .ok b
  /-- The count follows the objects. -/
  count : (values.map Prod.fst).Nodup → (∀ e ∈ values, objectHash e.2 = e.1) →
    (∀ e ∈ values, e.1 ∈ found.1.payloads → e.1 ∈ s.objects.payloads) →
    found.2 = found.1.payloads.size → found'.2 = found'.1.payloads.size

theorem size_put (objects : ObjectStore) {b : Bytes} (h : objectHash b ∉ objects.payloads) :
    (objects.put b).payloads.size = objects.payloads.size + 1 := by
  change (objects.payloads.insertIfNew (objectHash b) b).size = _
  rw [Std.ExtTreeMap.size_insertIfNew, if_neg h]

theorem storeValues_eq_ok {values : List (Hash × Bytes)} {found found' : ObjectStore × ℕ}
    (h : values.foldlM (storeValue s) found = .ok found') : Stores s found values found' := by
  induction values generalizing found with
  | nil =>
    cases h
    exact ⟨.refl _, fun _ hb => Or.inl hb, by simp, fun _ _ _ hcount => hcount⟩
  | cons e values ih =>
    rw [List.foldlM_cons] at h
    obtain ⟨found₁, hone, hrest⟩ := Outcome.bind_eq_ok.mp h
    have hrest := ih hrest
    unfold storeValue at hone
    cases hprevious : s.objects.payloads[e.1]? with
    | some previous =>
      simp only [hprevious] at hone
      obtain ⟨-, hone⟩ := need_bind_eq_ok.mp hone
      cases hone
      refine ⟨hrest.extends_, ?_, ?_, ?_⟩
      · intro b hb
        rcases hrest.contents hb with hb | ⟨e', he', hb⟩
        · exact Or.inl hb
        · exact Or.inr ⟨e', List.mem_cons_of_mem e he', hb⟩
      · intro hext hhash e' he'
        rcases List.mem_cons.mp he' with rfl | he'
        · have hobject := ObjectStore.object_eq_ok.mpr hprevious
          exact ⟨_, hrest.extends_ _ _ (hext _ _ hobject)⟩
        · exact hrest.stored hext (fun x hx => hhash x (by simp [hx])) e' he'
      · intro hnodup hhash hold hcount
        rw [List.map_cons, List.nodup_cons] at hnodup
        exact hrest.count hnodup.2 (fun x hx => hhash x (by simp [hx]))
          (fun x hx => hold x (by simp [hx])) hcount
    | none =>
      simp only [hprevious] at hone
      cases hone
      refine ⟨(ObjectStore.extends_put _ _).trans hrest.extends_, ?_, ?_, ?_⟩
      · intro b hb
        rcases hrest.contents hb with hb | ⟨e', he', hb⟩
        · rcases ObjectStore.contents_put_subset hb with rfl | hb
          · exact Or.inr ⟨e, by simp⟩
          · exact Or.inl hb
        · exact Or.inr ⟨e', List.mem_cons_of_mem e he', hb⟩
      · intro hext hhash e' he'
        rcases List.mem_cons.mp he' with rfl | he'
        · rw [← hhash e' (by simp)]
          have hput : ∃ b, (found.1.put e'.2).object (objectHash e'.2) = .ok b := by
            rw [ObjectStore.object_put]
            split
            · exact ⟨_, rfl⟩
            · rename_i hnot
              obtain ⟨b, hb⟩ := Option.ne_none_iff_exists'.mp fun hnone => hnot ⟨rfl, hnone⟩
              exact ⟨b, ObjectStore.object_eq_ok.mpr hb⟩
          obtain ⟨b, hb⟩ := hput
          exact ⟨b, hrest.extends_ _ _ hb⟩
        · exact hrest.stored (hext.trans (ObjectStore.extends_put _ _))
            (fun x hx => hhash x (by simp [hx])) e' he'
      · intro hnodup hhash hold hcount
        rw [List.map_cons, List.nodup_cons] at hnodup
        have he := hhash e (by simp)
        have hnew : e.1 ∉ found.1.payloads := fun hmem =>
          StdMap.notMem_iff.mpr hprevious (hold e (by simp) hmem)
        refine hrest.count hnodup.2 (fun x hx => hhash x (by simp [hx])) ?_ ?_
        · intro x hx hmem
          have hput : x.1 ∈ found.1.payloads.insertIfNew (objectHash e.2) e.2 := hmem
          rw [Std.ExtTreeMap.mem_insertIfNew, compare_eq_iff_eq, he] at hput
          rcases hput with heq | hmem
          · exact absurd (heq ▸ List.mem_map_of_mem hx) hnodup.1
          · exact hold x (by simp [hx]) hmem
        · rw [size_put _ (he.symm ▸ hnew), hcount]

end Objects

section Transact

/-- The counters are right. -/
def Counted (s : LevelStore) : Prop :=
  s.objectCount = s.objects.payloads.size ∧ s.rootCount = s.roots.size

/-- Every root names an object. -/
def Named (s : LevelStore) : Prop :=
  ∀ (key : Bytes) id, s.roots[key]? = some id → ∃ b, s.objects.object id = .ok b

/-- The effect of a committed transaction. -/
structure Transacted (s : LevelStore) (mutations : List Mutation) (s' : LevelStore) : Prop where
  /-- The roots are distinct. -/
  nodup : (mutations.map Mutation.key).Nodup
  /-- One batch was committed. -/
  sequence : s'.sequence = s.sequence + 1
  /-- A changed root is bound to its target. -/
  bound : ∀ m ∈ mutations, s'.roots[m.key]? = m.target
  /-- The other roots are unchanged. -/
  frame : ∀ key ∉ mutations.map Mutation.key, s'.roots[key]? = s.roots[key]?
  /-- Objects stay. -/
  extends_ : s.objects.Extends s'.objects
  /-- New objects are values of mutations. -/
  contents : s'.objects.contents ⊆ s.objects.contents ∪ { b | ∃ m ∈ mutations, m.value = some b }
  /-- Every target is an object. -/
  readable : ∀ m ∈ mutations, ∀ id ∈ m.target, ∃ b, s'.objects.object id = .ok b
  /-- The counters stay right. -/
  counted : s.Counted → s'.Counted

theorem transact_eq_ok (h : s.transact expected mutations = .ok s') :
    Transacted s mutations s' := by
  unfold transact at h
  obtain ⟨-, h⟩ := need_bind_eq_ok.mp h
  obtain ⟨-, h⟩ := need_bind_eq_ok.mp h
  obtain ⟨-, h⟩ := need_bind_eq_ok.mp h
  obtain ⟨g, hgather, h⟩ := Outcome.bind_eq_ok.mp h
  obtain ⟨⟨objects, objectCount⟩, hstore, h⟩ := Outcome.bind_eq_ok.mp h
  cases h
  have hg := gather_eq_ok hgather
  have hs := storeValues_eq_ok hstore
  have hsource : ∀ e ∈ g.values.toList, (∃ m ∈ mutations, m.value = some e.2) ∧
      objectHash e.2 = e.1 := by
    intro e he
    rcases hg.source e.1 e.2 (StdMap.mem_toList.mp he) with hb | ⟨m, hm, hvalue, hhash⟩
    · simp at hb
    · exact ⟨⟨m, hm, hvalue⟩, hhash⟩
  have hnodup : ((mutations.map fun m => (m.key, m.target)).map Prod.fst).Nodup := by
    rw [List.map_map]
    exact hg.nodup
  have hupdates : ∀ (key : Bytes) o, g.updates[key]? = some o ↔
      (key, o) ∈ mutations.map fun m => (m.key, m.target) := by
    intro key o
    rw [hg.updates, StdMap.getElem?_insertAll hnodup]
    simp
  refine ⟨hg.nodup, rfl, ?_, ?_, hs.extends_, ?_, ?_, ?_⟩
  · intro m hm
    have hupdate := (hupdates m.key m.target).mpr (List.mem_map.mpr ⟨m, hm, rfl⟩)
    change (s.roots.override g.updates)[m.key]? = _
    rw [StdMap.getElem?_override, hupdate]
  · intro key hkey
    have hnone : g.updates[key]? = none := by
      rw [Option.eq_none_iff_forall_ne_some]
      intro o ho
      obtain ⟨m, hm, heq⟩ := List.mem_map.mp ((hupdates key o).mp ho)
      exact hkey (List.mem_map.mpr ⟨m, hm, congrArg Prod.fst heq⟩)
    change (s.roots.override g.updates)[key]? = _
    rw [StdMap.getElem?_override, hnone]
  · intro b hb
    rcases hs.contents hb with hb | ⟨e, he, rfl⟩
    · exact Or.inl hb
    · exact Or.inr (hsource e he).1
  · intro m hm id hid
    rcases hg.readable m hm id hid with ⟨b, hb⟩ | hmem
    · exact ⟨b, hs.extends_ id b hb⟩
    · obtain ⟨b, hb⟩ := StdMap.mem_iff.mp hmem
      exact hs.stored (.refl _) (fun e he => (hsource e he).2) (id, b) (StdMap.mem_toList.mpr hb)
  · intro hcounted
    refine ⟨hs.count g.values.nodup_toList (fun e he => (hsource e he).2) (fun _ _ hmem => hmem)
      hcounted.1, hg.count ?_⟩
    rw [hcounted.2]
    rfl

theorem Transacted.named (h : Transacted s mutations s') (hnamed : s.Named) : s'.Named := by
  intro key id hid
  by_cases hkey : key ∈ mutations.map Mutation.key
  · obtain ⟨m, hm, rfl⟩ := List.mem_map.mp hkey
    rw [h.bound m hm] at hid
    exact h.readable m hm id hid
  · rw [h.frame key hkey] at hid
    obtain ⟨b, hb⟩ := hnamed key id hid
    exact ⟨b, h.extends_ id b hb⟩

/-- A stored value reads back, unless identities collide. -/
theorem Transacted.object {payloads : Set Bytes} (h : Transacted s mutations s')
    (hcf : CollisionFree payloads) (hcontents : s.objects.contents ⊆ payloads)
    (hvalues : ∀ m ∈ mutations, ∀ b ∈ m.value, b ∈ payloads) (hm : m ∈ mutations)
    (href : m.reference = none) {b : Bytes} (hb : m.value = some b) :
    s'.objects.object (objectHash b) = .ok b := by
  have htarget : objectHash b ∈ m.target := by
    simp [Mutation.target, href, hb]
  obtain ⟨b', hb'⟩ := h.readable m hm _ htarget
  have hmem : b' ∈ payloads := by
    rcases h.contents (ObjectStore.mem_contents_of_object hb') with hold | ⟨m', hm', hvalue⟩
    · exact hcontents hold
    · exact hvalues m' hm' b' hvalue
  have heq : b' = b := hcf.injOn hmem (hvalues m hm b hb) (s'.objects.checked_object _ _ hb')
  rw [hb', heq]

/-- A store whose counters are right and whose roots name objects verifies. -/
theorem verify_of (hcounted : s.Counted) (hnamed : s.Named) : s.verify = .ok () := by
  have hobjects : (s.objects.payloads.toList.forM fun e =>
      need (objectHash e.2 = e.1) "object checksum mismatch") = .ok () := by
    apply Outcome.forM_eq_ok.mpr
    intro e he
    exact need_of (s.objects.checked e.1 e.2 (StdMap.mem_toList.mp he))
  have hroots : (s.roots.toList.forM fun e => discard (s.objects.object e.2)) = .ok () := by
    apply Outcome.forM_eq_ok.mpr
    intro e he
    obtain ⟨b, hb⟩ := hnamed e.1 e.2 (StdMap.mem_toList.mp he)
    rw [hb]
    rfl
  rw [verify, hobjects, Outcome.ok_bind, hroots, Outcome.ok_bind]
  exact need_of ⟨hcounted.2.symm, hcounted.1.symm⟩

end Transact

end LevelStore

end ForkFs
