import Mathlib.Order.Compare
import Mathlib.Order.Lattice
import Mathlib.Order.Lex
import Std.Data.ExtTreeMap

/-!
# Ordered maps

`std::map` iterates in key order and two maps with the same bindings are the same map.
Both hold of `Std.ExtTreeMap`, which is used here at the comparison of a linear order.
`override` replays a map of edits, where a missing value deletes.
-/

/-- A finite map that is iterated in key order. -/
abbrev StdMap (K V : Type*) [LinearOrder K] := Std.ExtTreeMap K V (compare : K → K → Ordering)

namespace StdMap

variable {K V : Type*} [LinearOrder K]

instance instTransCmp : Std.TransCmp (compare : K → K → Ordering) := inferInstance

instance : Std.LawfulEqCmp (compare : K → K → Ordering) where
  eq_of_compare h := compare_eq_iff_eq.mp h

instance [DecidableEq V] : DecidableEq (StdMap K V) := fun a b =>
  decidable_of_iff (a.toList = b.toList) Std.ExtTreeMap.toList_inj

/-- A binding reads back, and the others are untouched. -/
theorem getElem?_insert (m : StdMap K V) (k x : K) (v : V) :
    (m.insert k v)[x]? = if x = k then some v else m[x]? := by
  rw [Std.ExtTreeMap.getElem?_insert]
  simp only [compare_eq_iff_eq, eq_comm (a := k)]

theorem getElem?_erase (m : StdMap K V) (k x : K) :
    (m.erase k)[x]? = if x = k then none else m[x]? := by
  rw [Std.ExtTreeMap.getElem?_erase]
  simp only [compare_eq_iff_eq, eq_comm (a := k)]

theorem ext {m n : StdMap K V} (h : ∀ k : K, m[k]? = n[k]?) : m = n :=
  Std.ExtTreeMap.ext_getElem? h

theorem mem_toList {m : StdMap K V} {k : K} {v : V} : (k, v) ∈ m.toList ↔ m[k]? = some v :=
  Std.ExtTreeMap.mem_toList_iff_getElem?_eq_some

/-- Iteration visits the keys in increasing order. -/
theorem sorted_toList (m : StdMap K V) : m.toList.Pairwise fun a b => a.1 < b.1 :=
  m.ordered_keys_toList.imp fun h => compare_lt_iff_lt.mp h

theorem nodup_toList (m : StdMap K V) : (m.toList.map Prod.fst).Nodup :=
  List.pairwise_map.mpr (m.sorted_toList.imp fun hlt => hlt.ne)

theorem mem_map_toList {m : StdMap K V} {k : K} : k ∈ m.toList.map Prod.fst ↔ k ∈ m := by
  rw [Std.ExtTreeMap.mem_iff_isSome_getElem?, Option.isSome_iff_exists]
  simp only [List.mem_map, Prod.exists, exists_and_right, exists_eq_right, mem_toList]

theorem size_insert (m : StdMap K V) (k : K) (v : V) :
    (m.insert k v).size = if k ∈ m then m.size else m.size + 1 := by
  simp only [Std.ExtTreeMap.size_insert, ← Std.ExtTreeMap.mem_iff_contains]

theorem size_erase (m : StdMap K V) (k : K) :
    (m.erase k).size = if k ∈ m then m.size - 1 else m.size := by
  simp only [Std.ExtTreeMap.size_erase, ← Std.ExtTreeMap.mem_iff_contains]

theorem getElem?_foldl_erase (m : StdMap K V) (keys : List K) (x : K) :
    (keys.foldl (fun m k => m.erase k) m)[x]? = if x ∈ keys then none else m[x]? := by
  induction keys generalizing m with
  | nil => simp
  | cons k keys ih =>
    rw [List.foldl_cons, ih, getElem?_erase]
    by_cases hx : x = k <;> by_cases hmem : x ∈ keys <;> simp [hx, hmem]

theorem notMem_iff {m : StdMap K V} {k : K} : k ∉ m ↔ m[k]? = none := by
  rw [Std.ExtTreeMap.mem_iff_isSome_getElem?, Option.not_isSome_iff_eq_none]

theorem mem_iff {m : StdMap K V} {k : K} : k ∈ m ↔ ∃ v, m[k]? = some v := by
  rw [Std.ExtTreeMap.mem_iff_isSome_getElem?, Option.isSome_iff_exists]

/-- Erasing distinct keys that are there. -/
theorem size_foldl_erase {m : StdMap K V} {keys : List K} (hnodup : keys.Nodup)
    (hmem : ∀ k ∈ keys, k ∈ m) :
    (keys.foldl (fun m k => m.erase k) m).size + keys.length = m.size := by
  induction keys generalizing m with
  | nil => simp
  | cons k keys ih =>
    obtain ⟨hk, hnodup⟩ := List.nodup_cons.mp hnodup
    have hsize := m.size_erase k
    rw [if_pos (hmem k (by simp))] at hsize
    have hpos : 0 < m.size := by
      rw [← Std.ExtTreeMap.length_toList]
      exact List.length_pos_of_mem (mem_toList.mpr (mem_iff.mp (hmem k (by simp))).choose_spec)
    rw [List.foldl_cons, List.length_cons, ← Nat.add_assoc, ih hnodup fun x hx => ?_]
    · omega
    · obtain ⟨v, hv⟩ := mem_iff.mp (hmem x (by simp [hx]))
      refine mem_iff.mpr ⟨v, ?_⟩
      rw [getElem?_erase, if_neg fun heq : x = k => hk (heq ▸ hx), hv]

/-- Bindings are kept or dropped by their keys. -/
theorem getElem?_filterKeys (m : StdMap K V) (p : K → Prop) [DecidablePred p] (x : K) :
    (m.filter fun k _ => p k)[x]? = if p x then m[x]? else none := by
  rw [Std.ExtTreeMap.getElem?_filter]
  simp only [Std.ExtTreeMap.getKey_eq, Option.pfilter_eq_filter]
  cases m[x]? <;> simp [Option.filter]

/-- A strictly sorted list with the bindings of a map is the map's iteration. -/
theorem toList_eq_of_sorted {m : StdMap K V} {l : List (K × V)}
    (hl : l.Pairwise fun a b => a.1 < b.1) (h : ∀ k v, (k, v) ∈ l ↔ m[k]? = some v) :
    m.toList = l := by
  refine List.Perm.eq_of_pairwise (fun a b _ _ hab hba => absurd hba (lt_asymm hab))
    m.sorted_toList hl ?_
  rw [List.perm_ext_iff_of_nodup (m.sorted_toList.imp fun hlt heq => hlt.ne (congrArg _ heq))
    (hl.imp fun hlt heq => hlt.ne (congrArg _ heq))]
  rintro ⟨k, v⟩
  rw [mem_toList, h]

/-- The iteration of a map with one more binding, in some order. -/
theorem toList_insert_perm {m : StdMap K V} {k : K} (h : k ∉ m) (v : V) :
    (m.insert k v).toList.Perm ((k, v) :: m.toList) := by
  have hnodup (n : StdMap K V) : n.toList.Nodup :=
    n.sorted_toList.imp fun hlt heq => hlt.ne (congrArg Prod.fst heq)
  have hnone : m[k]? = none := notMem_iff.mp h
  have hnew : ((k, v) :: m.toList).Nodup := by
    refine List.nodup_cons.mpr ⟨fun hmem => ?_, hnodup m⟩
    rw [mem_toList.mp hmem] at hnone
    cases hnone
  rw [List.perm_ext_iff_of_nodup (hnodup _) hnew]
  rintro ⟨x, w⟩
  rw [mem_toList, List.mem_cons, mem_toList, getElem?_insert, Prod.mk.injEq]
  split
  · rename_i hx
    subst hx
    simp [hnone, eq_comm]
  · simp [*]

/-- The iteration of a map with one binding less, in some order. -/
theorem toList_erase_perm {m : StdMap K V} {k : K} {v : V} (h : m[k]? = some v) :
    m.toList.Perm ((k, v) :: (m.erase k).toList) := by
  have herase : k ∉ m.erase k := by simp
  have hinsert : (m.erase k).insert k v = m := by
    apply ext
    intro x
    rw [getElem?_insert, getElem?_erase]
    split <;> simp [*]
  have hperm := toList_insert_perm herase v
  rwa [hinsert] at hperm

theorem getElem?_insertIfNew (m : StdMap K V) (k x : K) (v : V) :
    (m.insertIfNew k v)[x]? = if x = k ∧ m[k]? = none then some v else m[x]? := by
  rw [Std.ExtTreeMap.getElem?_insertIfNew]
  have hmem : k ∉ m ↔ m[k]? = none := by
    rw [Std.ExtTreeMap.mem_iff_isSome_getElem?, Option.not_isSome_iff_eq_none]
  simp only [compare_eq_iff_eq, eq_comm (a := k), hmem]

/-- Emplace a list of bindings, the first one of a key taking precedence. -/
def emplaceAll (m : StdMap K V) (l : List (K × V)) : StdMap K V :=
  l.foldl (fun m e => m.insertIfNew e.1 e.2) m

theorem emplaceAll_append (m : StdMap K V) (l l' : List (K × V)) :
    m.emplaceAll (l ++ l') = (m.emplaceAll l).emplaceAll l' :=
  List.foldl_append

/-- Emplacing new keys in sorted order adds exactly the listed bindings. -/
theorem getElem?_emplaceAll {m : StdMap K V} {l : List (K × V)}
    (hl : l.Pairwise fun a b => a.1 < b.1) (hnew : ∀ e ∈ l, m[e.1]? = none) (k : K) (v : V) :
    (m.emplaceAll l)[k]? = some v ↔ m[k]? = some v ∨ (k, v) ∈ l := by
  induction l generalizing m with
  | nil => simp [emplaceAll]
  | cons e l ih =>
    obtain ⟨hlt, hl⟩ := List.pairwise_cons.mp hl
    have hnone : m[e.1]? = none := hnew e (by simp)
    change (StdMap.emplaceAll (m.insertIfNew e.1 e.2) l)[k]? = some v ↔ _
    rw [ih hl fun e' he' => ?_, getElem?_insertIfNew, List.mem_cons]
    · by_cases hk : k = e.1
      · subst hk
        simp [hnone, Prod.ext_iff, eq_comm]
      · simp [hk, Prod.ext_iff]
    · rw [getElem?_insertIfNew, if_neg fun h => (hlt e' he').ne' h.1]
      exact hnew e' (by simp [he'])

theorem mem_emplaceAll {m : StdMap K V} {l : List (K × V)} {k : K} :
    k ∈ m.emplaceAll l ↔ k ∈ m ∨ k ∈ l.map Prod.fst := by
  induction l generalizing m with
  | nil => simp [emplaceAll]
  | cons e l ih =>
    change k ∈ StdMap.emplaceAll (m.insertIfNew e.1 e.2) l ↔ _
    rw [ih, Std.ExtTreeMap.mem_insertIfNew, compare_eq_iff_eq, List.map_cons, List.mem_cons,
      or_comm (a := e.1 = k), or_assoc, eq_comm]

/-- A binding after a list of emplacements is an old one or a listed one. -/
theorem mem_of_getElem?_emplaceAll {m : StdMap K V} {l : List (K × V)} {k : K} {v : V}
    (h : (m.emplaceAll l)[k]? = some v) : m[k]? = some v ∨ (k, v) ∈ l := by
  induction l generalizing m with
  | nil => exact Or.inl h
  | cons e l ih =>
    rcases ih h with hfirst | hrest
    · rw [getElem?_insertIfNew] at hfirst
      split at hfirst
      · rename_i hk
        cases hfirst
        exact Or.inr (by rw [hk.1]; exact List.mem_cons_self)
      · exact Or.inl hfirst
    · exact Or.inr (List.mem_cons_of_mem _ hrest)

/-- Of distinct keys, the missing ones are bound as listed. -/
theorem getElem?_emplaceAll_of_nodup {m : StdMap K V} {l : List (K × V)}
    (hl : (l.map Prod.fst).Nodup) (k : K) (v : V) :
    (m.emplaceAll l)[k]? = some v ↔ m[k]? = some v ∨ m[k]? = none ∧ (k, v) ∈ l := by
  induction l generalizing m with
  | nil => simp [emplaceAll]
  | cons e l ih =>
    rw [List.map_cons, List.nodup_cons] at hl
    change (StdMap.emplaceAll (m.insertIfNew e.1 e.2) l)[k]? = some v ↔ _
    rw [ih hl.2, getElem?_insertIfNew]
    by_cases hk : k = e.1
    · subst hk
      have hnot : (e.1, v) ∉ l := fun hmem => hl.1 (List.mem_map.mpr ⟨_, hmem, rfl⟩)
      cases hm : m[e.1]? <;> simp [hnot, Prod.ext_iff, eq_comm]
    · have hne : (k, v) ≠ e := fun heq => hk (congrArg Prod.fst heq)
      simp [hk, hne]

/-- Bind a list of keys in order. -/
def insertAll (m : StdMap K V) (l : List (K × V)) : StdMap K V :=
  l.foldl (fun m e => m.insert e.1 e.2) m

theorem mem_insertAll {m : StdMap K V} {l : List (K × V)} {k : K} :
    k ∈ m.insertAll l ↔ k ∈ m ∨ k ∈ l.map Prod.fst := by
  induction l generalizing m with
  | nil => simp [insertAll]
  | cons e l ih =>
    change k ∈ StdMap.insertAll (m.insert e.1 e.2) l ↔ _
    rw [ih, Std.ExtTreeMap.mem_insert, compare_eq_iff_eq, List.map_cons, List.mem_cons,
      or_comm (a := e.1 = k), or_assoc, eq_comm]

/-- A binding after a list of insertions is an old one or a listed one. -/
theorem mem_of_getElem?_insertAll {m : StdMap K V} {l : List (K × V)} {k : K} {v : V}
    (h : (m.insertAll l)[k]? = some v) : m[k]? = some v ∨ (k, v) ∈ l := by
  induction l generalizing m with
  | nil => exact Or.inl h
  | cons e l ih =>
    rcases ih h with hfirst | hrest
    · rw [getElem?_insert] at hfirst
      split at hfirst
      · rename_i hk
        cases hfirst
        exact Or.inr (by rw [hk]; exact List.mem_cons_self)
      · exact Or.inl hfirst
    · exact Or.inr (List.mem_cons_of_mem _ hrest)

/-- Distinct keys are bound as listed, and the others are untouched. -/
theorem getElem?_insertAll {m : StdMap K V} {l : List (K × V)} (hl : (l.map Prod.fst).Nodup)
    (k : K) (v : V) :
    (m.insertAll l)[k]? = some v ↔ (k, v) ∈ l ∨ k ∉ l.map Prod.fst ∧ m[k]? = some v := by
  induction l generalizing m with
  | nil => simp [insertAll]
  | cons e l ih =>
    rw [List.map_cons, List.nodup_cons] at hl
    change (StdMap.insertAll (m.insert e.1 e.2) l)[k]? = some v ↔ _
    rw [ih hl.2, getElem?_insert]
    by_cases hk : k = e.1
    · subst hk
      have hnot : (e.1, v) ∉ l := fun hmem =>
        hl.1 (List.mem_map.mpr ⟨_, hmem, rfl⟩)
      simp only [hnot, hl.1, if_true, not_false_eq_true, true_and, false_or, List.mem_cons,
        List.map_cons, not_true_eq_false, false_and, or_false, Option.some.injEq]
      constructor
      · rintro rfl
        rfl
      · intro heq
        exact (congrArg Prod.snd heq).symm
    · have hne : (k, v) ≠ e := fun heq => hk (congrArg Prod.fst heq)
      simp only [hk, if_false, List.mem_cons, hne, false_or, List.map_cons]

/-- Only the bindings of the list matter, not its order. -/
theorem insertAll_toList {m : StdMap K V} {l : List (K × V)} (hl : (l.map Prod.fst).Nodup) :
    m.insertAll (insertAll ∅ l).toList = m.insertAll l := by
  have hmem : ∀ k v, (k, v) ∈ (insertAll ∅ l).toList ↔ (k, v) ∈ l := by
    intro k v
    rw [mem_toList, getElem?_insertAll hl]
    simp
  have hnodup := (insertAll ∅ l).nodup_toList
  have hkeys : ∀ k, k ∈ (insertAll ∅ l).toList.map Prod.fst ↔ k ∈ l.map Prod.fst := by
    intro k
    simp only [List.mem_map, Prod.exists, exists_and_right, exists_eq_right, hmem]
  apply ext
  intro k
  apply Option.ext
  intro v
  rw [getElem?_insertAll hnodup, getElem?_insertAll hl, hmem, hkeys]

/-- A sorted list is the iteration of its map. -/
theorem toList_insertAll {l : List (K × V)} (hl : l.Pairwise fun a b => a.1 < b.1) :
    (insertAll ∅ l).toList = l := by
  have hnodup : (l.map Prod.fst).Nodup := List.pairwise_map.mpr (hl.imp fun hlt => hlt.ne)
  refine toList_eq_of_sorted hl fun k v => ?_
  rw [getElem?_insertAll hnodup]
  simp

theorem insertAll_toList_self (m : StdMap K V) : insertAll ∅ m.toList = m := by
  refine Std.ExtTreeMap.toList_inj.mp ?_
  exact toList_insertAll m.sorted_toList

theorem size_insertAll {m : StdMap K V} {l : List (K × V)} (hl : (l.map Prod.fst).Nodup)
    (hnew : ∀ e ∈ l, e.1 ∉ m) : (m.insertAll l).size = m.size + l.length := by
  induction l generalizing m with
  | nil => rfl
  | cons e l ih =>
    rw [List.map_cons, List.nodup_cons] at hl
    change (StdMap.insertAll (m.insert e.1 e.2) l).size = _
    have hcontains : ¬ m.contains e.1 = true := fun h =>
      hnew e (by simp) (Std.ExtTreeMap.mem_iff_contains.mpr h)
    rw [ih hl.2, Std.ExtTreeMap.size_insert, if_neg hcontains, List.length_cons]
    · omega
    · intro e' he' hmem
      rw [Std.ExtTreeMap.mem_insert, compare_eq_iff_eq] at hmem
      rcases hmem with heq | hmem
      · exact hl.1 (heq ▸ List.mem_map_of_mem he')
      · exact hnew e' (by simp [he']) hmem

theorem emplaceAll_toList (m : StdMap K V) : emplaceAll ∅ m.toList = m := by
  apply ext
  intro k
  apply Option.ext
  intro v
  rw [getElem?_emplaceAll m.sorted_toList (by simp), mem_toList]
  simp

/-- Replay edits over a map: a value binds, no value deletes. -/
def override (m : StdMap K V) (edits : StdMap K (Option V)) : StdMap K V :=
  edits.foldl (fun m k o => match o with
    | some v => m.insert k v
    | none => m.erase k) m

private theorem getElem?_foldl_edits (m : StdMap K V) (l : List (K × Option V))
    (hl : l.Pairwise fun a b => a.1 < b.1) (x : K) :
    (l.foldl (fun m e => match e.2 with
      | some v => m.insert e.1 v
      | none => m.erase e.1) m)[x]? =
      match l.find? (fun e => e.1 = x) with
      | some e => e.2
      | none => m[x]? := by
  induction l generalizing m with
  | nil => rfl
  | cons e l ih =>
    obtain ⟨hlt, hl⟩ := List.pairwise_cons.mp hl
    rw [List.foldl_cons, ih _ hl, List.find?_cons]
    by_cases hx : e.1 = x
    · have hnone : l.find? (fun e => e.1 = x) = none := by
        rw [List.find?_eq_none]
        intro e' he' heq
        have := hlt e' he'
        simp only [decide_eq_true_eq] at heq
        rw [heq, hx] at this
        exact lt_irrefl _ this
      rw [hnone]
      simp only [hx, decide_true]
      cases e.2 with
      | none => simp
      | some v => simp
    · simp only [hx, decide_false]
      have hx' : x ≠ e.1 := Ne.symm hx
      cases e.2 with
      | none => simp [getElem?_erase, hx']
      | some v => simp [getElem?_insert, hx']

/-- The edits win, and keys they do not mention keep their binding. -/
theorem getElem?_override (m : StdMap K V) (edits : StdMap K (Option V)) (x : K) :
    (m.override edits)[x]? = match edits[x]? with
      | some o => o
      | none => m[x]? := by
  unfold override
  rw [Std.ExtTreeMap.foldl_eq_foldl_toList, getElem?_foldl_edits m _ edits.sorted_toList]
  cases hx : edits[x]? with
  | none =>
    have : edits.toList.find? (fun e => e.1 = x) = none := by
      rw [List.find?_eq_none]
      rintro ⟨k, o⟩ hmem heq
      simp only [decide_eq_true_eq] at heq
      rw [mem_toList, heq, hx] at hmem
      exact absurd hmem (by simp)
    rw [this]
  | some o =>
    have : edits.toList.find? (fun e => e.1 = x) = some (x, o) := by
      rw [List.find?_eq_some_iff_append]
      refine ⟨by simp, ?_⟩
      obtain ⟨as, bs, hsplit⟩ := List.append_of_mem (mem_toList.mpr hx)
      refine ⟨as, bs, hsplit, fun a ha => ?_⟩
      have hsorted := edits.sorted_toList
      rw [hsplit, List.pairwise_append] at hsorted
      have := hsorted.2.2 a ha (x, o) (by simp)
      simpa using this.ne
    rw [this]

/-- An edit of a key that was not edited before is the last one to be replayed. -/
theorem override_insert (m : StdMap K V) {edits : StdMap K (Option V)} {k : K} (h : k ∉ edits)
    (o : Option V) :
    m.override (edits.insert k o) =
      match o with
      | some v => (m.override edits).insert k v
      | none => (m.override edits).erase k := by
  apply ext
  intro x
  rw [getElem?_override, getElem?_insert]
  by_cases hx : x = k
  · subst hx
    cases o with
    | none => simp
    | some v => simp
  · rw [if_neg hx]
    cases o with
    | none => simp [hx, getElem?_erase, getElem?_override]
    | some v => simp [hx, getElem?_insert, getElem?_override]

end StdMap
