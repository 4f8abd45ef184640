import ForkFs.NamespaceView.Image
import Mathlib.Data.List.Sort

/-!
# Reads of sorted runs

A view over runs answers single keys, lists of keys and the whole map by three separate merges. All
of them let the most recent run that mentions a key decide, so they are reads of one map. A run in
front of others overrides their map. Where an older occurrence of the same run is dropped the map
stays what it is.
-/

namespace ForkFs.NamespaceView

open Bytes Outcome

/-- A view whose reads are those of a map. -/
structure Presents [Digest] (v : NamespaceView) (m : StdMap Bytes Hash) : Prop where
  /-- Single keys. -/
  lookup : ∀ key, v.lookup key = .ok m[key]?
  /-- The keys with a beginning, in order. -/
  keys : ∀ pre, v.keys pre = .ok ((m.toList.map Prod.fst).filter (pre <+: ·))
  /-- The whole map. -/
  references : v.references = .ok m

section Merge

variable {runs : List Delta} {flat : StdMap Bytes Hash} {d : Delta}

theorem mergeRuns_cons (flat : StdMap Bytes Hash) (d : Delta) (runs : List Delta) :
    mergeRuns flat (d :: runs) = (mergeRuns flat runs).override d := by
  rw [mergeRuns, List.reverse_cons, List.foldl_append]
  rfl

/-- A change that was just made changes nothing. -/
theorem override_override (m : StdMap Bytes Hash) (d : Delta) :
    (m.override d).override d = m.override d := by
  apply StdMap.ext
  intro key
  rw [StdMap.getElem?_override]
  cases hd : d[key]? with
  | none => rfl
  | some target => rw [StdMap.getElem?_override, hd]

theorem findSome?_filter {α : Type} (p : Hash → Bool) {ids : List Hash} {f : Hash → Option α}
    (h : ∀ id ∈ ids, p id = false → f id = none) :
    (ids.filter p).findSome? f = ids.findSome? f := by
  induction ids with
  | nil => rfl
  | cons id ids ih =>
    have hrest := ih fun other hother => h other (List.mem_cons_of_mem _ hother)
    cases hp : p id with
    | true => rw [List.filter_cons_of_pos hp, List.findSome?_cons, List.findSome?_cons, hrest]
    | false =>
      rw [List.filter_cons_of_neg (by simp [hp]), List.findSome?_cons, hrest,
        h id List.mem_cons_self hp]

/-- Older occurrences of the run in front do not matter. -/
theorem mergeRuns_filter (p : Hash → Bool) {ids : List Hash} {run : Hash → Delta}
    (h : ∀ id ∈ ids, p id = false → run id = d) :
    mergeRuns flat (d :: (ids.filter p).map run) = mergeRuns flat (d :: ids.map run) := by
  apply StdMap.ext
  intro key
  rw [mergeRuns_cons, mergeRuns_cons, StdMap.getElem?_override, StdMap.getElem?_override]
  cases hd : d[key]? with
  | some target => rfl
  | none =>
    dsimp only
    rw [getElem?_mergeRuns, getElem?_mergeRuns, merged, merged, List.findSome?_map,
      List.findSome?_map, findSome?_filter p fun id hid hp => ?_]
    rw [Function.comp_apply, h id hid hp, hd]

/-- Runs with disjoint keys and no deletions merge to their union. -/
theorem mergeRuns_of_union {m : StdMap Bytes Hash}
    (hbound : ∀ d ∈ runs, ∀ key : Bytes, d[key]? ≠ some none)
    (hunion : ∀ (key : Bytes) id, m[key]? = some id ↔ ∃ d ∈ runs, d[key]? = some (some id)) :
    mergeRuns ∅ runs = m := by
  apply StdMap.ext
  intro key
  rw [getElem?_mergeRuns, merged]
  cases hfind : runs.findSome? (·[key]?) with
  | some target =>
    obtain ⟨d, hd, htarget⟩ := List.exists_of_findSome?_eq_some hfind
    cases target with
    | none => exact absurd htarget (hbound d hd key)
    | some id => exact ((hunion key id).mpr ⟨d, hd, htarget⟩).symm
  | none =>
    cases hm : m[key]? with
    | none => exact Std.ExtTreeMap.getElem?_empty
    | some id =>
      obtain ⟨d, hd, hid⟩ := (hunion key id).mp hm
      rw [List.findSome?_eq_none_iff.mp hfind d hd] at hid
      cases hid

end Merge

section Loading

variable {j j' : Catalog} {ids : List Hash} {runs : List Delta} {flat : StdMap Bytes Hash}

/-- The entries of a run that can be read. -/
def runOf (j : Catalog) (id : Hash) : Delta := ((run j id).toOption).getD ∅

theorem runOf_eq {id : Hash} {d : Delta} (h : run j id = .ok d) : runOf j id = d := by
  rw [runOf, h]
  rfl

/-- All runs are read. -/
theorem allRuns_eq_ok : allRuns j ids = .ok runs ↔
    (∀ id ∈ ids, run j id = .ok (runOf j id)) ∧ runs = ids.map (runOf j) := by
  constructor
  · intro h
    induction ids generalizing runs with
    | nil => exact ⟨fun _ hid => absurd hid List.not_mem_nil, (pure_eq_ok.mp h).symm⟩
    | cons id ids ih =>
      rw [allRuns, List.mapM_cons] at h
      obtain ⟨d, hd, h⟩ := bind_eq_ok.mp h
      obtain ⟨rest, hrest, h⟩ := bind_eq_ok.mp h
      obtain ⟨hall, rfl⟩ := ih hrest
      rw [← pure_eq_ok.mp h, List.map_cons, runOf_eq hd]
      refine ⟨fun other hother => ?_, rfl⟩
      rcases List.mem_cons.mp hother with rfl | hother
      · rw [hd, runOf_eq hd]
      · exact hall other hother
  · rintro ⟨hall, rfl⟩
    have h := mapM_map_of_ok (h := id) (f := run j) (g := runOf j) hall
    rwa [List.map_id] at h

/-- Runs that can be read stay what they are when objects are added. -/
theorem allRuns_mono (hext : ∀ id b, j.getObject id = .ok b → j'.getObject id = .ok b)
    (h : allRuns j ids = .ok runs) : allRuns j' ids = .ok runs := by
  obtain ⟨hall, rfl⟩ := allRuns_eq_ok.mp h
  have hsame : ∀ id ∈ ids, run j' id = .ok (runOf j id) := by
    intro id hid
    obtain ⟨b, hb, hd⟩ := bind_eq_ok.mp (hall id hid)
    rw [run, hext id b hb, ok_bind, hd]
  refine allRuns_eq_ok.mpr ⟨fun id hid => ?_, List.map_congr_left fun id hid => ?_⟩
  · rw [hsame id hid, runOf_eq (hsame id hid)]
  · exact (runOf_eq (hsame id hid)).symm

/-- The merge of runs that can be read fits into runs. -/
theorem allBindable_of_allRuns (h : allRuns j ids = .ok runs) : AllBindable (mergeRuns ∅ runs) := by
  intro key id hid
  rw [getElem?_mergeRuns, merged] at hid
  cases hfind : runs.findSome? (·[key]?) with
  | none =>
    rw [hfind, Option.getD_none, Std.ExtTreeMap.getElem?_empty] at hid
    cases hid
  | some target =>
    rw [hfind, Option.getD_some] at hid
    obtain ⟨d, hd, htarget⟩ := List.exists_of_findSome?_eq_some hfind
    obtain ⟨_, -, hrun⟩ := mem_of_mapM_eq_ok h hd
    obtain ⟨b, -, hb⟩ := bind_eq_ok.mp hrun
    exact bindable_of_decodeRun hb (htarget.trans (congrArg some hid))

/-- Valid changes keep it so. -/
theorem AllBindable.override {m : StdMap Bytes Hash} {changes : Delta} (hm : AllBindable m)
    (hchanges : ∀ e ∈ changes.toList, Runnable false e) : AllBindable (m.override changes) := by
  intro key id hid
  rw [StdMap.getElem?_override] at hid
  cases hchange : changes[key]? with
  | none =>
    rw [hchange] at hid
    exact hm key id hid
  | some target =>
    rw [hchange] at hid
    have hrunnable := hchanges (key, target) (StdMap.mem_toList.mpr hchange)
    have hnonzero : id ≠ Hash.zero := fun hzero => hrunnable.nonzero (hid.trans (congrArg some hzero))
    exact ⟨hrunnable.key, hrunnable.length_le, hnonzero⟩

end Loading

section Manifests

variable {j : Catalog} {ids : List Hash} {manifest : Bytes}

/-- The bytes of a manifest. -/
theorem encodeManifest_eq_ok : encodeManifest ids = .ok manifest ↔
    (ids ≠ [] ∧ ids.length ≤ 32) ∧
      manifest = ascii "FFMAN002" ++ (store ids.length 4 ++ (ids.map Subtype.val).flatten) := by
  rw [encodeManifest, need_bind_eq_ok, pure_eq_ok, List.flatMap_def, eq_comm (a := manifest)]

theorem length_flatten_ids (ids : List Hash) :
    (ids.map Subtype.val).flatten.length = ids.length * 32 := by
  induction ids with
  | nil => rfl
  | cons id ids ih =>
    rw [List.map_cons, List.flatten_cons, List.length_append, ih, id.property, List.length_cons]
    omega

theorem slice_flatten_ids (ids : List Hash) (i : ℕ) (hi : i < ids.length) :
    Hash.ofBytes (slice (ids.map Subtype.val).flatten (i * 32) 32) = ids[i] := by
  induction ids generalizing i with
  | nil => exact absurd hi (Nat.not_lt_zero _)
  | cons id ids ih =>
    rw [List.map_cons, List.flatten_cons]
    cases i with
    | zero =>
      rw [Nat.zero_mul, slice_append_self id.property, Hash.ofBytes_val]
      rfl
    | succ i =>
      have hstart : (i + 1) * 32 - id.val.length = i * 32 := by
        rw [id.property]
        omega
      rw [slice_append_right (by rw [id.property]; omega), hstart]
      exact ih i (Nat.lt_of_succ_lt_succ hi)

/-- A manifest of runs is read as those runs. -/
theorem readManifest_runs (h : encodeManifest ids = .ok manifest) {id : Hash}
    (hobject : j.getObject id = .ok manifest) {layout : Layout}
    (hread : readManifest j id = .ok layout) : layout = .runs ids := by
  obtain ⟨⟨-, hcount⟩, rfl⟩ := encodeManifest_eq_ok.mp h
  have hlength : (ascii "FFMAN002" ++ (store ids.length 4 ++ (ids.map Subtype.val).flatten)).length =
      12 + ids.length * 32 := by
    rw [List.length_append, List.length_append, length_store, length_flatten_ids]
    have htag : (ascii "FFMAN002").length = 8 := by decide
    omega
  have htag : slice (ascii "FFMAN002" ++ (store ids.length 4 ++ (ids.map Subtype.val).flatten)) 0 8 =
      ascii "FFMAN002" := slice_append_self (by decide)
  have hnumber : u32 ((ascii "FFMAN002" ++
      (store ids.length 4 ++ (ids.map Subtype.val).flatten)).drop 8) = .ok ids.length := by
    have hdrop : (ascii "FFMAN002" ++ (store ids.length 4 ++ (ids.map Subtype.val).flatten)).drop 8 =
        store ids.length 4 ++ (ids.map Subtype.val).flatten := List.drop_left' (by decide)
    have hfour : 4 ≤ (store ids.length 4 ++ (ids.map Subtype.val).flatten).length := by
      rw [List.length_append, length_store]
      omega
    have htake : (store ids.length 4 ++ (ids.map Subtype.val).flatten).take 4 =
        store ids.length 4 := List.take_left' (length_store _ _)
    rw [hdrop, u32, need_of hfour, ok_bind, htake, load_store_of_lt (by omega)]
    rfl
  have hids : (List.range ids.length).map (fun i => Hash.ofBytes (slice (ascii "FFMAN002" ++
      (store ids.length 4 ++ (ids.map Subtype.val).flatten)) (12 + i * 32) 32)) = ids := by
    refine List.ext_getElem (by simp) fun i hi hi' => ?_
    have hstart : 12 + i * 32 - (ascii "FFMAN002" ++ store ids.length 4).length = i * 32 := by
      rw [List.length_append, length_store, show (ascii "FFMAN002").length = 8 by decide]
      omega
    rw [List.getElem_map, List.getElem_range, ← List.append_assoc, slice_append_right, hstart,
      slice_flatten_ids ids i hi']
    rw [List.length_append, length_store, show (ascii "FFMAN002").length = 8 by decide]
    omega
  rw [readManifest, hobject, ok_bind, if_neg fun hcase => ?_, if_neg fun hcase => ?_] at hread
  · obtain ⟨-, hread⟩ := need_bind_eq_ok.mp hread
    obtain ⟨n, hn, hread⟩ := bind_eq_ok.mp hread
    cases hnumber.symm.trans hn
    obtain ⟨-, hread⟩ := need_bind_eq_ok.mp hread
    dsimp only at hread
    rw [hids] at hread
    obtain ⟨-, hread⟩ := need_bind_eq_ok.mp hread
    exact (pure_eq_ok.mp hread).symm
  · exact absurd (htag.symm.trans hcase.2) (by decide)
  · exact absurd (htag.symm.trans hcase.2) (by decide)

end Manifests

section Reads

variable {j : Catalog} {ids : List Hash} {runs : List Delta}

/-- The first run that mentions a key decides. -/
theorem lookupRuns_eq (h : allRuns j ids = .ok runs) (key : Bytes) :
    lookupRuns j key ids = .ok (merged ∅ runs key) := by
  induction ids generalizing runs with
  | nil =>
    cases pure_eq_ok.mp h
    exact congrArg Except.ok Std.ExtTreeMap.getElem?_empty.symm
  | cons id ids ih =>
    rw [allRuns, List.mapM_cons] at h
    obtain ⟨d, hd, h⟩ := bind_eq_ok.mp h
    obtain ⟨rest, hrest, h⟩ := bind_eq_ok.mp h
    cases pure_eq_ok.mp h
    rw [lookupRuns, hd, ok_bind, merged, List.findSome?_cons]
    cases d[key]? with
    | none => exact ih hrest
    | some target => rfl

/-- The first occurrence of a key is kept. -/
theorem getElem?_selected (pre key : Bytes) (runs : List Delta) (selected : Delta) :
    (runs.foldl (fun selected entries =>
        StdMap.emplaceAll selected (entries.toList.filter (pre <+: ·.1))) selected)[key]? =
      selected[key]?.or (if pre <+: key then runs.findSome? (·[key]?) else none) := by
  induction runs generalizing selected with
  | nil => simp
  | cons d runs ih =>
    have hnodup : ((d.toList.filter (pre <+: ·.1)).map Prod.fst).Nodup :=
      (d.nodup_toList).sublist (List.filter_sublist.map _)
    have hstep : (StdMap.emplaceAll selected (d.toList.filter (pre <+: ·.1)))[key]? =
        selected[key]?.or (if pre <+: key then d[key]? else none) := by
      apply Option.ext
      intro target
      rw [StdMap.getElem?_emplaceAll_of_nodup hnodup, List.mem_filter, StdMap.mem_toList]
      by_cases hpre : pre <+: key
      · cases selected[key]? <;> simp [hpre]
      · cases selected[key]? <;> simp [hpre]
    rw [List.foldl_cons, ih, hstep, List.findSome?_cons]
    by_cases hpre : pre <+: key
    · simp only [if_pos hpre]
      cases selected[key]? <;> cases d[key]? <;> rfl
    · simp [if_neg hpre]

/-- Runs present their merge. -/
theorem presents_runs [Digest] (h : allRuns j ids = .ok runs) :
    Presents ⟨j, .runs ids⟩ (mergeRuns ∅ runs) where
  lookup := by
    intro key
    rw [getElem?_mergeRuns]
    exact lookupRuns_eq h key
  keys := by
    intro pre
    rw [NamespaceView.keys]
    dsimp only
    rw [h, ok_bind]
    refine congrArg Except.ok (List.Pairwise.eq_of_mem_iff (r := (· < ·)) ?_ ?_ fun key => ?_)
    · exact List.pairwise_map.mpr ((StdMap.sorted_toList _).filter _)
    · exact (List.pairwise_map.mpr (StdMap.sorted_toList _)).filter _
    · simp only [List.mem_map, List.mem_filter, Prod.exists, StdMap.mem_toList, getElem?_selected,
        getElem?_mergeRuns, merged, decide_eq_true_eq]
      by_cases hpre : pre <+: key
      · cases hfind : runs.findSome? (·[key]?) with
        | none => simp [hpre, hfind]
        | some target => cases target <;> simp [hpre, hfind]
      · simp [hpre]
  references := by
    rw [NamespaceView.references]
    dsimp only
    rw [h]
    rfl

end Reads

end ForkFs.NamespaceView
