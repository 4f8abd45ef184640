import ForkFs.NamespaceView.RunCodec

/-!
# The image that a compaction writes

A full compaction merges the runs of a World over its flat roots and writes the merged map as
new runs, cut where the next entry would exceed 64 KiB. The cut is a partition of the sorted
entries into nonempty consecutive parts, so the runs have disjoint increasing key ranges and their
union is the map. No tombstone is written: an image has no older runs that it must hide.
-/

namespace ForkFs.NamespaceView

open Bytes Outcome

section Merge

/-- The object of a key under runs, the most recent first, over a flat map. -/
def merged (flat : StdMap Bytes Hash) (runs : List Delta) (key : Bytes) : Option Hash :=
  (runs.findSome? (·[key]?)).getD flat[key]?

/-- The merge lets the most recent run that mentions a key decide. -/
theorem getElem?_mergeRuns (flat : StdMap Bytes Hash) (runs : List Delta) (key : Bytes) :
    (mergeRuns flat runs)[key]? = merged flat runs key := by
  induction runs with
  | nil => rfl
  | cons d runs ih =>
    have hstep : mergeRuns flat (d :: runs) = (mergeRuns flat runs).override d := by
      rw [mergeRuns, List.reverse_cons, List.foldl_append]
      rfl
    rw [hstep, StdMap.getElem?_override, merged, List.findSome?_cons]
    cases d[key]? with
    | none => exact ih
    | some target => rfl

/-- An empty change leaves a map as it is. -/
theorem override_empty (m : StdMap Bytes Hash) : m.override (∅ : Delta) = m := by
  apply StdMap.ext
  intro key
  rw [StdMap.getElem?_override, Std.ExtTreeMap.getElem?_empty]

/-- A binding that a run can hold. -/
structure Bindable (key : Bytes) (id : Hash) : Prop where
  starts : namespacePrefix <+: key
  length_le : key.length ≤ 1024
  nonzero : id ≠ Hash.zero

/-- A map whose bindings all fit into runs. -/
def AllBindable (m : StdMap Bytes Hash) : Prop := ∀ key id, m[key]? = some id → Bindable key id

variable {flat : StdMap Bytes Hash} {runs : List Delta} {payloads : List Bytes}

/-- What a decoded run binds fits into runs. -/
theorem bindable_of_decodeRun {b key : Bytes} {d : Delta} {id : Hash} (h : decodeRun b = .ok d)
    (hid : d[key]? = some (some id)) : Bindable key id := by
  obtain ⟨full, l, hrun, rfl⟩ := decodeRun_eq_ok.mp h
  rw [← StdMap.mem_toList, StdMap.toList_insertAll hrun.sorted.increasing] at hid
  have hrunnable := hrun.sorted.runnable _ hid
  exact ⟨hrunnable.key, hrunnable.length_le, fun h => hrunnable.nonzero (congrArg some h)⟩

/-- The merge of decoded runs fits into runs. -/
theorem allBindable_mergeRuns (hflat : AllBindable flat)
    (hruns : payloads.mapM decodeRun = .ok runs) : AllBindable (mergeRuns flat runs) := by
  intro key id hid
  rw [getElem?_mergeRuns, merged] at hid
  cases hfind : runs.findSome? (·[key]?) with
  | none =>
    rw [hfind] at hid
    exact hflat key id hid
  | some target =>
    rw [hfind, Option.getD_some] at hid
    obtain ⟨d, hd, htarget⟩ := List.exists_of_findSome?_eq_some hfind
    obtain ⟨b, -, hb⟩ := mem_of_mapM_eq_ok hruns hd
    exact bindable_of_decodeRun hb (htarget.trans (congrArg some hid))

end Merge

section Partition

variable {image part : List (Bytes × Hash)} {bytes : ℕ}

/-- The size of the run of a part. -/
def partSize (part : List (Bytes × Hash)) : ℕ := 12 + (part.map fun e => 40 + e.1.length).sum

theorem partSize_concat (part : List (Bytes × Hash)) (e : Bytes × Hash) :
    partSize (part ++ [e]) = partSize part + 40 + e.1.length := by
  simp [partSize, Nat.add_assoc]

/-- No entry is lost where the image is cut. -/
theorem flatten_splitImage : (splitImage image part bytes).flatten = part ++ image := by
  induction image generalizing part bytes with
  | nil =>
    rw [splitImage]
    split
    · simp [*]
    · simp
  | cons e image ih =>
    rw [splitImage]
    split
    · rw [List.flatten_cons, ih]
      rfl
    · rw [ih, List.append_assoc]
      rfl

/-- Every part is nonempty and stays within the limit. -/
theorem splitImage_parts (hbytes : bytes = partSize part) (hpart : partSize part ≤ 64 * 1024)
    (himage : ∀ e ∈ image, e.1.length ≤ 1024) :
    ∀ p ∈ splitImage image part bytes, p ≠ [] ∧ partSize p ≤ 64 * 1024 := by
  induction image generalizing part bytes with
  | nil =>
    intro p hp
    rw [splitImage] at hp
    split at hp
    · cases hp
    · rw [List.mem_singleton.mp hp]
      exact ⟨‹_›, hpart⟩
  | cons e image ih =>
    have hlength := himage e List.mem_cons_self
    have hrest : ∀ e' ∈ image, e'.1.length ≤ 1024 := fun e' he' =>
      himage e' (List.mem_cons_of_mem e he')
    have hconcat := partSize_concat part e
    rw [splitImage]
    split
    · -- The entry starts the next part.
      rename_i hcut
      have hsingle : partSize [e] = 12 + 40 + e.1.length := partSize_concat [] e
      rintro p (_ | ⟨_, hp⟩)
      · exact ⟨hcut.2, hpart⟩
      · exact ih hsingle.symm (by omega) hrest p hp
    · rename_i hkeep
      refine ih (by omega) ?_ hrest
      by_cases hnil : part = []
      · have hempty : partSize part = 12 := by rw [hnil]; rfl
        omega
      · have hfits : ¬ 64 * 1024 < bytes + 40 + e.1.length := fun h => hkeep ⟨h, hnil⟩
        omega

end Partition

section Image

variable {m : StdMap Bytes Hash} {part : List (Bytes × Hash)}

/-- The parts that an image is cut into. -/
def parts (m : StdMap Bytes Hash) : List (List (Bytes × Hash)) := splitImage m.toList [] 12

/-- The run of a part. -/
def partRun (part : List (Bytes × Hash)) : Delta :=
  StdMap.insertAll ∅ (part.map fun e => (e.1, some e.2))

theorem flatten_parts (m : StdMap Bytes Hash) : (parts m).flatten = m.toList := flatten_splitImage

theorem mem_parts {e : Bytes × Hash} : e ∈ m.toList ↔ ∃ part ∈ parts m, e ∈ part := by
  rw [← flatten_parts, List.mem_flatten]

theorem increasing_parts (m : StdMap Bytes Hash) :
    (∀ part ∈ parts m, part.Pairwise fun a b => a.1 < b.1) ∧
      (parts m).Pairwise fun p q => ∀ a ∈ p, ∀ b ∈ q, a.1 < b.1 := by
  rw [← List.pairwise_flatten, flatten_parts]
  exact m.sorted_toList

theorem toList_partRun (h : part ∈ parts m) :
    (partRun part).toList = part.map fun e => (e.1, some e.2) := by
  refine StdMap.toList_insertAll (List.pairwise_map.mpr ?_)
  exact (increasing_parts m).1 part h

theorem getElem?_partRun (h : part ∈ parts m) {key : Bytes} {target : Option Hash} :
    (partRun part)[key]? = some target ↔ ∃ id, (key, id) ∈ part ∧ some id = target := by
  rw [← StdMap.mem_toList, toList_partRun h, List.mem_map]
  constructor
  · rintro ⟨e, he, heq⟩
    obtain ⟨rfl, rfl⟩ := Prod.mk.inj heq
    exact ⟨e.2, he, rfl⟩
  · rintro ⟨id, hid, rfl⟩
    exact ⟨_, hid, rfl⟩

theorem mem_partRun (h : part ∈ parts m) {key : Bytes} :
    key ∈ partRun part ↔ ∃ e ∈ part, e.1 = key := by
  rw [← StdMap.mem_map_toList, toList_partRun h, List.map_map, List.mem_map]
  rfl

/-- The run of a part is as long as the cut assumes. -/
theorem runSize_partRun (h : part ∈ parts m) : runSize (partRun part) = partSize part := by
  rw [runSize, toList_partRun h, List.map_map]
  rfl

theorem partSize_le (hm : AllBindable m) (h : part ∈ parts m) :
    part ≠ [] ∧ partSize part ≤ 64 * 1024 := by
  refine splitImage_parts rfl (by decide) (fun e he => ?_) part h
  exact (hm e.1 e.2 (StdMap.mem_toList.mp he)).length_le

/-- The run of a part can be written. -/
theorem holdable_partRun (hm : AllBindable m) (h : part ∈ parts m) : Holdable (partRun part) := by
  obtain ⟨hne, hsize⟩ := partSize_le hm h
  refine ⟨?_, ?_, ?_⟩
  · rw [toList_partRun h]
    exact fun hnil => hne (List.map_eq_nil_iff.mp hnil)
  · rw [toList_partRun h]
    intro e he
    obtain ⟨binding, hbinding, rfl⟩ := List.mem_map.mp he
    have hin : binding ∈ m.toList := mem_parts.mpr ⟨part, h, hbinding⟩
    obtain ⟨hstarts, hlength, hnonzero⟩ := hm binding.1 binding.2 (StdMap.mem_toList.mp hin)
    exact ⟨hstarts, hlength, fun hzero => hnonzero (Option.some.inj hzero), fun _ => rfl⟩
  · rw [runSize_partRun h]
    omega

/-- The objects of an image. -/
def imageObjects (m : StdMap Bytes Hash) : List Bytes :=
  (parts m).map fun part => runBytes false (partRun part).toList

theorem encodeImage_eq (hm : AllBindable m) : encodeImage m = .ok (imageObjects m) := by
  have h := mapM_map_of_ok (h := id) (f := fun part => encodeRun (partRun part))
    fun part hpart => (holdable_partRun hm hpart).encodeRun_eq
  rwa [List.map_id] at h

theorem decode_imageObjects (hm : AllBindable m) :
    (imageObjects m).mapM decodeRun = .ok ((parts m).map partRun) :=
  mapM_map_of_ok fun _ hpart => (holdable_partRun hm hpart).decodeRun_eq

/-- The ranges of the runs do not overlap. -/
theorem increasing_partRuns (m : StdMap Bytes Hash) :
    ((parts m).map partRun).Pairwise fun d d' => ∀ k ∈ d, ∀ k' ∈ d', k < k' := by
  rw [List.pairwise_map]
  refine (increasing_parts m).2.imp_of_mem fun hp hq hless k hk k' hk' => ?_
  obtain ⟨a, ha, rfl⟩ := (mem_partRun hp).mp hk
  obtain ⟨b, hb, rfl⟩ := (mem_partRun hq).mp hk'
  exact hless a ha b hb

/-- Two runs of an image are different objects. -/
theorem nodup_imageObjects (hm : AllBindable m) : (imageObjects m).Nodup := by
  rw [imageObjects, List.nodup_iff_pairwise_ne, List.pairwise_map]
  refine (increasing_parts m).2.imp_of_mem fun {p q} hp hq hless heq => ?_
  have hsame : partRun p = partRun q := by
    have hdecode := (holdable_partRun hm hp).decodeRun_eq
    rw [heq, (holdable_partRun hm hq).decodeRun_eq] at hdecode
    exact (Except.ok.inj hdecode).symm
  obtain ⟨e, he⟩ := List.exists_mem_of_ne_nil p (partSize_le hm hp).1
  obtain ⟨e', he', hkey⟩ := (mem_partRun hq).mp (hsame ▸ (mem_partRun hp).mpr ⟨e, he, rfl⟩)
  exact (hless e he e' he').ne hkey.symm

end Image

section Compaction

variable [Digest] {m : StdMap Bytes Hash} {input : Frozen} {runs : List Delta}

/-- A plan that is the image of a map, written as the listed runs. -/
structure IsImage (content : Bytes → Option Hash) (plan : Plan) (deltas : List Delta) : Prop where
  /-- Every object is a run. -/
  decoded : plan.objects.mapM decodeRun = .ok deltas
  /-- No object exceeds the limit of image runs. -/
  length_le : ∀ b ∈ plan.objects, b.length ≤ 64 * 1024
  /-- No run has a tombstone. -/
  bound : ∀ d ∈ deltas, ∀ key : Bytes, d[key]? ≠ some none
  /-- The runs have increasing disjoint ranges of keys. -/
  increasing : deltas.Pairwise fun d d' => ∀ k ∈ d, ∀ k' ∈ d', k < k'
  /-- Together they are the map. -/
  union : ∀ key id, content key = some id ↔ ∃ d ∈ deltas, d[key]? = some (some id)
  /-- The manifest lists the runs. -/
  manifest : plan.manifest = ascii "FFMAN002" ++
    (store plan.objects.length 4 ++ (plan.objects.map objectHash).flatMap Subtype.val)
  /-- It lists at most 32 runs. -/
  count_le : plan.objects.length ≤ 32
  /-- It lists no run twice. -/
  distinct : CollisionFree { b | b ∈ plan.objects } → (plan.objects.map objectHash).Nodup

/-- The image of a map that fits. -/
theorem isImage (hm : AllBindable m) (hcount : (parts m).length ≤ 32) {manifest : Bytes}
    (hmanifest : encodeManifest ((imageObjects m).map objectHash) = .ok manifest) :
    IsImage (m[·]?) ⟨imageObjects m, manifest, imageObjects m⟩ ((parts m).map partRun) where
  decoded := decode_imageObjects hm
  length_le := by
    intro b hb
    obtain ⟨part, hpart, rfl⟩ := List.mem_map.mp hb
    rw [length_runBytes, runSize_partRun hpart]
    exact (partSize_le hm hpart).2
  bound := by
    intro d hd key hnone
    obtain ⟨part, hpart, rfl⟩ := List.mem_map.mp hd
    obtain ⟨id, -, hid⟩ := (getElem?_partRun hpart).mp hnone
    cases hid
  increasing := increasing_partRuns m
  union := by
    intro key id
    rw [← StdMap.mem_toList, mem_parts]
    constructor
    · rintro ⟨part, hpart, hin⟩
      exact ⟨_, List.mem_map_of_mem hpart, (getElem?_partRun hpart).mpr ⟨id, hin, rfl⟩⟩
    · rintro ⟨d, hd, hin⟩
      obtain ⟨part, hpart, rfl⟩ := List.mem_map.mp hd
      obtain ⟨id', hid, heq⟩ := (getElem?_partRun hpart).mp hin
      obtain rfl := Option.some.inj heq
      exact ⟨part, hpart, hid⟩
  manifest := by
    rw [encodeManifest, need_bind_eq_ok, pure_eq_ok] at hmanifest
    rw [← hmanifest.2, List.length_map]
  count_le := by
    change (List.map _ _).length ≤ 32
    rwa [List.length_map]
  distinct := by
    intro hcf
    refine (List.nodup_map_iff_inj_on (nodup_imageObjects hm)).mpr fun b hb b' hb' heq => ?_
    exact hcf.injOn hb hb' heq

/-- A map with the root of the namespace either has too many parts or is written as its image. -/
theorem planImage_cases (hm : AllBindable m) (hroot : namespaceRoot ∈ m) :
    (32 < (parts m).length ∧ planImage m = .error "manifest run count exceeds prototype limit") ∨
      ∃ plan deltas, planImage m = .ok plan ∧ IsImage (m[·]?) plan deltas := by
  have hlength : ((imageObjects m).map objectHash).length = (parts m).length := by
    rw [List.length_map, imageObjects, List.length_map]
  rw [planImage, need_of hroot, ok_bind, encodeImage_eq hm, ok_bind]
  by_cases hcount : (parts m).length ≤ 32
  · right
    have hne : (imageObjects m).map objectHash ≠ [] := by
      obtain ⟨id, hid⟩ := StdMap.mem_iff.mp hroot
      obtain ⟨part, hpart, -⟩ := mem_parts.mp (StdMap.mem_toList.mpr hid)
      exact List.length_pos_iff.mp (hlength ▸ List.length_pos_of_mem hpart)
    obtain ⟨manifest, hmanifest⟩ :
        ∃ b, encodeManifest ((imageObjects m).map objectHash) = .ok b := by
      rw [encodeManifest, need_of ⟨hne, hlength.trans_le hcount⟩]
      exact ⟨_, rfl⟩
    rw [hmanifest]
    exact ⟨_, _, rfl, isImage hm hcount hmanifest⟩
  · left
    refine ⟨by omega, ?_⟩
    rw [encodeManifest, need_of_not fun h => hcount (hlength ▸ h.2)]
    rfl

/-- The full compaction of a view in the foreground. -/
theorem plan_compact {v : NamespaceView} (hruns : v.journal.leveldb = false) {compact : Bool}
    (hcompact : v.legacy ∨ compact) :
    v.plan ∅ compact = (v.references >>= planImage) := by
  have hleveldb : ¬ v.journal.leveldb := by simp [hruns]
  rw [plan, if_neg hleveldb, planRuns, if_pos hcompact]
  simp only [override_empty]

/-- What a full compaction guarantees for its frozen input. -/
structure Compacts (input : Frozen) (runs : List Delta) : Prop where
  /-- It throws if the image needs too many runs, and otherwise writes the image. -/
  result : (32 < (parts (mergeRuns input.flat runs)).length ∧
      compactFrozen input = .error "manifest run count exceeds prototype limit") ∨
    ∃ plan deltas, compactFrozen input = .ok plan ∧ IsImage (merged input.flat runs) plan deltas
  /-- It is the plan without changes for a flat view. -/
  flat_eq : ∀ v : NamespaceView, v.journal.leveldb = false → v.legacy → v.freeze = .ok input →
    ∀ compact, compactFrozen input = v.plan ∅ compact
  /-- It is the compacting plan without changes for any frozen view. -/
  view_eq : ∀ v : NamespaceView, v.journal.leveldb = false → v.freeze = .ok input →
    compactFrozen input = v.plan ∅ true

/-- The frozen input of a flat view is its references. -/
theorem compactFrozen_of_legacy {v : NamespaceView} (hlegacy : v.legacy)
    (hfreeze : v.freeze = .ok input) : compactFrozen input = (v.references >>= planImage) := by
  obtain ⟨journal, layout⟩ := v
  cases layout with
  | flat =>
    obtain ⟨references, hreferences, h⟩ := bind_eq_ok.mp hfreeze
    rw [← pure_eq_ok.mp h, hreferences]
    rfl
  | tree root => cases hlegacy
  | runs ids => cases hlegacy

/-- The frozen input of runs is their payloads. -/
theorem compactFrozen_of_runs {journal : Catalog} {ids : List Hash}
    (hfreeze : freeze ⟨journal, .runs ids⟩ = .ok input) :
    compactFrozen input = (references ⟨journal, .runs ids⟩ >>= planImage) := by
  obtain ⟨payloads, hpayloads, h⟩ := bind_eq_ok.mp hfreeze
  have hruns : allRuns journal ids = payloads.mapM decodeRun := mapM_bind_of_ok hpayloads
  have hreferences : references ⟨journal, .runs ids⟩ =
      (allRuns journal ids >>= fun runs => pure (mergeRuns ∅ runs)) := rfl
  rw [← pure_eq_ok.mp h, compactFrozen, hreferences, hruns, bind_assoc]
  rfl

/-- A full compaction of valid runs over a flat map writes exactly the merged map, and is the same in
the background as in the foreground. -/
theorem compactFrozen_image (hflat : AllBindable input.flat)
    (hruns : input.runs.mapM decodeRun = .ok runs)
    (hroot : (merged input.flat runs namespaceRoot).isSome) : Compacts input runs where
  result := by
    have hin : namespaceRoot ∈ mergeRuns input.flat runs := by
      rw [← getElem?_mergeRuns] at hroot
      exact StdMap.mem_iff.mpr (Option.isSome_iff_exists.mp hroot)
    have hcases := planImage_cases (allBindable_mergeRuns hflat hruns) hin
    rw [funext (getElem?_mergeRuns input.flat runs)] at hcases
    rwa [compactFrozen, hruns]
  flat_eq := by
    intro v hleveldb hlegacy hfreeze compact
    rw [plan_compact hleveldb (Or.inl hlegacy), compactFrozen_of_legacy hlegacy hfreeze]
  view_eq := by
    intro v hleveldb hfreeze
    rw [plan_compact hleveldb (Or.inr rfl)]
    obtain ⟨journal, layout⟩ := v
    cases layout with
    | flat => exact compactFrozen_of_legacy rfl hfreeze
    | tree root =>
      -- A tree has nothing to freeze, so its merge would lose the root.
      obtain rfl : (⟨∅, []⟩ : Frozen) = input := Except.ok.inj hfreeze
      obtain rfl : [] = runs := pure_eq_ok.mp hruns
      cases hroot
    | runs ids => exact compactFrozen_of_runs hfreeze

end Compaction

section Sample

local instance imageDigest : Digest := sha256

/-- A flat World with a root and one more key. -/
def sampleFlat : StdMap Bytes Hash :=
  StdMap.insertAll ∅ [(namespaceRoot, Hash.ofBytes [1]), (namespacePrefix ++ [0], Hash.ofBytes [2])]

/-- A run that deletes the other key. -/
def sampleRun : Delta := StdMap.insertAll ∅ [(namespacePrefix ++ [0], none)]

theorem compactFrozen_image_sample :
    Compacts ⟨sampleFlat, [runBytes false sampleRun.toList]⟩ [sampleRun] ∧
      merged sampleFlat [sampleRun] (namespacePrefix ++ [0]) = none := by
  have hflat : ∀ e ∈ sampleFlat.toList,
      namespacePrefix <+: e.1 ∧ e.1.length ≤ 1024 ∧ e.2 ≠ Hash.zero := by decide +kernel
  have hrun : decodeRun (runBytes false sampleRun.toList) = .ok sampleRun := by
    refine Holdable.decodeRun_eq ⟨by decide +kernel, fun e he => ?_, by decide +kernel⟩
    have hlist : sampleRun.toList = [(namespacePrefix ++ [0], none)] := by decide +kernel
    rw [hlist, List.mem_singleton] at he
    subst he
    exact ⟨List.prefix_append _ _, by decide, nofun, nofun⟩
  refine ⟨compactFrozen_image (fun key id hid => ?_) ?_ (by decide +kernel), by decide +kernel⟩
  · obtain ⟨hstarts, hlength, hnonzero⟩ := hflat (key, id) (StdMap.mem_toList.mpr hid)
    exact ⟨hstarts, hlength, hnonzero⟩
  · rw [List.mapM_cons, hrun]
    rfl

end Sample

end ForkFs.NamespaceView
