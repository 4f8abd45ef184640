import ForkFs.LevelStore.Objects
import ForkFs.NamespaceView.RunViews

/-!
# Versions in runs

The single-file engine keeps a World as sorted runs, LevelDB as a metadata tree. A batch of changes
is planned, its objects and its manifest are stored, and the manifest is loaded as the next version.
On the single-file engine the next version presents the map with the changes, whether they become a
run in front or the runs are compacted.
-/

namespace ForkFs

open Bytes Outcome NamespaceView

section Model

variable [Digest]

/-- A World of one engine. -/
structure Layered where
  /-- The objects of the repository. -/
  objects : ObjectStore
  /-- All payloads that were hashed. -/
  hashed : List Bytes
  /-- The form of the current version. -/
  layout : Layout

/-- A batch of changes, or a full compaction. -/
inductive LayoutStep
  /-- Publish changes. -/
  | batch (changes : Delta)
  /-- Compact. -/
  | compact

namespace Layered

variable (roots : StdMap Bytes Hash)

/-- The view of the current version. -/
def view (leveldb : Bool) (s : Layered) : NamespaceView :=
  ⟨⟨leveldb, roots, s.objects.object⟩, s.layout⟩

/-- Plan the next version, store its objects and its manifest, and load it. -/
def publish (leveldb : Bool) (s : Layered) (changes : Delta) (compact : Bool) :
    Except String Layered := do
  let plan ← (s.view roots leveldb).plan changes compact
  let objects := s.objects.putAll (plan.objects ++ [plan.manifest])
  let layout ← readManifest ⟨leveldb, roots, objects.object⟩ (objectHash plan.manifest)
  return ⟨objects, s.hashed ++ plan.hashed ++ plan.objects ++ [plan.manifest], layout⟩

/-- A step of the single-file engine. -/
def runStep (s : Layered) : LayoutStep → Except String Layered
  | .batch changes => s.publish roots false changes false
  | .compact => s.publish roots false ∅ true

/-- A step of LevelDB, which does not compact runs. -/
def treeStep (s : Layered) : LayoutStep → Except String Layered
  | .batch changes => s.publish roots true changes false
  | .compact => .ok s

end Layered

/-- The effect of a step on the map. -/
def LayoutStep.apply (m : StdMap Bytes Hash) : LayoutStep → StdMap Bytes Hash
  | .batch changes => m.override changes
  | .compact => m

/-- The payloads that were stored or hashed. -/
def Layered.payloads (s : Layered) : Set Bytes := s.objects.contents ∪ { b | b ∈ s.hashed }

/-- A batch that a World may publish. -/
structure ValidBatch (changes : Delta) : Prop where
  /-- It changes something. -/
  nonempty : changes.toList ≠ []
  /-- Its keys are valid and its objects are not zero. -/
  runnable : ∀ e ∈ changes.toList, Runnable false e
  /-- It does not delete the root directory. -/
  root : changes[namespaceRoot]? ≠ some none

end Model

section Publications

variable [Digest] {roots : StdMap Bytes Hash} {leveldb compact : Bool} {s s' : Layered}
  {changes : Delta} {m : StdMap Bytes Hash}

/-- Payloads are never forgotten. -/
theorem Layered.payloads_publish (h : s.publish roots leveldb changes compact = .ok s') :
    s.payloads ⊆ s'.payloads := by
  obtain ⟨plan, -, h⟩ := bind_eq_ok.mp h
  obtain ⟨layout, -, h⟩ := bind_eq_ok.mp h
  cases pure_eq_ok.mp h
  refine Set.union_subset_union (s.objects.extends_putAll _).contents_subset fun b hb => ?_
  simp only [Set.mem_ofPred_eq, List.mem_append] at hb ⊢
  exact Or.inl (Or.inl (Or.inl hb))

/-- What a publication does. -/
theorem Layered.publish_eq_ok (h : s.publish roots leveldb changes compact = .ok s')
    (hcf : CollisionFree s'.payloads) : ∃ plan,
      (s.view roots leveldb).plan changes compact = .ok plan ∧
      s.objects.Extends s'.objects ∧ (∀ b ∈ plan.hashed, b ∈ s'.payloads) ∧
      (∀ b ∈ plan.objects, s'.objects.object (objectHash b) = .ok b) ∧
      s'.objects.object (objectHash plan.manifest) = .ok plan.manifest ∧
      readManifest (s'.view roots leveldb).journal (objectHash plan.manifest) = .ok s'.layout := by
  obtain ⟨plan, hplan, h⟩ := bind_eq_ok.mp h
  obtain ⟨layout, hlayout, h⟩ := bind_eq_ok.mp h
  cases pure_eq_ok.mp h
  have hext := s.objects.extends_putAll (plan.objects ++ [plan.manifest])
  have hmem : ∀ b ∈ plan.objects ++ [plan.manifest], b ∈ Layered.payloads
      ⟨s.objects.putAll (plan.objects ++ [plan.manifest]),
        s.hashed ++ plan.hashed ++ plan.objects ++ [plan.manifest], layout⟩ := by
    intro b hb
    refine Or.inr ?_
    rw [Set.mem_ofPred_eq, List.append_assoc (s.hashed ++ plan.hashed)]
    exact List.mem_append_right _ hb
  have hput : ∀ b ∈ plan.objects ++ [plan.manifest],
      (s.objects.putAll (plan.objects ++ [plan.manifest])).object (objectHash b) = .ok b :=
    fun b hb => ObjectStore.object_putAll hcf (hext.contents_subset.trans Set.subset_union_left)
      hmem hb
  refine ⟨plan, hplan, hext, fun b hb => Or.inr ?_, fun b hb => hput b (List.mem_append_left _ hb),
    hput _ (List.mem_append_right _ List.mem_cons_self), hlayout⟩
  simp only [Set.mem_ofPred_eq, List.mem_append]
  exact Or.inl (Or.inl (Or.inr hb))

end Publications

section Runs

variable [Digest] {roots : StdMap Bytes Hash} {compact : Bool} {s s' : Layered} {changes : Delta}
  {m : StdMap Bytes Hash} {j : Catalog}

/-- A World of the single-file engine with a map. -/
def Layered.HoldsRuns (roots : StdMap Bytes Hash) (s : Layered) (m : StdMap Bytes Hash) : Prop :=
  (s.layout = .flat ∧ AllBindable m ∧ (s.view roots false).references = .ok m) ∨
    ∃ ids runs, s.layout = .runs ids ∧ allRuns (s.view roots false).journal ids = .ok runs ∧
      mergeRuns ∅ runs = m

namespace Layered.HoldsRuns

theorem presents {ids : List Hash} (h : s.HoldsRuns roots m) (hlayout : s.layout = .runs ids) :
    (s.view roots false).Presents m := by
  rcases h with ⟨hflat, -⟩ | ⟨ids', runs, hlayout', hruns, rfl⟩
  · rw [hflat] at hlayout
    cases hlayout
  · rw [hlayout] at hlayout'
    cases hlayout'
    rw [Layered.view, hlayout]
    exact presents_runs hruns

theorem references (h : s.HoldsRuns roots m) : (s.view roots false).references = .ok m := by
  have hcases := h
  rcases hcases with ⟨-, -, href⟩ | ⟨ids, runs, hlayout, -, -⟩
  · exact href
  · exact (h.presents hlayout).references

theorem allBindable (h : s.HoldsRuns roots m) : AllBindable m := by
  rcases h with ⟨-, hm, -⟩ | ⟨ids, runs, -, hruns, rfl⟩
  · exact hm
  · exact allBindable_of_allRuns hruns

end Layered.HoldsRuns

/-- The runs of stored payloads. -/
theorem allRuns_objects {objects : List Bytes}
    (h : ∀ b ∈ objects, j.getObject (objectHash b) = .ok b) :
    allRuns j (objects.map objectHash) = objects.mapM decodeRun := by
  induction objects with
  | nil => rfl
  | cons b objects ih =>
    have hrun : run j (objectHash b) = decodeRun b := by
      rw [run, h b List.mem_cons_self, ok_bind]
    rw [allRuns, List.map_cons, List.mapM_cons, List.mapM_cons, hrun]
    rw [allRuns] at ih
    rw [ih fun other hother => h other (List.mem_cons_of_mem _ hother)]

/-- The image of a map presents it. -/
theorem mergeRuns_image {plan : Plan} {deltas : List Delta} (h : IsImage (m[·]?) plan deltas) :
    mergeRuns ∅ deltas = m :=
  mergeRuns_of_union h.bound h.union

omit [Digest] in
/-- An empty batch changes nothing. -/
theorem override_of_toList_eq_nil (h : changes.toList = []) : m.override changes = m := by
  apply StdMap.ext
  intro key
  have hnone : changes[key]? = none := by
    rw [← StdMap.notMem_iff, ← StdMap.mem_map_toList, h]
    exact List.not_mem_nil
  rw [StdMap.getElem?_override, hnone]

namespace Layered

/-- The image of a World, written and loaded. -/
theorem HoldsRuns.image {plan : Plan} (hm : AllBindable m) (hplan : planImage m = .ok plan)
    (hobjects : ∀ b ∈ plan.objects, s'.objects.object (objectHash b) = .ok b)
    (hmanifest : s'.objects.object (objectHash plan.manifest) = .ok plan.manifest)
    (hlayout : readManifest (s'.view roots false).journal (objectHash plan.manifest) =
      .ok s'.layout) : s'.HoldsRuns roots m := by
  obtain ⟨hroot, hsteps⟩ := need_bind_eq_ok.mp hplan
  obtain ⟨objects, -, hsteps⟩ := bind_eq_ok.mp hsteps
  obtain ⟨manifest, hencoded, hsteps⟩ := bind_eq_ok.mp hsteps
  cases pure_eq_ok.mp hsteps
  rcases planImage_cases hm hroot with ⟨-, herror⟩ | ⟨plan', deltas, hplan', himage⟩
  · rw [hplan] at herror
    cases herror
  · cases hplan.symm.trans hplan'
    refine Or.inr ⟨_, deltas, readManifest_runs hencoded hmanifest hlayout, ?_,
      mergeRuns_image himage⟩
    rw [allRuns_objects hobjects]
    exact himage.decoded

/-- One more run in front of a World, written and loaded. -/
theorem HoldsRuns.front {ids : List Hash} {runs : List Delta} {b : Bytes}
    (hruns : allRuns (s'.view roots false).journal ids = .ok runs)
    (hchanges : decodeRun b = .ok changes)
    (hobject : s'.objects.object (objectHash b) = .ok b)
    (hlayout : s'.layout = .runs (objectHash b :: ids.filter (· ≠ objectHash b))) :
    s'.HoldsRuns roots ((mergeRuns ∅ runs).override changes) := by
  obtain ⟨hall, rfl⟩ := allRuns_eq_ok.mp hruns
  have hfront : run (s'.view roots false).journal (objectHash b) = .ok changes := by
    have hget : (s'.view roots false).journal.getObject (objectHash b) = .ok b := hobject
    rw [run, hget, ok_bind, hchanges]
  have hnew : allRuns (s'.view roots false).journal
      (objectHash b :: ids.filter (· ≠ objectHash b)) =
        .ok (changes :: (ids.filter (· ≠ objectHash b)).map (runOf (s'.view roots false).journal)) := by
    refine allRuns_eq_ok.mpr ⟨fun id hid => ?_, by rw [List.map_cons, runOf_eq hfront]⟩
    rcases List.mem_cons.mp hid with rfl | hid
    · rw [hfront, runOf_eq hfront]
    · exact hall id (List.mem_of_mem_filter hid)
  refine Or.inr ⟨_, _, hlayout, hnew, ?_⟩
  rw [← mergeRuns_cons]
  refine mergeRuns_filter _ fun id hid hdropped => ?_
  have hid : id = objectHash b := by simpa using hdropped
  rw [hid, runOf_eq hfront]

/-- A publication of the single-file engine makes the changes. -/
theorem HoldsRuns.publish (h : s.HoldsRuns roots m)
    (hpublish : s.publish roots false changes compact = .ok s')
    (hchanges : ∀ e ∈ changes.toList, Runnable false e) (hcf : CollisionFree s'.payloads) :
    s'.HoldsRuns roots (m.override changes) := by
  obtain ⟨plan, hplan, hext, hhashed, hobjects, hmanifest, hlayout⟩ :=
    Layered.publish_eq_ok hpublish hcf
  change planRuns _ changes compact = .ok plan at hplan
  rw [planRuns] at hplan
  by_cases hcompact : (s.view roots false).legacy ∨ compact
  · rw [if_pos hcompact, h.references, ok_bind] at hplan
    exact image (h.allBindable.override hchanges) hplan hobjects hmanifest hlayout
  rw [if_neg hcompact] at hplan
  obtain ⟨hflat, -⟩ | ⟨ids, runs, hids, hruns, rfl⟩ := h
  · refine absurd (Or.inl ?_) hcompact
    rw [Layered.view, hflat]
    rfl
  have hrunIds : (s.view roots false).runIds = ids := by
    rw [Layered.view, hids]
    rfl
  have hruns' : allRuns (s'.view roots false).journal ids = .ok runs :=
    allRuns_mono (fun id b hb => hext id b hb) hruns
  rw [hrunIds] at hplan
  by_cases hempty : changes.toList = []
  · rw [if_pos hempty] at hplan
    obtain ⟨manifest, hencoded, hplan⟩ := bind_eq_ok.mp hplan
    cases pure_eq_ok.mp hplan
    rw [override_of_toList_eq_nil hempty]
    exact Or.inr ⟨ids, runs, readManifest_runs hencoded hmanifest hlayout, hruns', rfl⟩
  rw [if_neg hempty] at hplan
  obtain ⟨b, hb, hplan⟩ := bind_eq_ok.mp hplan
  obtain ⟨-, -, hsize, rfl⟩ := encodeRun_eq_ok.mp hb
  have hdecode := Holdable.decodeRun_eq ⟨hempty, hchanges, hsize⟩
  by_cases hhead : ids.head? = some (objectHash (runBytes false changes.toList))
  · -- The run in front is the same object, hence the same changes.
    rw [if_pos hhead] at hplan
    obtain ⟨manifest, hencoded, hplan⟩ := bind_eq_ok.mp hplan
    cases pure_eq_ok.mp hplan
    obtain ⟨rest, rfl⟩ := List.head?_eq_some_iff.mp hhead
    obtain ⟨hall, rfl⟩ := allRuns_eq_ok.mp hruns'
    obtain ⟨c, hc, hrun⟩ := bind_eq_ok.mp (hall _ List.mem_cons_self)
    have hsame : c = runBytes false changes.toList :=
      hcf.injOn (Or.inl (ObjectStore.mem_contents_of_object hc))
        (hhashed _ List.mem_cons_self) (ObjectStore.checked_object _ _ _ hc)
    rw [hsame, hdecode] at hrun
    rw [List.map_cons, ← Except.ok.inj hrun, mergeRuns_cons, override_override, ← mergeRuns_cons,
      Except.ok.inj hrun, ← List.map_cons]
    exact Or.inr ⟨_, _, readManifest_runs hencoded hmanifest hlayout, hruns', rfl⟩
  · rw [if_neg hhead] at hplan
    obtain ⟨manifest, hencoded, hplan⟩ := bind_eq_ok.mp hplan
    cases pure_eq_ok.mp hplan
    exact front hruns' hdecode (hobjects _ List.mem_cons_self)
      (readManifest_runs hencoded hmanifest hlayout)

end Layered

end Runs

end ForkFs
