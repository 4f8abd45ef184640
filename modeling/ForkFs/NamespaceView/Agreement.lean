import ForkFs.Container.Closure
import ForkFs.MetadataTree.Session
import ForkFs.NamespaceView.Layouts

/-!
# Runs and trees agree

LevelDB edits a metadata tree where the single-file engine adds a run. Here the same batches are
published on both engines, the runs being compacted at any time. Whatever their histories, both
present the map that the batches make of the first one.
-/

namespace ForkFs

open Bytes Treap Treap.KeyTree Outcome NamespaceView

section Trees

variable [Digest] {roots : StdMap Bytes Hash} {s s' : Layered} {changes : Delta}
  {m : StdMap Bytes Hash} {j : Catalog} {payloads : Set Bytes} {root : Hash}
  {tree : KeyTree Bytes Hash}

omit [Digest] in
/-- A manifest of a tree is read as that tree. -/
theorem readManifest_tree {id : Hash} (hobject : j.getObject id = .ok (MetadataTree.manifest root))
    {layout : Layout} : readManifest j id = .ok layout ↔ root ≠ Hash.zero ∧ .tree root = layout := by
  rw [readManifest, hobject, ok_bind, if_pos ⟨length_manifest root, slice_manifest_magic root⟩,
    slice_manifest_root]
  exact need_bind_eq_ok.trans (and_congr_right fun _ => pure_eq_ok)

/-- A stored tree presents its map. -/
theorem presents_tree (h : MetadataTree.Persisted j.getObject metadataPriority 256 root tree)
    (hcf : CollisionFree payloads) (hmem : ∀ id b, j.getObject id = .ok b → b ∈ payloads) :
    Presents ⟨j, .tree root⟩ (treeMap tree) := by
  have hediting := h.editing hmem
  refine ⟨fun key => ?_, fun pre => ?_, h.entries hcf hmem⟩
  · rw [getElem?_treeMap h.wf]
    exact MetadataTree.lookup_treeId hcf hediting.holds hediting.height hediting.root key
  · rw [toList_treeMap h.wf]
    exact MetadataTree.keys_treeId hcf hediting.wf hediting.holds hediting.height hediting.root pre

/-- The tree that is edited, with the edits: the changes, or also the references of a World that is
not a tree yet. -/
theorem planTree_eq_ok {v : NamespaceView} {plan : Plan} (h : v.planTree changes = .ok plan) :
    ∃ root all applied edited,
      (v.layout = .tree root ∧ all = changes ∨ (∀ other, v.layout ≠ .tree other) ∧ root = Hash.zero ∧
        ∃ m, v.references = .ok m ∧
          all = changes.emplaceAll (m.toList.map fun e => (e.1, some e.2))) ∧
      MetadataTree.apply v.journal.getObject metadataPriority all (MetadataTree.new root) =
        .ok applied edited ∧
      plan = ⟨applied.objects, applied.manifest, edited.pending⟩ := by
  obtain ⟨j, layout⟩ := v
  cases layout with
  | tree root =>
    obtain ⟨_, hroot, h⟩ := bind_eq_ok.mp h
    cases hroot
    dsimp only at h
    split at h
    · cases h
    · rename_i applied edited happly
      exact ⟨root, changes, applied, edited, Or.inl ⟨rfl, rfl⟩, happly, (Except.ok.inj h).symm⟩
  | flat | runs ids =>
    obtain ⟨m, hm, h⟩ := bind_eq_ok.mp h
    obtain ⟨_, hroot, h⟩ := bind_eq_ok.mp h
    cases hroot
    dsimp only at h
    split at h
    · cases h
    · rename_i applied edited happly
      exact ⟨_, _, applied, edited, Or.inr ⟨by simp, rfl, m, hm, rfl⟩, happly,
        (Except.ok.inj h).symm⟩

/-- A World of LevelDB with a map. -/
def Layered.HoldsTree (roots : StdMap Bytes Hash) (s : Layered) (m : StdMap Bytes Hash) : Prop :=
  ((∀ root, s.layout ≠ .tree root) ∧ (s.view roots true).references = .ok m) ∨
    ∃ root tree, s.layout = .tree root ∧
      MetadataTree.Persisted s.objects.object metadataPriority 256 root tree ∧ treeMap tree = m

namespace Layered

theorem mem_payloads {id : Hash} {b : Bytes} (h : s.objects.object id = .ok b) : b ∈ s.payloads :=
  Or.inl (ObjectStore.mem_contents_of_object h)

namespace HoldsTree

theorem presents (h : s.HoldsTree roots m) (hcf : CollisionFree s.payloads)
    (hlayout : s.layout = .tree root) : (s.view roots true).Presents m := by
  rcases h with ⟨hother, -⟩ | ⟨root', tree, hlayout', htree, rfl⟩
  · exact absurd hlayout (hother root)
  · rw [hlayout] at hlayout'
    cases hlayout'
    rw [Layered.view, hlayout]
    exact presents_tree htree hcf fun id b hb => mem_payloads hb

/-- An edited tree, written and loaded. -/
theorem apply {t : MetadataTree} {all : Delta} {plan : MetadataTree.Plan} {edited : MetadataTree}
    (hcf : CollisionFree s'.payloads)
    (ht : MetadataTree.Editing s.objects.object metadataPriority s'.payloads t tree)
    (hm : ∀ key : Bytes, m[key]? = find? tree key)
    (happly : MetadataTree.apply s.objects.object metadataPriority all t = .ok plan edited)
    (hhashed : ∀ b ∈ edited.pending, b ∈ s'.payloads) (hext : s.objects.Extends s'.objects)
    (hobjects : ∀ b ∈ plan.objects, s'.objects.object (objectHash b) = .ok b)
    (hmanifest : s'.objects.object (objectHash plan.manifest) = .ok plan.manifest)
    (hlayout : readManifest (s'.view roots true).journal (objectHash plan.manifest) =
      .ok s'.layout) : s'.HoldsTree roots (m.override all) := by
  obtain ⟨ht', hplan, hpending⟩ := MetadataTree.apply_spec hcf ht happly hhashed
  rw [hplan] at hmanifest hlayout
  obtain ⟨hnonzero, htree⟩ := (readManifest_tree hmanifest).mp hlayout
  have hstored := MetadataTree.stored_of_published ht'.holds hext fun b hb =>
    hobjects b (by rwa [hpending])
  refine Or.inr ⟨_, _, htree.symm, ⟨ht'.root.symm, fun hzero => absurd hzero hnonzero, hstored, ht'.wf,
    ht'.height, fun e he => ht'.holds.valid he⟩, ?_⟩
  apply StdMap.ext
  intro key
  rw [getElem?_treeMap ht'.wf, MetadataTree.find?_applyAll ht.wf hm]

/-- A publication of LevelDB makes the changes. -/
theorem publish (h : s.HoldsTree roots m) (hpublish : s.publish roots true changes false = .ok s')
    (hcf : CollisionFree s'.payloads) : s'.HoldsTree roots (m.override changes) := by
  obtain ⟨plan, hplan, hext, hhashed, hobjects, hmanifest, hlayout⟩ :=
    Layered.publish_eq_ok hpublish hcf
  have hsub := Layered.payloads_publish hpublish
  obtain ⟨root, all, applied, edited, horigin, happly, rfl⟩ := planTree_eq_ok hplan
  rcases h with ⟨hother, href⟩ | ⟨root', tree, htree, hpersisted, rfl⟩
  · rcases horigin with ⟨hroot, -⟩ | ⟨-, rfl, m', hm', rfl⟩
    · exact absurd hroot (hother root)
    · cases href.symm.trans hm'
      rw [← override_emplaceAll m changes]
      exact apply hcf (editing_empty s.objects.object) (by simp [find?]) happly hhashed hext hobjects
        hmanifest hlayout
  · rcases horigin with ⟨hroot, rfl⟩ | ⟨hother, -⟩
    · cases htree.symm.trans hroot
      exact apply hcf (hpersisted.editing fun id b hb => hsub (mem_payloads hb))
        (getElem?_treeMap hpersisted.wf) happly hhashed hext hobjects hmanifest hlayout
    · exact absurd htree (hother root')

end HoldsTree

end Layered

end Trees

section Histories

variable [Digest] {roots roots' : StdMap Bytes Hash} {s s₀ s₁ t t₀ : Layered}
  {steps : List LayoutStep} {step : LayoutStep} {m base : StdMap Bytes Hash} {ids : List Hash}
  {root : Hash}

/-- Payloads are never forgotten along a history. -/
theorem Layered.payloads_steps {f : Layered → LayoutStep → Except String Layered}
    (hf : ∀ s step s', f s step = .ok s' → s.payloads ⊆ s'.payloads)
    (h : steps.foldlM f s₀ = .ok s) : s₀.payloads ⊆ s.payloads := by
  induction steps generalizing s₀ with
  | nil =>
    cases h
    exact Set.Subset.rfl
  | cons step steps ih =>
    obtain ⟨s₁, hstep, hrest⟩ := bind_eq_ok.mp ((List.foldlM_cons ..).symm.trans h)
    exact (hf _ _ _ hstep).trans (ih hrest)

theorem Layered.payloads_runStep (h : s.runStep roots step = .ok s₁) : s.payloads ⊆ s₁.payloads := by
  cases step with
  | batch changes => exact payloads_publish h
  | compact => exact payloads_publish h

theorem Layered.payloads_treeStep (h : s.treeStep roots step = .ok s₁) :
    s.payloads ⊆ s₁.payloads := by
  cases step with
  | batch changes => exact payloads_publish h
  | compact =>
    cases h
    exact Set.Subset.rfl

theorem Layered.HoldsRuns.runStep (h : s.HoldsRuns roots m) (hstep : s.runStep roots step = .ok s₁)
    (hvalid : ∀ changes, step = .batch changes → ValidBatch changes)
    (hcf : CollisionFree s₁.payloads) : s₁.HoldsRuns roots (step.apply m) := by
  cases step with
  | batch changes => exact h.publish hstep (hvalid changes rfl).runnable hcf
  | compact =>
    have hnone : ∀ e ∈ (∅ : Delta).toList, Runnable false e := by simp
    have hpublished := h.publish hstep hnone hcf
    rwa [override_empty] at hpublished

/-- Runs hold the map that the batches make. -/
theorem Layered.HoldsRuns.run (h : s₀.HoldsRuns roots m)
    (hsteps : steps.foldlM (Layered.runStep roots) s₀ = .ok s)
    (hvalid : ∀ changes, .batch changes ∈ steps → ValidBatch changes)
    (hcf : CollisionFree s.payloads) : s.HoldsRuns roots (steps.foldl LayoutStep.apply m) := by
  induction steps generalizing s₀ m with
  | nil =>
    cases hsteps
    exact h
  | cons step steps ih =>
    obtain ⟨s₁, hstep, hrest⟩ := bind_eq_ok.mp ((List.foldlM_cons ..).symm.trans hsteps)
    have hcf₁ := hcf.mono (payloads_steps (fun _ _ _ => payloads_runStep) hrest)
    refine ih (h.runStep hstep (fun changes heq => hvalid changes ?_) hcf₁) hrest
      fun changes hmem => hvalid changes (List.mem_cons_of_mem _ hmem)
    rw [heq]
    exact List.mem_cons_self

/-- Trees hold the map that the batches make. -/
theorem Layered.HoldsTree.run (h : t₀.HoldsTree roots m)
    (hsteps : steps.foldlM (Layered.treeStep roots) t₀ = .ok t)
    (hcf : CollisionFree t.payloads) : t.HoldsTree roots (steps.foldl LayoutStep.apply m) := by
  induction steps generalizing t₀ m with
  | nil =>
    cases hsteps
    exact h
  | cons step steps ih =>
    obtain ⟨t₁, hstep, hrest⟩ := bind_eq_ok.mp ((List.foldlM_cons ..).symm.trans hsteps)
    have hcf₁ := hcf.mono (payloads_steps (fun _ _ _ => payloads_treeStep) hrest)
    refine ih ?_ hrest
    cases step with
    | batch changes => exact h.publish hstep hcf₁
    | compact =>
      cases hstep
      exact h

end Histories

section Samples

local instance layoutsDigest : Digest := sha256

end Samples

end ForkFs
