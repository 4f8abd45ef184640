import ForkFs.Container.CoherentRuns
import ForkFs.Namespace.Moves

/-!
# The operations on Worlds as operations on file systems

A successful operation on a World of a reachable repository applies its edits to the file system of
the World, which stays consistent; a failed one changes nothing. With the specifications of the
edits this says what the calls do.
-/

namespace ForkFs

open Bytes Outcome

section Operations

variable [Digest] {c c' : Container} {ns : Namespace} {v : NamespaceView} {edits : List Edit}
  {created : Option InodeId} {events : List ContainerEvent} {fs : Filesystem} {o : Orphans}
  {op : NamespaceCall} {world : Bytes}

/-- A World is a consistent file system with the orphans of its open files, which its current version
shows. -/
structure Container.Holds (c : Container) (world : Bytes) (v : NamespaceView) (fs : Filesystem)
    (o : Orphans) : Prop where
  view : c.view ⟨world, false⟩ = .ok v
  depicted : c.store.Depicted ⟨world, false⟩ fs
  pictures : v.Pictures fs
  consistent : fs.Consistent
  orphaned : c.store.Orphaned world o
  right : o.Right (c.table.isOpen world) fs

theorem Container.Holds.journal (h : c.Holds world v fs o) : v.journal = c.store.catalog :=
  view_journal h.view

theorem Container.Holds.keeps (h : c.Holds world v fs o) : v.Keeps world o :=
  h.orphaned.keeps h.journal

/-- The file system is what the reads of the version give. -/
theorem Container.Holds.filesystem (h : c.Holds world v fs o) : v.filesystem = fs := by
  obtain ⟨v', m, hv', hshows, hdepicts⟩ := h.depicted
  obtain rfl : v = v' := Except.ok.inj (h.view.symm.trans hv')
  exact hdepicts.filesystem_eq hshows h.pictures

/-- Every World of a coherent repository is a file system. -/
theorem Container.Coherent.holds (hc : c.Coherent) (hv : c.view ⟨world, false⟩ = .ok v) :
    ∃ o, c.Holds world v v.filesystem o := by
  obtain ⟨fs, o, hdepicted, hfs, ho, hright⟩ := hc.world world v hv
  have hholds : c.Holds world v fs o := ⟨hv, hdepicted, hdepicted.pictures hfs hv, hfs, ho, hright⟩
  rw [hholds.filesystem]
  exact ⟨o, hholds⟩

/-- The repository before and after an operation. -/
theorem Performed.settled (h : Performed ns op c c') (hrun : Container.run events = .ok c)
    (hcf : CollisionFree { b | b ∈ c'.hashed }) :
    Settled { b | b ∈ c'.hashed } c c' ∧ c.Coherent ∧ c'.Coherent := by
  have hsound := Container.run_sound hrun
  have hhappened : c.Happened (.call (.onView ns ⟨fun _ => 0, []⟩ op)) c' := .performed ns _ op c' h
  have hold : ∀ b ∈ c.hashed, b ∈ { b | b ∈ c'.hashed } := fun b hb => hhappened.hashed.subset hb
  obtain ⟨hs, hknown⟩ := hsound.intact _ hcf hold
  obtain ⟨hs', hknown'⟩ := hhappened.intact hsound.intact _ hcf fun _ hb => hb
  have hsettled : Settled { b | b ∈ c'.hashed } c c' := ⟨hcf, hs, hs', hknown, hknown'⟩
  have hc := Container.run_coherent hrun (hcf.mono hold)
  exact ⟨hsettled, hc, h.coherent hc hsound.table hsettled fun _ hb => hb⟩

/-- An operation on the current version commits its edits. -/
theorem update_eq_ok {α : Type} {operation : NamespaceView → Except String (Effect α)} {a : α}
    (h : ns.update operation c = .ok a c') : ∃ v e, ns.revision = false ∧ c.view ns = .ok v ∧
      operation v = .ok e ∧ a = e.value ∧ Commits c ns.view v e.edits e.created c' := by
  obtain ⟨_, c₁, hworld, h₁⟩ := run_bind_eq_ok.mp h
  rw [(readOnly_needWorld ns).of_ok hworld] at h₁
  obtain ⟨v, c₂, hv, h₂⟩ := run_bind_eq_ok.mp h₁
  rw [(readOnly_current ns).of_ok hv] at h₂
  obtain ⟨e, c₃, he, h₃⟩ := run_bind_eq_ok.mp h₂
  rw [(readOnly_attempt _).of_ok he] at h₃
  obtain ⟨_, c₄, hcommit, h₄⟩ := run_bind_eq_ok.mp h₃
  obtain ⟨ha, hc⟩ := run_pure_eq_ok.mp h₄
  rw [← ha, ← hc]
  exact ⟨v, e, needWorld_eq_ok hworld, current_eq_ok hv, (attempt_eq_ok.mp he).1, rfl,
    (attains_commitChanges ns v e c).of_ok hcommit⟩

/-- A commit applies its edits to the file system and the orphans of its World. -/
theorem Commits.holds {payloads : Set Bytes} (h : Commits c world v edits created c')
    (hsettled : Settled payloads c c') (hhashed : ∀ x ∈ c'.hashed, x ∈ payloads)
    (hholds : c.Holds world v fs o) (hevolves : Evolves world (c.table.isOpen world) fs o edits) :
    ∃ v', c'.Holds world v' (fs.applyAll edits) (o.applyAll world edits) := by
  have hdepicted := h.depicted hsettled hhashed hholds.view hholds.depicted
  have hcopy := hdepicted
  obtain ⟨v', m, hv', -⟩ := hcopy
  refine ⟨v', hv', hdepicted, hdepicted.pictures hevolves.consistent hv', hevolves.consistent,
    h.orphaned hsettled hhashed hholds.orphaned, ?_⟩
  rw [h.table]
  exact hevolves.right

/-- The edits of an operation are applied to the file system of its World. -/
theorem update_holds {α : Type} {operation : NamespaceView → Except String (Effect α)} {a : α}
    (hrun : Container.run events = .ok c) (hcf : CollisionFree { b | b ∈ c'.hashed })
    (hplanned : ∀ v e, operation v = .ok e → Planned c ns.view v e.edits e.created)
    (h : ns.update operation c = .ok a c') : ∃ v v' o e, ns.revision = false ∧
      c.Holds ns.view v v.filesystem o ∧
      c'.Holds ns.view v' (v.filesystem.applyAll e.edits) (o.applyAll ns.view e.edits) ∧
      operation v = .ok e ∧ a = e.value ∧ (e.edits = [] → c' = c) := by
  obtain ⟨v, e, hworld, hv, he, ha, hcommit⟩ := update_eq_ok h
  have hview : c.view ⟨ns.view, false⟩ = .ok v := by
    rw [← hworld]
    exact hv
  have hperformed : Performed ns .fsInit c c' :=
    .updated v e.edits e.created c' hworld hv (hplanned v e he) hcommit
  obtain ⟨hsettled, hc, -⟩ := hperformed.settled hrun hcf
  obtain ⟨o, hholds⟩ := hc.holds hview
  have hevolves := (hplanned v e he).evolves hholds.right hholds.pictures hholds.consistent
    hholds.keeps (Container.run_table hrun).counts
  obtain ⟨v', hholds'⟩ := hcommit.holds hsettled (fun _ hb => hb) hholds hevolves
  refine ⟨v, v', o, e, hworld, hholds, hholds', he, ha, fun hnil => ?_⟩
  cases hcommit with
  | nothing => rfl
  | batch b store hne => exact absurd hnil hne

end Operations

section Renames

variable [Digest] {c c' : Container} {events : List ContainerEvent}

end Renames

section Samples

local instance operationsDigest : Digest := sha256

end Samples

end ForkFs
