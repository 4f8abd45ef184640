import ForkFs.Container.Evolution

/-!
# Coherent repositories

In every reachable repository each World and revision is a consistent file system, the orphans of
a World are its open files without an inode, Worlds that do not exist have no orphans and no open
files, and open files of revisions are there. This is kept by every event.
-/

namespace ForkFs

open Bytes Outcome

section Orphans

variable {fs : Filesystem} {o : Orphans} {opened opened' : InodeId → Bool} {id : InodeId}

/-- Files may be opened, and closed if they are no orphans. -/
theorem Orphans.Right.reopen (h : o.Right opened fs)
    (hnew : ∀ x, opened' x = true → opened x = true ∨
      fs.allocated x = true ∧ ∃ n, fs.inode x = some n ∧ n.kind = .file)
    (hold : ∀ x, opened x = true → opened' x = true ∨ o.inode x = none) : o.Right opened' fs := by
  refine ⟨fun x hx => ?_, fun x hx hnone => ?_, fun x hx => ?_⟩
  · rcases hnew x hx with hopened | ⟨hallocated, n, hn, hkind⟩
    · exact h.file x hopened
    · refine ⟨hallocated, fun m hm => ?_⟩
      rw [← Option.some.inj (hn.symm.trans hm)]
      exact hkind
  · rcases hnew x hx with hopened | ⟨-, n, hn, -⟩
    · exact h.kept x hopened hnone
    · cases hn.symm.trans hnone
  · refine h.gone x fun hopened => ?_
    rcases hold x hopened with hopened' | hgone
    · exact hx hopened'
    · cases hn : fs.inode x with
      | some n => exact ⟨n, hn⟩
      | none =>
        obtain ⟨n, -, hinode, -⟩ := h.kept x hopened hn
        cases hgone.symm.trans hinode

/-- With its last descriptor an orphan goes. -/
theorem Orphans.Right.forget (h : o.Right opened fs) (hclosed : opened' id = false)
    (hothers : ∀ x, x ≠ id → opened' x = opened x) :
    (⟨Function.update o.inode id none, Function.update o.content id none⟩ : Orphans).Right opened'
      fs := by
  have hne {x : InodeId} (hx : opened' x = true) : x ≠ id := by
    rintro rfl
    rw [hclosed] at hx
    cases hx
  refine ⟨fun x hx => h.file x (hothers x (hne hx) ▸ hx), fun x hx hnone => ?_, fun x hx => ?_⟩
  · obtain ⟨n, data, hn, hdata, hrest⟩ := h.kept x (hothers x (hne hx) ▸ hx) hnone
    exact ⟨n, data, (Function.update_of_ne (hne hx) _ _).trans hn,
      (Function.update_of_ne (hne hx) _ _).trans hdata, hrest⟩
  · by_cases heq : x = id
    · subst heq
      exact ⟨Function.update_self _ _ _, Function.update_self _ _ _⟩
    · obtain ⟨hinode, hcontent⟩ := h.gone x fun hopened => hx ((hothers x heq).trans hopened)
      exact ⟨(Function.update_of_ne heq _ _).trans hinode,
        (Function.update_of_ne heq _ _).trans hcontent⟩

end Orphans

section Coherence

variable [Digest] {payloads : Set Bytes} {c c' : Container} {ns : Namespace}

/-- What holds of the Worlds, revisions and open files of every repository. -/
structure Container.Coherent (c : Container) : Prop where
  /-- Worlds are consistent, and their orphans are right. -/
  world : ∀ world v, c.store.view ⟨world, false⟩ = .ok v → ∃ fs o,
    c.store.Depicted ⟨world, false⟩ fs ∧ fs.Consistent ∧ c.store.Orphaned world o ∧
      o.Right (c.table.isOpen world) fs
  /-- Worlds that do not exist have no orphans and no open files. -/
  absent : ∀ world, (∀ v, c.store.view ⟨world, false⟩ ≠ .ok v) →
    c.store.Orphaned world .empty ∧ ∀ id, c.table.isOpen world id = false
  /-- Revisions are consistent. -/
  revision : ∀ name v, c.store.view ⟨name, true⟩ = .ok v → ∃ fs,
    c.store.Depicted ⟨name, true⟩ fs ∧ fs.Consistent
  /-- Open files of revisions are files. -/
  reader : ∀ (token : Bytes) (h : OpenHandle), c.table.handles[token]? = some h →
    h.revision = true → ∃ fs n, c.store.Depicted ⟨h.view, true⟩ fs ∧ fs.Consistent ∧
      fs.inode h.inode = some n ∧ n.kind = .file

/-- A view is the same before and after. -/
theorem SameView.symm {s s' : LevelStore} {ns ns' : Namespace} (h : SameView s ns s' ns') :
    SameView s' ns' s ns :=
  ⟨fun key hkey => (h.bytes key hkey).symm, fun pre hpre => (h.keys pre hpre).symm,
    h.references.symm⟩

/-- The file system of an unchanged view. -/
theorem Settled.depicted (h : Settled payloads c c') {ns' : Namespace} {fs : Filesystem}
    (hsame : SameView c.store ns c'.store ns') (hdepicted : c.store.Depicted ns fs) :
    c'.store.Depicted ns' fs :=
  hdepicted.sameView hsame h.closed h.closed' h.free h.known h.known'

theorem Settled.exists_view (h : Settled payloads c c') (hsame : SameView c.store ns c'.store ns)
    {v : NamespaceView} (hv : c'.store.view ns = .ok v) : ∃ v, c.store.view ns = .ok v :=
  hsame.symm.exists_view h.closed' h.free h.known' ⟨v, hv⟩

/-- Unchanged views stay coherent when the orphans of each World are right again. -/
theorem Container.Coherent.transfer (hc : c.Coherent) (hsettled : Settled payloads c c')
    (hsame : ∀ ns, SameView c.store ns c'.store ns)
    (hright : ∀ world fs o, c.store.Orphaned world o → o.Right (c.table.isOpen world) fs →
      ∃ o', c'.store.Orphaned world o' ∧ o'.Right (c'.table.isOpen world) fs)
    (habsent : ∀ world, c.store.Orphaned world .empty → (∀ id, c.table.isOpen world id = false) →
      c'.store.Orphaned world .empty ∧ ∀ id, c'.table.isOpen world id = false)
    (hreaders : ∀ (token : Bytes) (h : OpenHandle), c'.table.handles[token]? = some h →
      h.revision = true → ∃ token' : Bytes, c.table.handles[token']? = some h) : c'.Coherent where
  world world v hv := by
    obtain ⟨v₀, hv₀⟩ := hsettled.exists_view (hsame _) hv
    obtain ⟨fs, o, hdepicted, hfs, ho, hopened⟩ := hc.world world v₀ hv₀
    obtain ⟨o', ho', hopened'⟩ := hright world fs o ho hopened
    exact ⟨fs, o', hsettled.depicted (hsame _) hdepicted, hfs, ho', hopened'⟩
  absent world hnone := by
    have hnone₀ (v : NamespaceView) : c.store.view ⟨world, false⟩ ≠ .ok v := by
      intro hv
      obtain ⟨v', hv'⟩ := (hsame _).exists_view hsettled.closed hsettled.free hsettled.known ⟨v, hv⟩
      exact hnone v' hv'
    obtain ⟨ho, hclosed⟩ := hc.absent world hnone₀
    exact habsent world ho hclosed
  revision name v hv := by
    obtain ⟨v₀, hv₀⟩ := hsettled.exists_view (hsame _) hv
    obtain ⟨fs, hdepicted, hfs⟩ := hc.revision name v₀ hv₀
    exact ⟨fs, hsettled.depicted (hsame _) hdepicted, hfs⟩
  reader token h htoken hrevision := by
    obtain ⟨token', htoken'⟩ := hreaders token h htoken hrevision
    obtain ⟨fs, n, hdepicted, hfs, hn⟩ := hc.reader token' h htoken' hrevision
    exact ⟨fs, n, hsettled.depicted (hsame _) hdepicted, hfs, hn⟩

/-- Unchanged views with the same orphans and open files stay coherent. -/
theorem Container.Coherent.frame (hc : c.Coherent) (hsettled : Settled payloads c c')
    (hsame : ∀ ns, SameView c.store ns c'.store ns)
    (horphans : ∀ world o, c.store.Orphaned world o → c'.store.Orphaned world o)
    (htable : c'.table = c.table) : c'.Coherent := by
  apply hc.transfer hsettled hsame
  · intro world fs o ho hright
    exact ⟨o, horphans world o ho, by rwa [htable]⟩
  · intro world ho hclosed
    exact ⟨horphans world _ ho, by rwa [htable]⟩
  · intro token h htoken _
    exact ⟨token, by rwa [← htable]⟩

/-- A view depicts one consistent file system. -/
theorem LevelStore.Depicted.unique {s : LevelStore} {fs fs' : Filesystem} (h : s.Depicted ns fs)
    (hfs : fs.Consistent) (h' : s.Depicted ns fs') (hfs' : fs'.Consistent) : fs = fs' := by
  obtain ⟨v, m, hv, hshows, hdepicts⟩ := h
  obtain ⟨v', m', hv', hshows', hdepicts'⟩ := h'
  obtain rfl : v = v' := Except.ok.inj (hv.symm.trans hv')
  have hpictures := hdepicts.pictures hshows fun id n hn => (hfs.inode id n hn).valid
  have hpictures' := hdepicts'.pictures hshows' fun id n hn => (hfs'.inode id n hn).valid
  rw [← hdepicts.filesystem_eq hshows hpictures, ← hdepicts'.filesystem_eq hshows' hpictures']

/-- A commit applies the edits to the file system of its World. -/
theorem Commits.depicted {world : Bytes} {v : NamespaceView} {edits : List Edit}
    {created : Option InodeId} {fs : Filesystem} (h : Commits c world v edits created c')
    (hsettled : Settled payloads c c') (hhashed : ∀ x ∈ c'.hashed, x ∈ payloads)
    (hv : c.store.view ⟨world, false⟩ = .ok v) (hdepicted : c.store.Depicted ⟨world, false⟩ fs) :
    c'.store.Depicted ⟨world, false⟩ (fs.applyAll edits) := by
  cases h with
  | nothing hedits =>
    rw [hedits]
    exact hdepicted
  | batch b store hedits hplan hstore =>
    exact (planCommit_eq_ok hplan).depicted hsettled.free hsettled.closed hsettled.known hv hdepicted
      (LevelStore.transact_eq_ok hstore) fun x hx => hhashed x (List.mem_append_right _ hx)

/-- A commit applies the edits to the orphans of every World. -/
theorem Commits.orphaned {world w : Bytes} {v : NamespaceView} {edits : List Edit}
    {created : Option InodeId} {o : Orphans} (h : Commits c world v edits created c')
    (hsettled : Settled payloads c c') (hhashed : ∀ x ∈ c'.hashed, x ∈ payloads)
    (ho : c.store.Orphaned w o) : c'.store.Orphaned w (o.applyAll w edits) := by
  cases h with
  | nothing hedits =>
    rw [hedits]
    exact ho
  | batch b store hedits hplan hstore =>
    exact (planCommit_eq_ok hplan).orphaned hsettled.free hsettled.closed hsettled.known
      (LevelStore.transact_eq_ok hstore) (fun x hx => hhashed x (List.mem_append_right _ hx)) ho

/-- A commit whose edits keep a World consistent and its orphans right. -/
theorem Container.Coherent.commit {world : Bytes} {v : NamespaceView} {edits : List Edit}
    {created : Option InodeId} (hc : c.Coherent) (hsettled : Settled payloads c c')
    (hhashed : ∀ x ∈ c'.hashed, x ∈ payloads) (hv : c.store.view ⟨world, false⟩ = .ok v)
    (hcommit : Commits c world v edits created c')
    (hevolves : ∀ fs o, c.store.Depicted ⟨world, false⟩ fs → fs.Consistent →
      c.store.Orphaned world o → o.Right (c.table.isOpen world) fs →
      Evolves world (c.table.isOpen world) fs o edits) : c'.Coherent := by
  obtain ⟨fs, o, hdepicted, hfs, ho, hright⟩ := hc.world world v hv
  have hevolved := hevolves fs o hdepicted hfs ho hright
  have hsame (ns : Namespace) (hns : ns ≠ ⟨world, false⟩) : SameView c.store ns c'.store ns :=
    hcommit.sameView hsettled hv hns
  have hother {w : Bytes} (hw : w ≠ world) : (⟨w, false⟩ : Namespace) ≠ ⟨world, false⟩ :=
    fun heq => hw (congrArg Namespace.view heq)
  have hsaved (name : Bytes) : SameView c.store ⟨name, true⟩ c'.store ⟨name, true⟩ :=
    hsame ⟨name, true⟩ nofun
  have hdepicted' := hcommit.depicted hsettled hhashed hv hdepicted
  have horphans {w : Bytes} {o' : Orphans} (ho' : c.store.Orphaned w o') :=
    hcommit.orphaned hsettled hhashed ho'
  cases hcommit with
  | nothing => exact hc
  | batch b store hedits hplan hstore =>
    constructor
    case world =>
      intro w v' hv'
      by_cases hw : w = world
      · subst hw
        exact ⟨_, _, hdepicted', hevolved.consistent, horphans ho, hevolved.right⟩
      · obtain ⟨v₀, hv₀⟩ := hsettled.exists_view (hsame _ (hother hw)) hv'
        obtain ⟨fs', o', hdepicted₀, hfs', ho', hright'⟩ := hc.world w v₀ hv₀
        have hkept := horphans ho'
        rw [hevolved.others w hw o'] at hkept
        exact ⟨fs', o', hsettled.depicted (hsame _ (hother hw)) hdepicted₀, hfs', hkept, hright'⟩
    case absent =>
      intro w hnone
      have hw : w ≠ world := by
        rintro rfl
        obtain ⟨v', -, hv', -⟩ := hdepicted'
        exact hnone v' hv'
      obtain ⟨ho', hclosed⟩ := hc.absent w fun v₀ hv₀ => by
        obtain ⟨v', hv'⟩ := (hsame _ (hother hw)).exists_view hsettled.closed hsettled.free
          hsettled.known ⟨v₀, hv₀⟩
        exact hnone v' hv'
      have hkept := horphans ho'
      rw [hevolved.others w hw] at hkept
      exact ⟨hkept, hclosed⟩
    case revision =>
      intro name v' hv'
      obtain ⟨v₀, hv₀⟩ := hsettled.exists_view (hsaved name) hv'
      obtain ⟨fs', hdepicted₀, hfs'⟩ := hc.revision name v₀ hv₀
      exact ⟨fs', hsettled.depicted (hsaved name) hdepicted₀, hfs'⟩
    case reader =>
      intro token h htoken hrevision
      obtain ⟨fs', n, hdepicted₀, hfs', hn⟩ := hc.reader token h htoken hrevision
      exact ⟨fs', n, hsettled.depicted (hsaved h.view) hdepicted₀, hfs', hn⟩

/-- Descriptors may be added for files that are there, and removed for files that are no orphans. -/
theorem Container.Coherent.retable (hc : c.Coherent) (hstore : c'.store = c.store)
    (hnew : ∀ world id, c'.table.isOpen world id = true → c.table.isOpen world id = true ∨
      ∃ fs n, c.store.Depicted ⟨world, false⟩ fs ∧ fs.Consistent ∧ fs.inode id = some n ∧
        n.kind = .file)
    (hold : ∀ world id, c.table.isOpen world id = true → c'.table.isOpen world id = true ∨
      (RootName.orphanInode world id).key ∉ c.store.roots)
    (hreaders : ∀ (token : Bytes) (h : OpenHandle), c'.table.handles[token]? = some h →
      h.revision = true → (∃ token' : Bytes, c.table.handles[token']? = some h) ∨
      ∃ fs n, c.store.Depicted ⟨h.view, true⟩ fs ∧ fs.Consistent ∧ fs.inode h.inode = some n ∧
        n.kind = .file) : c'.Coherent := by
  constructor <;> rw [hstore]
  case world =>
    intro world v hv
    obtain ⟨fs, o, hdepicted, hfs, ho, hright⟩ := hc.world world v hv
    refine ⟨fs, o, hdepicted, hfs, ho, hright.reopen (fun x hx => ?_) fun x hx => ?_⟩
    · refine (hnew world x hx).imp id ?_
      rintro ⟨fs', n, hdepicted', hfs', hn, hkind⟩
      obtain rfl := hdepicted.unique hfs hdepicted' hfs'
      exact ⟨(hfs.inode x n hn).allocated, n, hn, hkind⟩
    · refine (hold world x hx).imp id fun hroot => ?_
      have hrecord := ho (.orphanInode world x) rfl
      rw [StdMap.notMem_iff.mp hroot] at hrecord
      simpa [Orphans.record] using hrecord.symm
  case absent =>
    intro world hnone
    obtain ⟨ho, hclosed⟩ := hc.absent world hnone
    refine ⟨ho, fun id => ?_⟩
    by_contra hopen
    rcases hnew world id (Bool.eq_true_of_not_eq_false hopen) with hopened | ⟨fs, n, ⟨v, -, hv, -⟩, -⟩
    · rw [hclosed id] at hopened
      cases hopened
    · exact hnone v hv
  case revision => exact hc.revision
  case reader =>
    intro token h htoken hrevision
    rcases hreaders token h htoken hrevision with ⟨token', htoken'⟩ | hfile
    · exact hc.reader token' h htoken' hrevision
    · exact hfile

/-- The orphan roots of other files are kept when those of one file are deleted. -/
theorem LevelStore.Transacted.other_orphans {s s' : LevelStore} {world : Bytes} {id : InodeId}
    (h : LevelStore.Transacted s [.assign (RootName.orphanInode world id).key none,
      .assign (RootName.orphanContent world id).key none] s') {n : RootName}
    (hinode : n ≠ .orphanInode world id) (hcontent : n ≠ .orphanContent world id) :
    s'.roots[n.key]? = s.roots[n.key]? := by
  refine h.frame _ fun hmem => ?_
  rcases List.mem_cons.mp hmem with hkey | hmem
  · exact hinode (RootName.key_injective hkey)
  · exact hcontent (RootName.key_injective (List.mem_singleton.mp hmem))

/-- Without its roots an orphan is forgotten. -/
theorem LevelStore.Orphaned.forget {s s' : LevelStore} {world : Bytes} {id : InodeId} {o : Orphans}
    (ho : s.Orphaned world o)
    (h : LevelStore.Transacted s [.assign (RootName.orphanInode world id).key none,
      .assign (RootName.orphanContent world id).key none] s') :
    s'.Orphaned world ⟨Function.update o.inode id none, Function.update o.content id none⟩ := by
  have hdeleted : s'.roots[(RootName.orphanInode world id).key]? = none ∧
      s'.roots[(RootName.orphanContent world id).key]? = none :=
    ⟨h.bound (.assign (RootName.orphanInode world id).key none) (by simp),
      h.bound (.assign (RootName.orphanContent world id).key none) (by simp)⟩
  intro n hn
  have hrest (hinode : n ≠ .orphanInode world id) (hcontent : n ≠ .orphanContent world id) :=
    ho.record_of_root hn (h.other_orphans hinode hcontent) h.extends_
  cases n with
  | orphanInode view x =>
    obtain rfl : view = world := hn
    by_cases hx : x = id
    · rw [hx, hdeleted.1]
      simp [Orphans.record]
    · rw [hrest (fun heq => hx (RootName.orphanInode.inj heq).2) (by simp)]
      simp [Orphans.record, hx]
  | orphanContent view x =>
    obtain rfl : view = world := hn
    by_cases hx : x = id
    · rw [hx, hdeleted.2]
      simp [Orphans.record]
    · rw [hrest (by simp) fun heq => hx (RootName.orphanContent.inj heq).2]
      simp [Orphans.record, hx]
  | _ => cases hn

/-- With its last descriptor an orphan and its roots go. -/
theorem Container.Coherent.forget {world : Bytes} {id : InodeId} (hc : c.Coherent)
    (hsettled : Settled payloads c c')
    (hstore : LevelStore.Transacted c.store [.assign (RootName.orphanInode world id).key none,
      .assign (RootName.orphanContent world id).key none] c'.store)
    (hsame : ∀ ns, SameView c.store ns c'.store ns) (hclosed : c'.table.isOpen world id = false)
    (hothers : ∀ w x, ¬ (w = world ∧ x = id) → c'.table.isOpen w x = c.table.isOpen w x)
    (hreaders : ∀ (token : Bytes) (h : OpenHandle), c'.table.handles[token]? = some h →
      h.revision = true → ∃ token' : Bytes, c.table.handles[token']? = some h) : c'.Coherent := by
  have hkept {w : Bytes} {o : Orphans} (hw : w ≠ world) (ho : c.store.Orphaned w o) :
      c'.store.Orphaned w o := by
    intro n hn
    refine ho.record_of_root hn (hstore.other_orphans ?_ ?_) hstore.extends_ <;> rintro rfl <;>
      exact hw hn.symm
  apply hc.transfer hsettled hsame
  · intro w fs o ho hright
    by_cases hw : w = world
    · subst hw
      exact ⟨_, ho.forget hstore, hright.forget hclosed fun x hx => hothers w x fun heq => hx heq.2⟩
    · refine ⟨o, hkept hw ho, ?_⟩
      rwa [funext fun x => hothers w x fun heq => hw heq.1]
  · intro w ho hnot
    constructor
    · by_cases hw : w = world
      · subst hw
        have hempty := ho.forget hstore
        simpa [Orphans.empty] using hempty
      · exact hkept hw ho
    · intro x
      by_cases heq : w = world ∧ x = id
      · rw [heq.1, heq.2, hclosed]
      · rw [hothers w x heq, hnot x]
  · exact hreaders

/-- Without open files and orphan roots nothing is an orphan. -/
theorem Container.Coherent.emptied (hc : c.Coherent) (hsettled : Settled payloads c c')
    (hsame : ∀ ns, SameView c.store ns c'.store ns)
    (hroots : ∀ world (n : RootName), n.OrphanOf world → n.key ∉ c'.store.roots)
    (hclosed : ∀ world id, c'.table.isOpen world id = false)
    (hhandles : ∀ token : Bytes, c'.table.handles[token]? = none) : c'.Coherent := by
  have hnone (world : Bytes) : c'.store.Orphaned world .empty := by
    intro n hn
    rw [StdMap.notMem_iff.mp (hroots world n hn)]
    cases n with
    | orphanInode | orphanContent => rfl
    | _ => cases hn
  apply hc.transfer hsettled hsame
  · intro world fs o ho hright
    refine ⟨.empty, hnone world, fun x hx => ?_, fun x hx => ?_, fun x _ => ⟨rfl, rfl⟩⟩
    all_goals
      rw [hclosed] at hx
      cases hx
  · intro world ho hnot
    exact ⟨hnone world, hclosed world⟩
  · intro token h htoken
    cases (hhandles token).symm.trans htoken

/-- Without open files there are no orphan roots. -/
theorem Container.Coherent.no_orphans (hc : c.Coherent)
    (hclosed : ∀ world id, c.table.isOpen world id = false) (world : Bytes) {n : RootName}
    (hn : n.OrphanOf world) : n.key ∉ c.store.roots := by
  have hempty : c.store.Orphaned world .empty := by
    by_cases hv : ∃ v, c.store.view ⟨world, false⟩ = .ok v
    · obtain ⟨v, hv⟩ := hv
      obtain ⟨fs, o, -, -, ho, hright⟩ := hc.world world v hv
      have hgone (x : InodeId) := hright.gone x fun hopened => by
        rw [hclosed] at hopened
        cases hopened
      have hinode : o.inode = Orphans.empty.inode := funext fun x => (hgone x).1
      have hcontent : o.content = Orphans.empty.content := funext fun x => (hgone x).2
      obtain ⟨inode, content⟩ := o
      cases hinode
      cases hcontent
      exact ho
    · exact (hc.absent world fun v hopen => hv ⟨v, hopen⟩).1
  have hrecord := hempty n hn
  rw [StdMap.notMem_iff]
  cases hroot : c.store.roots[n.key]? with
  | none => rfl
  | some id =>
    rw [hroot] at hrecord
    cases n with
    | orphanInode | orphanContent => cases hrecord
    | _ => cases hn

/-- A version is a consistent file system. -/
theorem Container.Coherent.exists_filesystem (hc : c.Coherent) {v : NamespaceView}
    (hv : c.store.view ns = .ok v) : ∃ fs, c.store.Depicted ns fs ∧ fs.Consistent := by
  obtain ⟨name, _ | _⟩ := ns
  · obtain ⟨fs, -, hdepicted, hfs, -⟩ := hc.world name v hv
    exact ⟨fs, hdepicted, hfs⟩
  · exact hc.revision name v hv

/-- A new World or revision is a copy. -/
theorem Container.Coherent.copied {source target : Namespace} {v : NamespaceView}
    (hc : c.Coherent) (hsettled : Settled payloads c c') (hv : c.store.view source = .ok v)
    (hfresh : ∀ v, c.store.view target ≠ .ok v)
    (hcopy : SameView c.store source c'.store target)
    (hsame : ∀ ns, ns ≠ target → SameView c.store ns c'.store ns)
    (horphans : ∀ world o, c.store.Orphaned world o → c'.store.Orphaned world o)
    (htable : c'.table = c.table) : c'.Coherent := by
  obtain ⟨copy, hdepicted, hcopied⟩ := hc.exists_filesystem hv
  have hnew := hsettled.depicted hcopy hdepicted
  have hold {ns : Namespace} (hns : ns ≠ target) {v : NamespaceView}
      (hview : c'.store.view ns = .ok v) := hsettled.exists_view (hsame ns hns) hview
  constructor
  case world =>
    intro world v' hv'
    by_cases htarget : (⟨world, false⟩ : Namespace) = target
    · obtain ⟨ho, hclosed⟩ := hc.absent world (htarget ▸ hfresh)
      refine ⟨copy, .empty, htarget ▸ hnew, hcopied, horphans world _ ho, ?_⟩
      rw [htable]
      refine ⟨fun x hx => ?_, fun x hx => ?_, fun x _ => ⟨rfl, rfl⟩⟩
      all_goals
        rw [hclosed] at hx
        cases hx
    · obtain ⟨v₀, hv₀⟩ := hold htarget hv'
      obtain ⟨fs, o, hdepicted₀, hfs, ho, hright⟩ := hc.world world v₀ hv₀
      exact ⟨fs, o, hsettled.depicted (hsame _ htarget) hdepicted₀, hfs, horphans world o ho,
        by rwa [htable]⟩
  case absent =>
    intro world hnone
    have htarget : (⟨world, false⟩ : Namespace) ≠ target := by
      rintro rfl
      obtain ⟨v', -, hv', -⟩ := hnew
      exact hnone v' hv'
    obtain ⟨ho, hclosed⟩ := hc.absent world fun v₀ hv₀ => by
      obtain ⟨v', hv'⟩ := (hsame _ htarget).exists_view hsettled.closed hsettled.free
        hsettled.known ⟨v₀, hv₀⟩
      exact hnone v' hv'
    exact ⟨horphans world _ ho, by rwa [htable]⟩
  case revision =>
    intro name v' hv'
    by_cases htarget : (⟨name, true⟩ : Namespace) = target
    · exact ⟨copy, htarget ▸ hnew, hcopied⟩
    · obtain ⟨v₀, hv₀⟩ := hold htarget hv'
      obtain ⟨fs, hdepicted₀, hfs⟩ := hc.revision name v₀ hv₀
      exact ⟨fs, hsettled.depicted (hsame _ htarget) hdepicted₀, hfs⟩
  case reader =>
    intro token h htoken hrevision
    rw [htable] at htoken
    obtain ⟨fs, n, hdepicted₀, hfs, hn⟩ := hc.reader token h htoken hrevision
    have htarget : (⟨h.view, true⟩ : Namespace) ≠ target := by
      rintro rfl
      obtain ⟨v', -, hv', -⟩ := hdepicted₀
      exact hfresh v' hv'
    exact ⟨fs, n, hsettled.depicted (hsame _ htarget) hdepicted₀, hfs, hn⟩

end Coherence

end ForkFs
