import ForkFs.Container.FileHistory

/-!
# Files along runs

One call through a World edits its files as `NamespaceCall.edit` says, whatever part of it is in the
tree of the World and whatever is among the orphans. By induction this is so along every sequence of
calls, and what the descriptors read is always the file of the abstract model.
-/

namespace ForkFs

open Bytes Outcome

section Steps

variable [Digest] {payloads : Set Bytes} {c c' c'' : Container} {world : Bytes} {v v' : NamespaceView}
  {fs fs' : Filesystem} {o o' : Orphans} {g : InodeId → File → File} {events : List ContainerEvent}

/-- The files of a World that are left are edited. -/
def Container.EditsFiles (c : Container) (world : Bytes) (g : InodeId → File → File)
    (c' : Container) : Prop :=
  ∀ x f f', c.file world x = some f → c'.file world x = some f' → f' = g x f

theorem Container.file_of_store (h : c'.store = c.store) (x : InodeId) :
    c'.file world x = c.file world x := by
  rw [Container.file, Container.file, Container.view, Container.view, h]

theorem Container.EditsFiles.of_store (h : c.EditsFiles world g c') (hstore : c''.store = c'.store) :
    c.EditsFiles world g c'' := by
  intro x f f' hf hf'
  rw [Container.file_of_store hstore] at hf'
  exact h x f f' hf hf'

theorem Container.editsFiles_of_store (hstore : c'.store = c.store) :
    c.EditsFiles world (fun _ f => f) c' := by
  intro x f f' hf hf'
  rw [Container.file_of_store hstore] at hf'
  exact Option.some.inj (hf'.symm.trans hf)

theorem Container.Holds.editsFiles (h : c.Holds world v fs o) (h' : c'.Holds world v' fs' o')
    (hedits : Edits g fs o fs' o') : c.EditsFiles world g c' := by
  intro x f f' hf hf'
  rw [h.file_eq] at hf
  rw [h'.file_eq] at hf'
  exact hedits x f f' hf hf'

/-- A World that is spared keeps its file system and its orphans. -/
theorem Container.Holds.frame (h : c.Holds world v fs o) (hsettled : Settled payloads c c')
    (hsame : SameView c.store ⟨world, false⟩ c'.store ⟨world, false⟩)
    (horphaned : c'.store.Orphaned world o') (hright : o'.Right (c'.table.isOpen world) fs) :
    ∃ v', c'.Holds world v' fs o' := by
  have hdepicted := hsettled.depicted hsame h.depicted
  have hcopy := hdepicted
  obtain ⟨v', m, hv', -⟩ := hcopy
  exact ⟨v', hv', hdepicted, hdepicted.pictures h.consistent hv', h.consistent, horphaned, hright⟩

/-- The edits of a commit are those of the files, also when the table changes with it. -/
theorem Commits.editsFiles {t : HandleTable} {edits : List Edit} {created : Option InodeId}
    (hcommit : Commits { c with table := t } world v edits created c')
    (hsettled : Settled payloads c c') (hhashed : ∀ x ∈ c'.hashed, x ∈ payloads)
    (hholds : c.Holds world v fs o) (hevolves : Evolves world (c.table.isOpen world) fs o edits)
    (hedits : Edits g fs o (fs.applyAll edits) (o.applyAll world edits)) :
    c.EditsFiles world g c' := by
  obtain ⟨v', hholds'⟩ := hcommit.retable.holds (hsettled.retable c.table) hhashed hholds hevolves
  exact (hholds.editsFiles hholds' hedits).of_store rfl

/-- An operation on the current version edits files. -/
theorem attains_update_edits {α : Type} {operation : NamespaceView → Except String (Effect α)}
    {g : NamespaceView → InodeId → File → File} (hrun : Container.run events = .ok c)
    (hplanned : ∀ v e, operation v = .ok e → Planned c world v e.edits e.created)
    (hedits : ∀ v fs o e, v.Pictures fs → fs.Consistent → o.Right (c.table.isOpen world) fs →
      operation v = .ok e → Edits (g v) fs o (fs.applyAll e.edits) (o.applyAll world e.edits)) :
    Attains (Namespace.update ⟨world, false⟩ operation) c fun _ c' =>
      CollisionFree { b | b ∈ c'.hashed } →
        ∀ v, c.view ⟨world, false⟩ = .ok v → c.EditsFiles world (g v) c' := by
  have hattains : Attains (Namespace.update ⟨world, false⟩ operation) c fun _ c' =>
      Performed ⟨world, false⟩ .fsInit c c' := attains_update hplanned
  refine hattains.strengthen fun a c' h hcf v hv => ?_
  obtain ⟨v₀, v', o, e, -, hholds, hholds', he, -⟩ := update_holds hrun hcf hplanned h
  obtain rfl : v = v₀ := Except.ok.inj (hv.symm.trans hholds.view)
  exact hholds.editsFiles hholds' (hedits v _ o e hholds.pictures hholds.consistent hholds.right he)

/-- An operation through a descriptor applies its edits to the file system and the orphans. -/
theorem EditsOpen.holds {α : Type} {token : Bytes} {h : OpenHandle} {e : Effect α}
    {operation : NamespaceView → OpenHandle → Except String (Effect α)}
    (hedits : EditsOpen ⟨world, false⟩ token operation c h v e c')
    (hrun : Container.run events = .ok c) (hplanned : Planned c world v e.edits e.created)
    (hcf : CollisionFree { b | b ∈ c'.hashed }) : ∃ o v', c.Holds world v v.filesystem o ∧
      c.table.isOpen world h.inode = true ∧
      c'.Holds world v' (v.filesystem.applyAll e.edits) (o.applyAll world e.edits) := by
  have hperformed : Performed ⟨world, false⟩ .fsInit c c' :=
    .updated v e.edits e.created c' rfl hedits.view hplanned hedits.commit
  obtain ⟨hsettled, hc, -⟩ := hperformed.settled hrun hcf
  obtain ⟨o, hholds⟩ := hc.holds hedits.view
  have hcounts := (Container.run_table hrun).counts
  have hopened : c.table.isOpen world h.inode = true :=
    hcounts.isOpen_iff.mpr ⟨token, h, hedits.token, hedits.handle.2, hedits.handle.1, rfl⟩
  have hevolves := hplanned.evolves hholds.right hholds.pictures hholds.consistent hholds.keeps hcounts
  obtain ⟨v', hholds'⟩ := hedits.commit.holds hsettled (fun _ hb => hb) hholds hevolves
  exact ⟨o, v', hholds, hopened, hholds'⟩

/-- An operation through a descriptor edits files. -/
theorem EditsOpen.editsFiles {α : Type} {token : Bytes} {h : OpenHandle} {e : Effect α}
    {operation : NamespaceView → OpenHandle → Except String (Effect α)}
    (hedits : EditsOpen ⟨world, false⟩ token operation c h v e c')
    (hrun : Container.run events = .ok c)
    (hplanned : Planned c world v e.edits e.created) (hcf : CollisionFree { b | b ∈ c'.hashed })
    (hfiles : ∀ fs o, v.Pictures fs → fs.Consistent → o.Right (c.table.isOpen world) fs →
      v.Keeps world o → c.table.isOpen world h.inode = true →
      Edits g fs o (fs.applyAll e.edits) (o.applyAll world e.edits)) : c.EditsFiles world g c' := by
  obtain ⟨o, v', hholds, hopened, hholds'⟩ := hedits.holds hrun hplanned hcf
  exact hholds.editsFiles hholds'
    (hfiles _ o hholds.pictures hholds.consistent hholds.right hholds.keeps hopened)

/-- A content edit through a descriptor. -/
theorem attains_editHandle_edits {env : Env} {token : Bytes}
    {edit : OpenHandle → Container → ContentEdit} {g : OpenHandle → Bytes → Bytes}
    (hrun : Container.run events = .ok c)
    (hg : ∀ h data value, edit h c data = .ok value → g h data = value.getD data) :
    Attains (Namespace.editHandle ⟨world, false⟩ env token edit) c fun _ c' =>
      CollisionFree { b | b ∈ c'.hashed } →
        c.EditsFiles world (c.table.editToken token fun h f => { f with data := g h f.data }) c' := by
  refine attains_editHandle.imp ?_
  rintro ⟨h, size⟩ c' ⟨v, e, hedits, -⟩ hcf
  refine hedits.editsFiles hrun hedits.planned hcf fun fs o hv hfs ho hkeeps hopened => ?_
  exact edits_editHandle ho hv hfs hkeeps hedits.token hopened hedits.effect (hg h)

/-- The edits of `open`. -/
theorem Opens.editsFiles {env : Env} {path token : Bytes} {access : Access} {options : OpenOptions}
    {opening : Opening} (hrun : Container.run events = .ok c)
    (h : Opens ⟨world, false⟩ env path access options c v opening token c')
    (hcf : CollisionFree { b | b ∈ c'.hashed }) :
    c.EditsFiles world (NamespaceCall.edit v c.table (.openHandle path access options)) c' := by
  have hperformed : Performed ⟨world, false⟩ .fsInit c c' := h.performed
  obtain ⟨hsettled, hc, -⟩ := hperformed.settled hrun hcf
  obtain ⟨o, hholds⟩ := hc.holds h.view
  have hevolves : Evolves world (c.table.isOpen world) v.filesystem o opening.effect.edits :=
    (Evolves.openFile hholds.right hholds.pictures hholds.consistent h.mode_revision.1 h.found).1
  exact h.commit.editsFiles hsettled (fun _ hb => hb) hholds hevolves
    (edits_openFile hholds.right hholds.pictures hholds.consistent h.found)

/-- Snapshots and forks keep the files of Worlds. -/
theorem Container.Holds.editsFiles_of_spares {mutations : List Mutation} (h : c.Holds world v fs o)
    (hsettled : Settled payloads c c')
    (hstore : c.store.transact c.store.sequence mutations = .ok c'.store)
    (hspares : ∀ m ∈ mutations, ForkFs.Spares c.store ⟨world, false⟩ m.key)
    (horphans : ∀ m ∈ mutations, ∀ n : RootName, n.OrphanOf world → m.key ≠ n.key)
    (htable : c'.table = c.table) : c.EditsFiles world (fun _ f => f) c' := by
  have hright : o.Right (c'.table.isOpen world) fs := by
    rw [htable]
    exact h.right
  obtain ⟨v', h'⟩ := h.frame hsettled (hsettled.sameView hstore hspares)
    (h.orphaned.frame (LevelStore.transact_eq_ok hstore) horphans) hright
  exact h.editsFiles h' (Unedited.refl fs o)

theorem attains_snapshot_edits {name : Bytes} (hrun : Container.run events = .ok c) :
    Attains (Namespace.snapshot ⟨world, false⟩ name) c fun _ c' =>
      CollisionFree { b | b ∈ c'.hashed } → c.EditsFiles world (fun _ f => f) c' := by
  refine attains_snapshot_plan.imp ?_
  rintro id c' ⟨b, store, hname, hworld, hplan, hstore, rfl⟩ hcf x f f' hf hf'
  have hperformed : Performed ⟨world, false⟩ .fsInit c
      { c with store := store, hashed := c.hashed ++ b.hashed } :=
    .snapshot name id b store hname hworld hplan hstore
  obtain ⟨hsettled, hc, -⟩ := hperformed.settled hrun hcf
  have hplanned := planSnapshot_eq_ok hplan
  cases hv : c.view ⟨world, false⟩ with
  | error message =>
    rw [Container.file, hv] at hf
    cases hf
  | ok v =>
    obtain ⟨o, hholds⟩ := hc.holds hv
    exact hholds.editsFiles_of_spares hsettled hstore (hplanned.spares (by simp))
      (fun m hm n hn => hplanned.ne_orphan hm hn) rfl x f f' hf hf'

theorem attains_fork_edits {revision fork : Bytes} (hrun : Container.run events = .ok c) :
    Attains (Namespace.fork ⟨world, false⟩ revision fork) c fun _ c' =>
      CollisionFree { b | b ∈ c'.hashed } → c.EditsFiles world (fun _ f => f) c' := by
  refine attains_fork_plan.imp ?_
  rintro - c' ⟨b, store, hrevision, hname, hmain, hworld, hplan, hstore, rfl⟩ hcf x f f' hf hf'
  have hperformed : Performed ⟨world, false⟩ .fsInit c
      { c with store := store, hashed := c.hashed ++ b.hashed } :=
    .forked revision fork b store hrevision hname hmain hworld hplan hstore
  obtain ⟨hsettled, hc, -⟩ := hperformed.settled hrun hcf
  have hplanned := planFork_eq_ok hplan
  cases hv : c.view ⟨world, false⟩ with
  | error message =>
    rw [Container.file, hv] at hf
    cases hf
  | ok v =>
    obtain ⟨o, hholds⟩ := hc.holds hv
    have hother : (⟨world, false⟩ : Namespace) ≠ ⟨fork, false⟩ := by
      rintro heq
      obtain ⟨rfl, -⟩ := Namespace.mk.inj heq
      cases hplanned with
      | fork id manifest v record hfresh =>
        cases viewed_of_open hsettled.closed hv with
        | flat hname => exact hmain hname
        | world _ id _ _ hhead => exact hfresh (StdMap.mem_iff.mpr ⟨id, hhead⟩)
        | revision hrevision => cases hrevision
    exact hholds.editsFiles_of_spares hsettled hstore (hplanned.spares hother)
      (fun m hm n hn => hplanned.ne_orphan hm hn) rfl x f f' hf hf'

omit [Digest] in
/-- The files that are left when an orphan is forgotten. -/
theorem unedited_forget {id : InodeId} : Unedited fs o fs
    ⟨Function.update o.inode id none, Function.update o.content id none⟩ := by
  intro x f f' hf hf'
  unfold Filesystem.file at hf hf'
  cases hn : fs.inode x with
  | some n =>
    rw [hn] at hf hf'
    exact Option.some.inj (hf'.symm.trans hf)
  | none =>
    rw [hn] at hf hf'
    by_cases hx : x = id
    · simp [hx] at hf'
    · simp only [Function.update_of_ne hx] at hf'
      exact Option.some.inj (hf'.symm.trans hf)

/-- Only the file of the last descriptor goes with it. -/
theorem attains_close_edits {token : Bytes} (hrun : Container.run events = .ok c) :
    Attains (Namespace.close ⟨world, false⟩ token) c fun _ c' =>
      CollisionFree { b | b ∈ c'.hashed } → c.EditsFiles world (fun _ f => f) c' := by
  refine attains_close.imp ?_
  rintro - c' hcloses hcf
  have hperformed := hcloses.performed
  obtain ⟨hsettled, hc, hc'⟩ := hperformed.settled hrun hcf
  have ht := Container.run_table hrun
  have ht' := ht.step hperformed.step
  cases hcloses with
  | closed => exact Container.editsFiles_of_store rfl
  | dropped h store htoken hview hrevision hworld hcount horphan hstore =>
    intro x f f' hf hf'
    cases hv : c.view ⟨world, false⟩ with
    | error message =>
      rw [Container.file, hv] at hf
      cases hf
    | ok v =>
      obtain ⟨o, hholds⟩ := hc.holds hv
      rw [show h.view = world from hview] at hstore
      have hhandles : ((c.table.uncounted h).erase token).handles = c.table.handles.erase token := by
        rw [HandleTable.handles_erase, HandleTable.handles_uncounted]
      have hclose := isOpen_close ht.counts ht'.counts htoken hhandles
      have hright : (⟨Function.update o.inode h.inode none, Function.update o.content h.inode none⟩ :
          Orphans).Right (((c.table.uncounted h).erase token).isOpen world) v.filesystem := by
        refine hholds.right.forget ?_ fun x hx => ?_
        · rw [hclose, if_pos ⟨hworld, hview, rfl, hcount⟩]
        · rw [hclose, if_neg]
          rintro ⟨-, -, rfl, -⟩
          exact hx rfl
      obtain ⟨v', hholds'⟩ := hholds.frame hsettled
        (hsettled.sameView hstore (spares_of_orphanRoots world h.inode))
        (hholds.orphaned.forget (LevelStore.transact_eq_ok hstore)) hright
      exact hholds.editsFiles hholds' unedited_forget x f f' hf hf'

end Steps

section Calls

variable [Digest] {c c' : Container} {world : Bytes} {ns : Namespace} {events : List ContainerEvent}

theorem attains_tryLockRange_store {token : Bytes} {mode : Option LockMode} {start length : ℕ} :
    Attains (ns.tryLockRange token mode start length) c fun _ c' => c'.store = c.store := by
  refine (readOnly_attempt _).bind fun _ _ => ?_
  refine (readOnly_findHandle ns token).bind fun h _ => ?_
  refine readOnly_get.bind fun c₁ _ => ?_
  split
  · exact attains_pure rfl
  · exact (readOnly_attempt _).bind fun _ _ => attains_of_ok rfl rfl

theorem attains_seek_store {token : Bytes} {offset : ℤ} {origin : SeekOrigin} :
    Attains (ns.seek token offset origin) c fun _ c' => c'.store = c.store := by
  refine (readOnly_findHandle ns token).bind fun h _ => ?_
  refine (readOnly_seekBase h origin).bind fun base _ => ?_
  refine (readOnly_attempt _).bind fun _ _ => ?_
  refine (readOnly_attempt _).bind fun _ _ => ?_
  exact (readOnly_attempt _).bind fun _ _ => attains_of_ok rfl rfl

theorem attains_handleReadNext_store {token : Bytes} {count : ℕ} :
    Attains (ns.handleReadNext token count) c fun _ c' => c'.store = c.store := by
  refine (readOnly_findHandle ns token).bind fun h _ => ?_
  refine (readOnly_attempt _).bind fun _ _ => ?_
  refine (readOnly_current ns).bind fun v _ => ?_
  refine readOnly_get.bind fun c₁ _ => ?_
  exact (readOnly_attempt _).bind fun data _ => attains_of_ok rfl rfl

/-- What a method that returned did to the files of a World. -/
def FilesAfter (c : Container) (world : Bytes) (g : NamespaceView → InodeId → File → File)
    (c' : Container) : Prop :=
  CollisionFree { b | b ∈ c'.hashed } →
    ∀ v, c.view ⟨world, false⟩ = .ok v → c.EditsFiles world (g v) c'

theorem filesAfter_of_store (h : c'.store = c.store) : FilesAfter c world (fun _ _ f => f) c' :=
  fun _ _ _ => Container.editsFiles_of_store h

/-- Every call through a World edits its files. -/
theorem NamespaceCall.edits_files (hrun : Container.run events = .ok c) (env : Env)
    (op : NamespaceCall) :
    Attains (op.method ⟨world, false⟩ env) c fun _ c' =>
      FilesAfter c world (fun v => op.edit v c.table) c' := by
  have ht := Container.run_table hrun
  cases op with
  | fsInit =>
    refine (readOnly_attempt _).bind fun _ hmain => attains_update_edits hrun (fun v e he => ?_)
      fun v fs o e hv hfs ho he => unedited_fsInit ho hv he
    exact .fsInit env e (need_eq_ok.mp (attempt_eq_ok.mp hmain).1).1 he
  | mkdir path mode =>
    refine (readOnly_attempt _).bind fun _ hmode => attains_update_edits hrun (fun v e he => ?_)
      fun v fs o e hv hfs ho he => unedited_mkdir ho hv hfs he
    exact .mkdir env path mode e (need_eq_ok.mp (attempt_eq_ok.mp hmode).1) he
  | write path value =>
    refine (readOnly_attempt _).bind fun _ hsize => attains_update_edits hrun (fun v e he => ?_)
      fun v fs o e hv hfs ho he => edits_write ho hv hfs he
    exact .write env path value e (need_eq_ok.mp (attempt_eq_ok.mp hsize).1) he
  | replaceFile path value =>
    refine (readOnly_attempt _).bind fun _ hsize => ?_
    refine readOnly_get.bind fun c₁ hc₁ => ?_
    cases hc₁
    refine attains_update_edits hrun (fun v e he => ?_)
      fun v fs o e hv hfs ho he => unedited_replaceFile ho hv hfs he
    exact .replaceFile env path value e (need_eq_ok.mp (attempt_eq_ok.mp hsize).1) he
  | writeAt path offset value =>
    refine (readOnly_attempt _).bind fun _ _ => (readOnly_attempt _).bind fun _ _ => ?_
    exact attains_discard (attains_update_edits hrun (fun v e he => .editContent env path _ e he)
      fun v fs o e hv hfs ho he => edits_editContent hv hfs he fun _ _ => written_of_writeAtEdit)
  | append path value =>
    refine attains_discard ((readOnly_attempt _).bind fun _ _ => ?_)
    exact attains_update_edits hrun (fun v e he => .editContent env path _ e he)
      fun v fs o e hv hfs ho he => edits_editContent hv hfs he fun _ _ => append_of_appendEdit
  | truncate path size =>
    refine (readOnly_attempt _).bind fun _ _ => attains_discard ?_
    exact attains_update_edits hrun (fun v e he => .editContent env path _ e he)
      fun v fs o e hv hfs ho he => edits_editContent hv hfs he fun _ _ => resize_of_truncateEdit
  | setAttributes path a =>
    refine (readOnly_attempt _).bind fun _ ha => attains_update_edits hrun (fun v e he => ?_)
      fun v fs o e hv hfs ho he => edits_setAttributes hv hfs he
    exact .setAttributes env path a e (attempt_eq_ok.mp ha).1 he
  | symlink target path =>
    refine (readOnly_attempt _).bind fun names htarget => attains_update_edits hrun (fun v e he => ?_)
      fun v fs o e hv hfs ho he => unedited_symlink ho hv hfs he
    exact .symlink env target path names e (attempt_eq_ok.mp htarget).1 he
  | link source target =>
    exact attains_update_edits hrun (fun v e he => .link env source target e he)
      fun v fs o e hv hfs ho he => unedited_link hv hfs he
  | remove path directory =>
    refine readOnly_get.bind fun c₁ hc₁ => ?_
    cases hc₁
    exact attains_update_edits hrun (fun v e he => .remove env path directory e he)
      fun v fs o e hv hfs ho he => unedited_remove ho hv hfs he
  | rename source target =>
    refine readOnly_get.bind fun c₁ hc₁ => ?_
    cases hc₁
    exact attains_update_edits hrun (fun v e he => .rename env source target e he)
      fun v fs o e hv hfs ho he => unedited_rename ho hv hfs he
  | snapshot name =>
    exact attains_discard ((attains_snapshot_edits hrun).imp fun _ _ h hcf _ _ => h hcf)
  | fork revision fork => exact (attains_fork_edits hrun).imp fun _ _ h hcf _ _ => h hcf
  | openHandle path access o =>
    refine attains_discard ((attains_openHandle ht.described ht.counts).imp ?_)
    rintro token c' ⟨v, opening, hopens⟩ hcf v' hv'
    obtain rfl : v = v' := Except.ok.inj (hopens.view.symm.trans hv')
    exact hopens.editsFiles hrun hcf
  | dup token =>
    refine attains_discard (attains_dup_token.imp ?_)
    rintro token' c' ⟨h, -, -, -, -, -, rfl⟩
    exact filesAfter_of_store rfl
  | close token => exact (attains_close_edits hrun).imp fun _ _ h hcf _ _ => h hcf
  | tryLockRange token mode start length =>
    exact attains_discard (attains_tryLockRange_store.imp fun _ _ h => filesAfter_of_store h)
  | seek token offset origin =>
    exact attains_discard (attains_seek_store.imp fun _ _ h => filesAfter_of_store h)
  | handleStat token =>
    exact attains_discard ((readOnly_handleStat token c).imp fun _ _ h =>
      filesAfter_of_store (congrArg Container.store h))
  | handleRead token offset count =>
    exact attains_discard ((readOnly_handleRead token offset count c).imp fun _ _ h =>
      filesAfter_of_store (congrArg Container.store h))
  | handleReadNext token count =>
    exact attains_discard (attains_handleReadNext_store.imp fun _ _ h => filesAfter_of_store h)
  | handleWrite token offset value =>
    refine (readOnly_attempt _).bind fun _ _ => (readOnly_attempt _).bind fun _ _ => ?_
    refine attains_discard ((attains_editHandle_edits hrun ?_).imp fun _ _ h hcf _ _ => h hcf)
    exact fun h data value => written_of_handleWriteEdit
  | handleAppend token value =>
    refine attains_discard ((readOnly_attempt _).bind fun _ _ => ?_)
    refine (attains_editHandle_edits (g := fun _ data => data ++ value) hrun ?_).bind_returns
      fun r c' h => ⟨r.2, c', rfl, fun hcf _ _ => h hcf⟩
    exact fun h data value => append_of_appendEdit
  | handleTruncate token size =>
    refine (readOnly_attempt _).bind fun _ _ => attains_discard ?_
    refine (attains_editHandle_edits (g := fun _ data => resize data size) hrun ?_).imp
      fun _ _ h hcf _ _ => h hcf
    exact fun h data value => resize_of_truncateEdit
  | handleWriteNext token value =>
    refine attains_discard ((readOnly_attempt _).bind fun _ _ => ?_)
    refine (attains_editHandle_edits hrun ?_).bind_returns fun r c' h =>
      ⟨_, _, rfl, fun hcf _ _ => (h hcf).of_store rfl⟩
    exact fun h data value => written_of_handleWriteEdit
  | handleSetAttributes token a =>
    refine attains_handleSetAttributes.imp ?_
    rintro - c' ⟨ha, h, v, e, hedits⟩ hcf v' hv'
    refine hedits.editsFiles hrun (hedits.planned_attributes ha) hcf fun fs o hv hfs ho hkeeps hopened => ?_
    exact edits_handleSetAttributes ho hv hfs hkeeps hedits.token hopened hedits.effect

end Calls

end ForkFs
