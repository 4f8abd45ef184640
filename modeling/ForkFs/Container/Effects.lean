import ForkFs.Container.Calls
import ForkFs.Container.Locks

/-!
# What a call can do

`Performed` lists the effects of the operations on Worlds, each with what was checked on the
way. Every operation either has one of these effects or throws and leaves the container as it
was. Invariants of whole runs are proved from this list.
-/

namespace ForkFs

open Bytes Outcome

variable [Digest]

section Effects

/-- The effect of committing the edits of an operation. -/
inductive Commits (c : Container) (world : Bytes) (v : NamespaceView) (edits : List Edit)
    (created : Option InodeId) : Container → Prop
  /-- There was nothing to commit. -/
  | nothing (hedits : edits = []) : Commits c world v edits created c
  /-- One batch was committed. -/
  | batch (b : Commit) (store : LevelStore) (hedits : edits ≠ [])
      (hplan : planCommit world v (Edit.changes edits) = .ok b)
      (hstore : c.store.transact c.store.sequence b.mutations = .ok store) :
      Commits c world v edits created { c with
        store := store, hashed := c.hashed ++ b.hashed, created := c.created ++ created.toList }

/-- The operations that edit a version, other than `open`. -/
inductive Planned (c : Container) (view : Bytes) (v : NamespaceView) :
    List Edit → Option InodeId → Prop
  | fsInit (env : Env) (e : Effect Unit) (hview : view = ascii "main") (h : v.fsInit env = .ok e) :
      Planned c view v e.edits e.created
  | mkdir (env : Env) (path : Bytes) (mode : ℕ) (e : Effect Unit) (hmode : mode ≤ 0o777)
      (h : v.mkdir env path mode = .ok e) : Planned c view v e.edits e.created
  | write (env : Env) (path value : Bytes) (e : Effect Unit) (hsize : value.length ≤ fileLimit)
      (h : v.write env path value = .ok e) : Planned c view v e.edits e.created
  | replaceFile (env : Env) (path value : Bytes) (e : Effect Unit) (hsize : value.length ≤ fileLimit)
      (h : v.replaceFile env view (c.table.isOpen view) path value = .ok e) :
      Planned c view v e.edits e.created
  | editContent (env : Env) (path : Bytes) (edit : ContentEdit) (e : Effect ℕ)
      (h : v.editContent env path edit = .ok e) : Planned c view v e.edits e.created
  | setAttributes (env : Env) (path : Bytes) (a : Attributes) (e : Effect Unit)
      (ha : checkAttributes a = .ok ()) (h : v.setAttributes env path a = .ok e) :
      Planned c view v e.edits e.created
  | symlink (env : Env) (target path : Bytes) (names : List Bytes) (e : Effect Unit)
      (htarget : targetComponents target = .ok names) (h : v.symlink env target path = .ok e) :
      Planned c view v e.edits e.created
  | link (env : Env) (source target : Bytes) (e : Effect Unit)
      (h : v.link env source target = .ok e) : Planned c view v e.edits e.created
  | remove (env : Env) (path : Bytes) (directory : Bool) (e : Effect Unit)
      (h : v.remove env view (c.table.isOpen view) path directory = .ok e) :
      Planned c view v e.edits e.created
  | rename (env : Env) (source target : Bytes) (e : Effect Unit)
      (h : v.rename env view (c.table.isOpen view) source target = .ok e) :
      Planned c view v e.edits e.created
  | editHandle (env : Env) (token : Bytes) (h : OpenHandle) (edit : ContentEdit) (e : Effect ℕ)
      (htoken : c.table.handles[token]? = some h) (hview : h.view = view) (hworld : h.revision = false)
      (he : v.editHandle env view h edit = .ok e) : Planned c view v e.edits e.created
  | handleSetAttributes (env : Env) (token : Bytes) (h : OpenHandle) (a : Attributes) (e : Effect Unit)
      (htoken : c.table.handles[token]? = some h) (hview : h.view = view) (hworld : h.revision = false)
      (ha : checkAttributes a = .ok ()) (he : v.handleSetAttributes env view h a = .ok e) :
      Planned c view v e.edits e.created

/-- The current version of a World or revision. -/
def Container.view (c : Container) (ns : Namespace) : Except String NamespaceView :=
  NamespaceView.open_ c.store.catalog ns.view ns.revision true

/-- The operations that use the file position of a descriptor. -/
def NamespaceCall.Moves (token : Bytes) : NamespaceCall → Prop
  | .seek t _ _ => t = token
  | .handleReadNext t _ => t = token
  | .handleWriteNext t _ => t = token
  | _ => False

/-- What an operation on a World or revision can do. -/
inductive Performed (ns : Namespace) (op : NamespaceCall) (c : Container) : Container → Prop
  /-- Nothing. -/
  | unchanged : Performed ns op c c
  /-- Commit the edits of an operation on the current version. -/
  | updated (v : NamespaceView) (edits : List Edit) (created : Option InodeId) (c' : Container)
      (hworld : ns.revision = false) (hv : c.view ns = .ok v)
      (hplanned : Planned c ns.view v edits created)
      (hcommit : Commits c ns.view v edits created c') : Performed ns op c c'
  /-- Commit the edits of a write at the file position, which then moves. -/
  | wroteNext (v : NamespaceView) (edits : List Edit) (created : Option InodeId) (c' : Container)
      (token : Bytes) (h : OpenHandle) (position : ℕ)
      (hworld : ns.revision = false) (hv : c.view ns = .ok v)
      (hplanned : Planned c ns.view v edits created)
      (hcommit : Commits c ns.view v edits created c') (htoken : c.table.handles[token]? = some h)
      (hop : op.Moves token) : Performed ns op c { c' with table := c'.table.moveTo h position }
  /-- Make a revision. -/
  | snapshot (name : Bytes) (id : Hash) (b : Commit) (store : LevelStore)
      (hname : NamespaceView.validName name) (hworld : ns.revision = false)
      (hplan : ns.planSnapshot c.store name = .ok (id, b))
      (hstore : c.store.transact c.store.sequence b.mutations = .ok store) :
      Performed ns op c { c with store := store, hashed := c.hashed ++ b.hashed }
  /-- Fork a World. -/
  | forked (revision world : Bytes) (b : Commit) (store : LevelStore)
      (hrevision : NamespaceView.validName revision) (hname : NamespaceView.validName world)
      (hmain : world ≠ ascii "main") (hworld : ns.revision = false)
      (hplan : Namespace.planFork c.store.catalog revision world = .ok b)
      (hstore : c.store.transact c.store.sequence b.mutations = .ok store) :
      Performed ns op c { c with store := store, hashed := c.hashed ++ b.hashed }
  /-- Open a file, with the edits of its creation or truncation. -/
  | opened (v : NamespaceView) (env : Env) (path : Bytes) (o : OpenOptions) (opening : Opening)
      (token : Bytes) (h : OpenHandle) (c' : Container)
      (hworld : ns.revision → o.create = false ∧ o.truncate = false) (hmode : o.mode ≤ 0o777)
      (hlimit : c.table.handles.size < 4096) (hv : c.view ns = .ok v)
      (hopening : v.openFile env path o = .ok opening) (hfresh : token ∉ c.table.handles)
      (hhandle : h.view = ns.view ∧ h.inode = opening.id ∧ h.revision = ns.revision ∧
        h.cursor = c.table.freshCursor)
      (hcommit : Commits
        { c with table := ((c.table.add token h).setCursor h ⟨0, []⟩).counted h }
        ns.view v opening.effect.edits opening.effect.created c') : Performed ns op c c'
  /-- Duplicate a descriptor. -/
  | duplicated (source token : Bytes) (h : OpenHandle)
      (hsource : c.table.handles[source]? = some h) (hview : h.view = ns.view)
      (hrevision : h.revision = ns.revision) (hlimit : c.table.handles.size < 4096)
      (hfresh : token ∉ c.table.handles) :
      Performed ns op c { c with table := (c.table.add token h).counted h }
  /-- Close a descriptor that is not the last one of an orphan. -/
  | closed (token : Bytes) (h : OpenHandle) (hop : op = .close token)
      (htoken : c.table.handles[token]? = some h) (hview : h.view = ns.view)
      (hrevision : h.revision = ns.revision)
      (hkept : h.revision = false → c.table.openCounts[h.file]?.getD 0 = 1 →
        (RootName.orphanInode h.view h.inode).key ∉ c.store.roots) :
      Performed ns op c { c with table := (c.table.uncounted h).erase token }
  /-- Close the last descriptor of an orphan. -/
  | dropped (token : Bytes) (h : OpenHandle) (store : LevelStore) (hop : op = .close token)
      (htoken : c.table.handles[token]? = some h) (hview : h.view = ns.view)
      (hrevision : h.revision = ns.revision) (hworld : h.revision = false)
      (hcount : c.table.openCounts[h.file]?.getD 0 = 1)
      (horphan : (RootName.orphanInode h.view h.inode).key ∈ c.store.roots)
      (hstore : c.store.transact c.store.sequence
        [.assign (RootName.orphanInode h.view h.inode).key none,
          .assign (RootName.orphanContent h.view h.inode).key none] = .ok store) :
      Performed ns op c { c with store := store, table := (c.table.uncounted h).erase token }
  /-- Move the file position. -/
  | moved (token : Bytes) (h : OpenHandle) (position : ℕ)
      (htoken : c.table.handles[token]? = some h) (hop : op.Moves token) :
      Performed ns op c { c with table := c.table.moveTo h position }
  /-- Lock or unlock a range. -/
  | locked (token : Bytes) (h : OpenHandle) (mode : Option LockMode) (start stop length : ℕ)
      (hop : op = .tryLockRange token mode start length) (hend : stop = Namespace.lockEnd start length)
      (htoken : c.table.handles[token]? = some h) (hview : h.view = ns.view)
      (hrevision : h.revision = ns.revision) (hlt : start < stop)
      (hstop : stop ≤ HandleTable.offsetLimit)
      (hfree : ∀ m ∈ mode, ¬ c.table.blocked h start stop m)
      (hlength : (Span.assign start stop mode (c.table.cursorOf h).locks).length ≤ 128) :
      Performed ns op c { c with table := c.table.relock h start stop mode }

end Effects

section Methods

variable {ns : Namespace} {op : NamespaceCall} {c c' : Container}

theorem attains_transact (b : Commit) (created : Option InodeId) (c : Container) :
    Attains (transact b created) c fun _ c' => ∃ store,
      c.store.transact c.store.sequence b.mutations = .ok store ∧
      c' = { c with
        store := store, hashed := c.hashed ++ b.hashed, created := c.created ++ created.toList } := by
  refine readOnly_get.bind fun c₁ hc₁ => ?_
  cases hc₁
  refine (readOnly_attempt _).bind fun store hstore => ?_
  exact ⟨store, (attempt_eq_ok.mp hstore).1, rfl⟩

theorem readOnly_current (ns : Namespace) : ReadOnly ns.current :=
  readOnly_get.bind_readOnly fun _ => readOnly_attempt _

theorem current_eq_ok {v : NamespaceView} (h : ns.current c = .ok v c') : c.view ns = .ok v := by
  obtain ⟨_, _, hget, h⟩ := run_bind_eq_ok.mp h
  cases hget
  exact (attempt_eq_ok.mp h).1

theorem readOnly_needWorld (ns : Namespace) : ReadOnly ns.needWorld := readOnly_attempt _

theorem needWorld_eq_ok {u : Unit} (h : ns.needWorld c = .ok u c') : ns.revision = false :=
  need_eq_ok.mp (attempt_eq_ok.mp h).1

theorem attains_commitChanges {α : Type} (ns : Namespace) (v : NamespaceView) (e : Effect α)
    (c : Container) :
    Attains (ns.commitChanges v e) c fun _ c' => Commits c ns.view v e.edits e.created c' := by
  unfold Namespace.commitChanges
  split
  · rename_i hedits
    exact attains_pure (.nothing hedits)
  · rename_i hedits
    refine (readOnly_attempt _).bind fun b hb => ?_
    refine (attains_transact b e.created c).imp ?_
    rintro - c' ⟨store, hstore, rfl⟩
    exact .batch b store hedits (attempt_eq_ok.mp hb).1 hstore

/-- An operation on the current version commits its edits. -/
theorem attains_update {α : Type} {operation : NamespaceView → Except String (Effect α)}
    (hplanned : ∀ v e, operation v = .ok e → Planned c ns.view v e.edits e.created) :
    Attains (ns.update operation) c fun _ c' => Performed ns op c c' := by
  refine (readOnly_needWorld ns).bind fun _ hworld => ?_
  refine (readOnly_current ns).bind fun v hv => ?_
  refine (readOnly_attempt _).bind fun e he => ?_
  refine (attains_commitChanges ns v e c).bind_returns fun _ c' hcommit => ⟨e.value, c', rfl, ?_⟩
  exact .updated v e.edits e.created c' (needWorld_eq_ok hworld) (current_eq_ok hv)
    (hplanned v e (attempt_eq_ok.mp he).1) hcommit

theorem readOnly_findHandle (ns : Namespace) (token : Bytes) : ReadOnly (ns.findHandle token) := by
  refine readOnly_get.bind_readOnly fun c => ?_
  split
  · exact fun s => attains_throw
  · exact (readOnly_attempt _).bind_readOnly fun _ s => attains_pure rfl

theorem findHandle_eq_ok {token : Bytes} {h : OpenHandle} (hfind : ns.findHandle token c = .ok h c') :
    c.table.handles[token]? = some h ∧ h.view = ns.view ∧ h.revision = ns.revision := by
  rw [Namespace.findHandle, get_bind] at hfind
  cases hh' : c.table.handles[token]? with
  | none =>
    simp only [hh'] at hfind
    cases hfind
  | some h' =>
    simp only [hh'] at hfind
    obtain ⟨_, _, hneed, hfind⟩ := run_bind_eq_ok.mp hfind
    obtain ⟨hviews, rfl⟩ := attempt_eq_ok.mp hneed
    obtain ⟨rfl, -⟩ := run_pure_eq_ok.mp hfind
    exact ⟨rfl, need_eq_ok.mp hviews⟩

omit [Digest] in
/-- A token that was drawn until it was not taken is not taken. -/
theorem newToken_eq_ok {v : NamespaceView} {taken : InodeId → Prop} [DecidablePred taken] {fuel : ℕ}
    {draws : List InodeId} {token : InodeId} (h : v.newToken taken fuel draws = .ok token) :
    ¬ taken token := by
  induction fuel generalizing draws with
  | zero => cases h
  | succ fuel ih =>
    obtain ⟨⟨t, rest⟩, -, h⟩ := bind_eq_ok.mp h
    simp only at h
    split at h
    · exact ih h
    · cases h
      assumption

/-- A registered descriptor is taken back when the commit fails. -/
theorem attains_publishHandle {v : NamespaceView} {token : Bytes} {h : OpenHandle} {e : Effect Unit}
    (hd : c.table.Described) (hcounts : c.table.CountsRight) (hfresh : token ∉ c.table.handles)
    (hrevision : h.revision = ns.revision) (hcursor : h.cursor = c.table.freshCursor) :
    Attains (ns.publishHandle v token h e) c fun _ c' => Commits
      { c with table := ((c.table.add token h).setCursor h ⟨0, []⟩).counted h }
      ns.view v e.edits e.created c' := by
  obtain ⟨c₁, hc₁⟩ : ∃ c₁, c₁ =
      { c with table := ((c.table.add token h).setCursor h ⟨0, []⟩).counted h } := ⟨_, rfl⟩
  have hcount : ns.recount (fun t => t.count h.file)
      { c with table := (c.table.add token h).setCursor h ⟨0, []⟩ } = .ok () c₁ := by
    rw [hc₁]
    unfold Namespace.recount HandleTable.counted
    rw [hrevision]
    split <;> rfl
  have huncount : ns.recount (fun t => t.uncount h.file) c₁ =
      .ok () { c₁ with table := c₁.table.uncounted h } := by
    unfold Namespace.recount HandleTable.uncounted
    rw [hrevision]
    split <;> rfl
  have hundo : (c₁.table.uncounted h).erase token = c.table := by
    rw [hc₁]
    exact HandleTable.undo_opened hd hcounts hfresh hcursor
  have hregister : onTable (fun t => (t.add token h).setCursor h ⟨0, []⟩) c =
      .ok () { c with table := (c.table.add token h).setCursor h ⟨0, []⟩ } := rfl
  have hcommit := attains_commitChanges ns v e c₁
  unfold Attains at hcommit ⊢
  rw [← hc₁, Namespace.publishHandle, bind_of_ok hregister, tryCatch_apply, bind_of_ok hcount]
  cases hresult : ns.commitChanges v e c₁ with
  | ok u c' =>
    rw [hresult] at hcommit
    exact hcommit
  | error message c' =>
    rw [hresult] at hcommit
    obtain rfl : c' = c₁ := hcommit
    have herase : onTable (fun t => t.erase token) { c' with table := c'.table.uncounted h } =
        .ok () { c' with table := (c'.table.uncounted h).erase token } := rfl
    simp only [bind_of_ok huncount, bind_of_ok herase]
    change { c' with table := (c'.table.uncounted h).erase token } = c
    rw [hundo, hc₁]

/-- The descriptor of an opened file. -/
def openedHandle (ns : Namespace) (access : Access) (o : OpenOptions) (opening : Opening)
    (c : Container) : OpenHandle :=
  ⟨ns.view, opening.id, ns.revision, access ≠ .write, access ≠ .read, o.append, c.table.freshCursor⟩

/-- A file is opened, with the edits of its creation or truncation. -/
structure Opens (ns : Namespace) (env : Env) (path : Bytes) (access : Access) (o : OpenOptions)
    (c : Container) (v : NamespaceView) (opening : Opening) (token : Bytes) (c' : Container) :
    Prop where
  check : ns.checkOpen access o = .ok ()
  limit : c.table.handles.size < 4096
  view : c.view ns = .ok v
  found : v.openFile env path o = .ok opening
  fresh : token ∉ c.table.handles
  commit : Commits
    { c with table := ((c.table.add token (openedHandle ns access o opening c)).setCursor
      (openedHandle ns access o opening c) ⟨0, []⟩).counted (openedHandle ns access o opening c) }
    ns.view v opening.effect.edits opening.effect.created c'

section Opens

variable {env : Env} {path : Bytes} {access : Access} {o : OpenOptions} {v : NamespaceView}
  {opening : Opening} {token : Bytes}

/-- New files have permission bits, and nothing is created or cut in revisions. -/
theorem Opens.mode_revision (h : Opens ns env path access o c v opening token c') :
    o.mode ≤ 0o777 ∧ (ns.revision → o.create = false ∧ o.truncate = false) := by
  obtain ⟨-, hcheck⟩ := need_bind_eq_ok.mp h.check
  obtain ⟨-, hcheck⟩ := need_bind_eq_ok.mp hcheck
  obtain ⟨-, hcheck⟩ := need_bind_eq_ok.mp hcheck
  obtain ⟨hmode, hcheck⟩ := need_bind_eq_ok.mp hcheck
  exact ⟨hmode, fun hrev => (need_eq_ok.mp hcheck hrev).2⟩

theorem Opens.performed (h : Opens ns env path access o c v opening token c') :
    Performed ns op c c' :=
  .opened v env path o opening token _ c' h.mode_revision.2 h.mode_revision.1 h.limit h.view h.found
    h.fresh ⟨rfl, rfl, rfl, rfl⟩ h.commit

end Opens

theorem attains_openHandle {env : Env} {path : Bytes} {access : Access} {o : OpenOptions}
    (hd : c.table.Described) (hcounts : c.table.CountsRight) :
    Attains (ns.openHandle env path access o) c fun token c' =>
      ∃ v opening, Opens ns env path access o c v opening token c' := by
  refine (readOnly_attempt _).bind fun _ hcheck => ?_
  refine readOnly_get.bind fun c₁ hc₁ => ?_
  cases hc₁
  refine (readOnly_attempt _).bind fun _ hlimit => ?_
  refine (readOnly_current ns).bind fun v hv => ?_
  refine (readOnly_attempt _).bind fun opening hopening => ?_
  refine (readOnly_attempt _).bind fun token htoken => ?_
  have hfresh : token.val ∉ c.table.handles := fun hmem =>
    newToken_eq_ok (attempt_eq_ok.mp htoken).1 (Or.inr hmem)
  refine (attains_publishHandle hd hcounts hfresh rfl rfl).bind_returns fun _ c' hcommit =>
    ⟨token.val, c', rfl, ?_⟩
  exact ⟨v, opening, (attempt_eq_ok.mp hcheck).1, need_eq_ok.mp (attempt_eq_ok.mp hlimit).1,
    current_eq_ok hv, (attempt_eq_ok.mp hopening).1, hfresh, hcommit⟩

/-- A change of the table and of the counts of a World. -/
theorem onTable_recount (ns : Namespace) (f g : HandleTable → HandleTable) (c : Container) :
    (onTable f >>= fun _ => ns.recount g) c =
      .ok () { c with table := if ns.revision then f c.table else g (f c.table) } := by
  have hf : onTable f c = .ok () { c with table := f c.table } := rfl
  rw [bind_of_ok hf]
  unfold Namespace.recount
  split <;> rfl

/-- A duplicate is a new descriptor with the record of its source. -/
theorem attains_dup_token {env : Env} {token : Bytes} :
    Attains (ns.dup env token) c fun token' c' => ∃ h, c.table.handles[token]? = some h ∧
      h.view = ns.view ∧ h.revision = ns.revision ∧ c.table.handles.size < 4096 ∧
      token' ∉ c.table.handles ∧
      c' = { c with table := (c.table.add token' h).counted h } := by
  refine (readOnly_findHandle ns token).bind fun h hfind => ?_
  obtain ⟨hsource, hview, hrevision⟩ := findHandle_eq_ok hfind
  refine readOnly_get.bind fun c₁ hc₁ => ?_
  cases hc₁
  refine (readOnly_attempt _).bind fun _ hlimit => ?_
  refine (readOnly_current ns).bind fun v hv => ?_
  refine (readOnly_attempt _).bind fun token' htoken' => ?_
  have hfresh := newToken_eq_ok (attempt_eq_ok.mp htoken').1
  have htable : { c with table := if ns.revision then c.table.add token'.val h
      else (c.table.add token'.val h).count h.file } =
      { c with table := (c.table.add token'.val h).counted h } := by
    rw [HandleTable.counted, hrevision]
  have hrun := onTable_recount ns (fun t => t.add token'.val h) (fun t => t.count h.file) c
  rw [htable] at hrun
  have hreturn : (onTable (fun t => t.add token'.val h) >>= fun _ =>
      ns.recount (fun t => t.count h.file) >>= fun _ => pure token'.val) c =
      .ok token'.val { c with table := (c.table.add token'.val h).counted h } := by
    rw [← bind_assoc, bind_of_ok hrun]
    rfl
  exact attains_of_ok hreturn ⟨h, hsource, hview, hrevision,
    need_eq_ok.mp (attempt_eq_ok.mp hlimit).1, hfresh, rfl⟩

theorem attains_dup {env : Env} {token : Bytes} :
    Attains (ns.dup env token) c fun _ c' => Performed ns op c c' := by
  refine attains_dup_token.imp ?_
  rintro token' c' ⟨h, hsource, hview, hrevision, hlimit, hfresh, rfl⟩
  exact .duplicated token token' h hsource hview hrevision hlimit hfresh

theorem attains_dropOrphan (h : OpenHandle) (c : Container) :
    Attains (Namespace.dropOrphan h) c fun _ c' =>
      (RootName.orphanInode h.view h.inode).key ∉ c.store.roots ∧ c' = c ∨
      (RootName.orphanInode h.view h.inode).key ∈ c.store.roots ∧ ∃ store,
        c.store.transact c.store.sequence
          [.assign (RootName.orphanInode h.view h.inode).key none,
            .assign (RootName.orphanContent h.view h.inode).key none] = .ok store ∧
        c' = { c with store := store } := by
  refine readOnly_get.bind fun c₁ hc₁ => ?_
  cases hc₁
  split
  · rename_i horphan
    refine (attains_transact _ _ c).imp ?_
    rintro - c' ⟨store, hstore, rfl⟩
    refine Or.inr ⟨horphan, store, hstore, ?_⟩
    simp
  · rename_i horphan
    exact attains_pure (Or.inl ⟨horphan, rfl⟩)

/-- A descriptor is closed, with the roots of its file if it was the last one of an orphan. -/
inductive Closes (ns : Namespace) (token : Bytes) (c : Container) : Container → Prop
  | closed (h : OpenHandle) (htoken : c.table.handles[token]? = some h)
      (hview : h.view = ns.view) (hrevision : h.revision = ns.revision)
      (hkept : h.revision = false → c.table.openCounts[h.file]?.getD 0 = 1 →
        (RootName.orphanInode h.view h.inode).key ∉ c.store.roots) :
      Closes ns token c { c with table := (c.table.uncounted h).erase token }
  | dropped (h : OpenHandle) (store : LevelStore)
      (htoken : c.table.handles[token]? = some h) (hview : h.view = ns.view)
      (hrevision : h.revision = ns.revision) (hworld : h.revision = false)
      (hcount : c.table.openCounts[h.file]?.getD 0 = 1)
      (horphan : (RootName.orphanInode h.view h.inode).key ∈ c.store.roots)
      (hstore : c.store.transact c.store.sequence
        [.assign (RootName.orphanInode h.view h.inode).key none,
          .assign (RootName.orphanContent h.view h.inode).key none] = .ok store) :
      Closes ns token c { c with store := store, table := (c.table.uncounted h).erase token }

theorem Closes.performed {token : Bytes} (h : Closes ns token c c') :
    Performed ns (.close token) c c' := by
  cases h with
  | closed h htoken hview hrevision hkept => exact .closed token h rfl htoken hview hrevision hkept
  | dropped h store htoken hview hrevision hworld hcount horphan hstore =>
    exact .dropped token h store rfl htoken hview hrevision hworld hcount horphan hstore

theorem attains_close {token : Bytes} :
    Attains (ns.close token) c fun _ c' => Closes ns token c c' := by
  refine (readOnly_findHandle ns token).bind fun h hfind => ?_
  obtain ⟨htoken, hview, hrevision⟩ := findHandle_eq_ok hfind
  split
  · rename_i hrev
    have hclosed : Closes ns token c { c with table := (c.table.uncounted h).erase token } :=
      .closed h htoken hview hrevision (by simp [hrev])
    rw [HandleTable.uncounted, if_pos hrev] at hclosed
    exact attains_modify hclosed
  · rename_i hrev
    have hworld : h.revision = false := by simpa using hrev
    refine readOnly_get.bind fun c₁ hc₁ => ?_
    cases hc₁
    refine (readOnly_attempt _).bind fun _ hpos => ?_
    have hpos : 0 < c.table.openCounts[h.file]?.getD 0 := need_eq_ok.mp (attempt_eq_ok.mp hpos).1
    obtain ⟨count, hcount⟩ : ∃ count, c.table.openCounts[h.file]? = some count := by
      cases hnone : c.table.openCounts[h.file]? with
      | none =>
        rw [hnone] at hpos
        exact absurd hpos (lt_irrefl 0)
      | some count => exact ⟨count, rfl⟩
    have huncounted : c.table.uncounted h = if count - 1 = 0
        then { c.table with openCounts := c.table.openCounts.erase h.file }
        else { c.table with openCounts := c.table.openCounts.insert h.file (count - 1) } := by
      rw [HandleTable.uncounted, if_neg hrev, HandleTable.uncount, hcount]
    have hgetD : c.table.openCounts[h.file]?.getD 0 = count := by rw [hcount, Option.getD_some]
    rw [hgetD] at hpos
    simp only [hgetD]
    split
    · rename_i hone
      subst hone
      rw [if_pos rfl] at huncounted
      refine (attains_dropOrphan h c).bind_returns ?_
      rintro - c' (⟨horphan, rfl⟩ | ⟨horphan, store, hstore, rfl⟩)
      · refine ⟨(), _, rfl, ?_⟩
        have hclosed : Closes ns token c' { c' with table := (c'.table.uncounted h).erase token } :=
          .closed h htoken hview hrevision fun _ _ => horphan
        rwa [huncounted] at hclosed
      · refine ⟨(), _, rfl, ?_⟩
        have hdropped : Closes ns token c
            { c with store := store, table := (c.table.uncounted h).erase token } :=
          .dropped h store htoken hview hrevision hworld hgetD horphan hstore
        rwa [huncounted] at hdropped
    · rename_i hmany
      rw [if_neg (by omega)] at huncounted
      have hclosed : Closes ns token c { c with table := (c.table.uncounted h).erase token } :=
        .closed h htoken hview hrevision fun _ hone => absurd (hgetD.symm.trans hone) hmany
      rw [huncounted] at hclosed
      exact attains_of_ok rfl hclosed

theorem attains_tryLockRange {token : Bytes} {mode : Option LockMode} {start length : ℕ} :
    Attains (ns.tryLockRange token mode start length) c fun _ c' =>
      Performed ns (.tryLockRange token mode start length) c c' := by
  refine (readOnly_attempt _).bind fun _ hrange => ?_
  have hrange := need_eq_ok.mp (attempt_eq_ok.mp hrange).1
  refine (readOnly_findHandle ns token).bind fun h hfind => ?_
  obtain ⟨htoken, hview, hrevision⟩ := findHandle_eq_ok hfind
  refine readOnly_get.bind fun c₁ hc₁ => ?_
  cases hc₁
  split
  · exact attains_pure .unchanged
  · rename_i hfree
    refine (readOnly_attempt _).bind fun _ hlength => ?_
    have hlength := need_eq_ok.mp (attempt_eq_ok.mp hlength).1
    have hlimit : HandleTable.offsetLimit = 2 ^ 63 := rfl
    refine attains_of_ok rfl (.locked token h mode start _ length rfl rfl htoken hview hrevision ?_ ?_
      (fun m hm hblocked => hfree ⟨m, hm, hblocked⟩) hlength)
    · unfold Namespace.lockEnd
      split <;> omega
    · unfold Namespace.lockEnd
      split <;> omega

theorem attains_moveTo {α : Type} {token : Bytes} {h : OpenHandle} (position : ℕ) (value : α)
    (htoken : c.table.handles[token]? = some h) (hop : op.Moves token) :
    Attains (onTable (fun t => t.moveTo h position) >>= fun _ => pure value : Method α) c
      fun _ c' => Performed ns op c c' :=
  attains_of_ok rfl (.moved token h position htoken hop)

theorem readOnly_seekBase (h : OpenHandle) (origin : SeekOrigin) : ReadOnly (ns.seekBase h origin) := by
  cases origin with
  | set => exact fun _ => attains_pure rfl
  | current => exact readOnly_get.bind_readOnly fun _ _ => attains_pure rfl
  | fromEnd =>
    exact (readOnly_current ns).bind_readOnly fun v =>
      (readOnly_attempt _).bind_readOnly fun _ _ => attains_pure rfl

theorem attains_seek {token : Bytes} {offset : ℤ} {origin : SeekOrigin} :
    Attains (ns.seek token offset origin) c fun _ c' =>
      Performed ns (.seek token offset origin) c c' := by
  refine (readOnly_findHandle ns token).bind fun h hfind => ?_
  refine (readOnly_seekBase h origin).bind fun base _ => ?_
  refine (readOnly_attempt _).bind fun _ _ => ?_
  refine (readOnly_attempt _).bind fun _ _ => ?_
  refine (readOnly_attempt _).bind fun _ _ => ?_
  exact attains_moveTo _ _ (findHandle_eq_ok hfind).1 rfl

theorem readOnly_handleStat (token : Bytes) : ReadOnly (ns.handleStat token) :=
  (readOnly_findHandle ns token).bind_readOnly fun _ =>
    (readOnly_current ns).bind_readOnly fun _ =>
      (readOnly_attempt _).bind_readOnly fun _ =>
        (readOnly_attempt _).bind_readOnly fun _ =>
          (readOnly_attempt _).bind_readOnly fun _ _ => attains_pure rfl

theorem readOnly_handleRead (token : Bytes) (offset count : ℕ) :
    ReadOnly (ns.handleRead token offset count) :=
  (readOnly_attempt _).bind_readOnly fun _ =>
    (readOnly_findHandle ns token).bind_readOnly fun _ =>
      (readOnly_attempt _).bind_readOnly fun _ =>
        (readOnly_current ns).bind_readOnly fun _ => readOnly_attempt _

theorem attains_of_readOnly {α : Type} {x : Method α} (hx : ReadOnly x) :
    Attains x c fun _ c' => Performed ns op c c' :=
  (hx c).imp fun _ _ heq => heq ▸ .unchanged

theorem attains_handleReadNext {token : Bytes} {count : ℕ} :
    Attains (ns.handleReadNext token count) c fun _ c' =>
      Performed ns (.handleReadNext token count) c c' := by
  refine (readOnly_findHandle ns token).bind fun h hfind => ?_
  refine (readOnly_attempt _).bind fun _ _ => ?_
  refine (readOnly_current ns).bind fun v _ => ?_
  refine readOnly_get.bind fun c₁ hc₁ => ?_
  cases hc₁
  refine (readOnly_attempt _).bind fun data _ => ?_
  exact attains_moveTo _ _ (findHandle_eq_ok hfind).1 rfl

/-- The file of a descriptor of a World is changed by the edits of an operation. -/
structure EditsOpen {α : Type} (ns : Namespace) (token : Bytes)
    (operation : NamespaceView → OpenHandle → Except String (Effect α)) (c : Container)
    (h : OpenHandle) (v : NamespaceView) (e : Effect α) (c' : Container) : Prop where
  world : ns.revision = false
  token : c.table.handles[token]? = some h
  handle : h.view = ns.view ∧ h.revision = false
  view : c.view ns = .ok v
  effect : operation v h = .ok e
  commit : Commits c ns.view v e.edits e.created c'

/-- An edit through a descriptor commits on the version of its World. -/
theorem attains_editHandle {env : Env} {token : Bytes} {edit : OpenHandle → Container → ContentEdit} :
    Attains (ns.editHandle env token edit) c fun r c' => ∃ v e,
      EditsOpen ns token (fun v h => v.editHandle env ns.view h (edit h c)) c r.1 v e c' ∧
        r.2 = e.value := by
  refine (readOnly_needWorld ns).bind fun _ hworld => ?_
  refine (readOnly_current ns).bind fun v hv => ?_
  refine (readOnly_findHandle ns token).bind fun h hfind => ?_
  obtain ⟨htoken, hview, hrevision⟩ := findHandle_eq_ok hfind
  refine readOnly_get.bind fun c₁ hc₁ => ?_
  cases hc₁
  refine (readOnly_attempt _).bind fun e he => ?_
  refine (attains_commitChanges ns v e c).bind_returns fun _ c' hcommit => ⟨(h, e.value), c', rfl, ?_⟩
  have hworld := needWorld_eq_ok hworld
  exact ⟨v, e, ⟨hworld, htoken, ⟨hview, hrevision.trans hworld⟩, current_eq_ok hv,
    (attempt_eq_ok.mp he).1, hcommit⟩, rfl⟩

theorem EditsOpen.planned {env : Env} {token : Bytes} {edit : OpenHandle → ContentEdit}
    {h : OpenHandle} {v : NamespaceView} {e : Effect ℕ}
    (hedits : EditsOpen ns token (fun v h => v.editHandle env ns.view h (edit h)) c h v e c') :
    Planned c ns.view v e.edits e.created :=
  .editHandle env token h _ e hedits.token hedits.handle.1 hedits.handle.2 hedits.effect

theorem attains_edited {env : Env} {token : Bytes} {edit : OpenHandle → Container → ContentEdit} :
    Attains (ns.editHandle env token edit) c fun _ c' => Performed ns op c c' := by
  refine attains_editHandle.imp ?_
  rintro r c' ⟨v, e, hedits, -⟩
  exact .updated v e.edits e.created c' hedits.world hedits.view hedits.planned hedits.commit

theorem attains_handleWriteNext {env : Env} {token value : Bytes} :
    Attains (ns.handleWriteNext env token value) c fun _ c' =>
      Performed ns (.handleWriteNext token value) c c' := by
  refine (readOnly_attempt _).bind fun _ _ => ?_
  refine attains_editHandle.bind_returns ?_
  rintro ⟨h, size⟩ c' ⟨v, e, hedits, -⟩
  exact ⟨_, _, rfl, .wroteNext v e.edits e.created c' token h _ hedits.world hedits.view
    hedits.planned hedits.commit hedits.token rfl⟩

/-- New attributes through a descriptor. -/
theorem attains_handleSetAttributes {env : Env} {token : Bytes} {a : Attributes} :
    Attains (ns.handleSetAttributes env token a) c fun _ c' => checkAttributes a = .ok () ∧
      ∃ h v e, EditsOpen ns token (fun v h => v.handleSetAttributes env ns.view h a) c h v e c' := by
  refine (readOnly_attempt _).bind fun _ ha => ?_
  refine (readOnly_needWorld ns).bind fun _ hworld => ?_
  refine (readOnly_findHandle ns token).bind fun h hfind => ?_
  obtain ⟨htoken, hview, hrevision⟩ := findHandle_eq_ok hfind
  refine (readOnly_current ns).bind fun v hv => ?_
  refine (readOnly_attempt _).bind fun e he => ?_
  have hworld := needWorld_eq_ok hworld
  refine (attains_commitChanges ns v e c).imp fun _ c' hcommit => ?_
  exact ⟨(attempt_eq_ok.mp ha).1, h, v, e, hworld, htoken, ⟨hview, hrevision.trans hworld⟩,
    current_eq_ok hv, (attempt_eq_ok.mp he).1, hcommit⟩

theorem EditsOpen.planned_attributes {env : Env} {token : Bytes} {a : Attributes} {h : OpenHandle}
    {v : NamespaceView} {e : Effect Unit} (ha : checkAttributes a = .ok ())
    (hedits : EditsOpen ns token (fun v h => v.handleSetAttributes env ns.view h a) c h v e c') :
    Planned c ns.view v e.edits e.created :=
  .handleSetAttributes env token h a e hedits.token hedits.handle.1 hedits.handle.2 ha hedits.effect

/-- A snapshot commits the batch of its plan. -/
theorem attains_snapshot_plan {name : Bytes} :
    Attains (ns.snapshot name) c fun id c' => ∃ b store, NamespaceView.validName name ∧
      ns.revision = false ∧ ns.planSnapshot c.store name = .ok (id, b) ∧
      c.store.transact c.store.sequence b.mutations = .ok store ∧
      c' = { c with store := store, hashed := c.hashed ++ b.hashed } := by
  refine (readOnly_attempt _).bind fun _ hname => ?_
  refine (readOnly_needWorld ns).bind fun _ hworld => ?_
  refine readOnly_get.bind fun c₁ hc₁ => ?_
  cases hc₁
  refine (readOnly_attempt _).bind fun planned hplan => ?_
  obtain ⟨id, b⟩ := planned
  refine (attains_transact b none c).bind_returns ?_
  rintro - c' ⟨store, hstore, rfl⟩
  exact ⟨id, _, rfl, b, store, need_eq_ok.mp (attempt_eq_ok.mp hname).1, needWorld_eq_ok hworld,
    (attempt_eq_ok.mp hplan).1, hstore, by simp⟩

theorem attains_snapshot {name : Bytes} :
    Attains (ns.snapshot name) c fun _ c' => Performed ns op c c' := by
  refine attains_snapshot_plan.imp ?_
  rintro id c' ⟨b, store, hname, hworld, hplan, hstore, rfl⟩
  exact .snapshot name id b store hname hworld hplan hstore

/-- A fork commits the batch of its plan. -/
theorem attains_fork_plan {revision world : Bytes} :
    Attains (ns.fork revision world) c fun _ c' => ∃ b store, NamespaceView.validName revision ∧
      NamespaceView.validName world ∧ world ≠ ascii "main" ∧ ns.revision = false ∧
      Namespace.planFork c.store.catalog revision world = .ok b ∧
      c.store.transact c.store.sequence b.mutations = .ok store ∧
      c' = { c with store := store, hashed := c.hashed ++ b.hashed } := by
  refine (readOnly_attempt _).bind fun _ hrevision => ?_
  refine (readOnly_attempt _).bind fun _ hname => ?_
  refine (readOnly_attempt _).bind fun _ hmain => ?_
  refine (readOnly_needWorld ns).bind fun _ hworld => ?_
  refine readOnly_get.bind fun c₁ hc₁ => ?_
  cases hc₁
  refine (readOnly_attempt _).bind fun b hplan => ?_
  refine (attains_transact b none c).imp ?_
  rintro - c' ⟨store, hstore, rfl⟩
  exact ⟨b, store, need_eq_ok.mp (attempt_eq_ok.mp hrevision).1,
    need_eq_ok.mp (attempt_eq_ok.mp hname).1, need_eq_ok.mp (attempt_eq_ok.mp hmain).1,
    needWorld_eq_ok hworld, (attempt_eq_ok.mp hplan).1, hstore, by simp⟩

theorem attains_fork {revision world : Bytes} :
    Attains (ns.fork revision world) c fun _ c' => Performed ns op c c' := by
  refine attains_fork_plan.imp ?_
  rintro - c' ⟨b, store, hrevision, hname, hmain, hworld, hplan, hstore, rfl⟩
  exact .forked revision world b store hrevision hname hmain hworld hplan hstore

/-- Every operation has one of the effects of `Performed`, or throws and changes nothing. -/
theorem NamespaceCall.attains (hd : c.table.Described) (hcounts : c.table.CountsRight)
    (ns : Namespace) (env : Env) (op : NamespaceCall) :
    Attains (op.method ns env) c fun _ c' => Performed ns op c c' := by
  cases op with
  | fsInit =>
    refine (readOnly_attempt _).bind fun _ hmain => attains_update fun v e he => ?_
    exact .fsInit env e (need_eq_ok.mp (attempt_eq_ok.mp hmain).1).1 he
  | mkdir path mode =>
    refine (readOnly_attempt _).bind fun _ hmode => attains_update fun v e he => ?_
    exact .mkdir env path mode e (need_eq_ok.mp (attempt_eq_ok.mp hmode).1) he
  | write path value =>
    refine (readOnly_attempt _).bind fun _ hsize => attains_update fun v e he => ?_
    exact .write env path value e (need_eq_ok.mp (attempt_eq_ok.mp hsize).1) he
  | replaceFile path value =>
    refine (readOnly_attempt _).bind fun _ hsize => ?_
    refine readOnly_get.bind fun c₁ hc₁ => ?_
    cases hc₁
    refine attains_update fun v e he => ?_
    exact .replaceFile env path value e (need_eq_ok.mp (attempt_eq_ok.mp hsize).1) he
  | writeAt path offset value =>
    refine (readOnly_attempt _).bind fun _ _ => (readOnly_attempt _).bind fun _ _ => ?_
    exact attains_discard (attains_update fun v e he => .editContent env path _ e he)
  | append path value =>
    refine attains_discard ((readOnly_attempt _).bind fun _ _ => ?_)
    exact attains_update fun v e he => .editContent env path _ e he
  | truncate path size =>
    refine (readOnly_attempt _).bind fun _ _ => attains_discard ?_
    exact attains_update fun v e he => .editContent env path _ e he
  | setAttributes path a =>
    refine (readOnly_attempt _).bind fun _ ha => attains_update fun v e he => ?_
    exact .setAttributes env path a e (attempt_eq_ok.mp ha).1 he
  | symlink target path =>
    refine (readOnly_attempt _).bind fun names htarget => attains_update fun v e he => ?_
    exact .symlink env target path names e (attempt_eq_ok.mp htarget).1 he
  | link source target => exact attains_update fun v e he => .link env source target e he
  | remove path directory =>
    refine readOnly_get.bind fun c₁ hc₁ => ?_
    cases hc₁
    exact attains_update fun v e he => .remove env path directory e he
  | rename source target =>
    refine readOnly_get.bind fun c₁ hc₁ => ?_
    cases hc₁
    exact attains_update fun v e he => .rename env source target e he
  | snapshot name => exact attains_discard attains_snapshot
  | fork revision world => exact attains_fork
  | openHandle path access o => 
    refine attains_discard ((attains_openHandle hd hcounts).imp ?_)
    rintro token c' ⟨v, opening, hopens⟩
    exact hopens.performed
  | dup token => exact attains_discard attains_dup
  | close token => exact attains_close.imp fun _ _ hcloses => hcloses.performed
  | tryLockRange token mode start length => exact attains_discard attains_tryLockRange
  | seek token offset origin => exact attains_discard attains_seek
  | handleStat token => exact attains_discard (attains_of_readOnly (readOnly_handleStat token))
  | handleRead token offset count =>
    exact attains_discard (attains_of_readOnly (readOnly_handleRead token offset count))
  | handleReadNext token count => exact attains_discard attains_handleReadNext
  | handleWrite token offset value =>
    refine (readOnly_attempt _).bind fun _ _ => (readOnly_attempt _).bind fun _ _ => ?_
    exact attains_discard attains_edited
  | handleAppend token value =>
    refine attains_discard ((readOnly_attempt _).bind fun _ _ => ?_)
    exact attains_edited.bind_returns fun r c' h => ⟨r.2, c', rfl, h⟩
  | handleTruncate token size =>
    exact (readOnly_attempt _).bind fun _ _ => attains_discard attains_edited
  | handleWriteNext token value => exact attains_discard attains_handleWriteNext
  | handleSetAttributes token a =>
    refine attains_handleSetAttributes.imp ?_
    rintro - c' ⟨ha, h, v, e, hedits⟩
    exact .updated v e.edits e.created c' hedits.world hedits.view (hedits.planned_attributes ha)
      hedits.commit

end Methods

end ForkFs
