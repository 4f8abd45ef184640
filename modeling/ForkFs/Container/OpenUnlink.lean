import ForkFs.Container.FileRuns

/-!
# Files that lose their names while they are open

A descriptor designates one file of the abstract model for as long as it is open. Whatever calls are
made through the World, by path or by descriptor, what it reads and reports is that file with the
edits of the calls in their order, and the number of names that are left. Once there are none, no
write through it shows by path.
-/

namespace ForkFs

open Bytes Outcome

section Handles

variable [Digest] {c c' : Container} {ns : Namespace} {env : Env} {op : NamespaceCall}
  {token : Bytes} {h : OpenHandle} {events : List ContainerEvent}

/-- Descriptors stay open until they are closed. -/
theorem Performed.keeps_handle (hperformed : Performed ns op c c')
    (htoken : c.table.handles[token]? = some h) (hop : op ≠ .close token) :
    c'.table.handles[token]? = some h := by
  have hadd {t : HandleTable} {token' : Bytes} {h' : OpenHandle} (hfresh : token' ∉ c.table.handles)
      (ht : t.handles = c.table.handles.insert token' h') : t.handles[token]? = some h := by
    have hne : token ≠ token' := by
      rintro rfl
      exact hfresh (StdMap.mem_iff.mpr ⟨h, htoken⟩)
    rw [ht, StdMap.getElem?_insert, if_neg hne, htoken]
  have herase {token' : Bytes} {h' : OpenHandle} (hclose : op = .close token') :
      ((c.table.uncounted h').erase token').handles[token]? = some h := by
    have hne : token ≠ token' := by
      rintro rfl
      exact hop hclose
    rw [HandleTable.handles_erase, HandleTable.handles_uncounted, StdMap.getElem?_erase, if_neg hne,
      htoken]
  cases hperformed with
  | unchanged | snapshot | forked => exact htoken
  | updated v edits created _ hworld hv hplanned hcommit =>
    rw [hcommit.table]
    exact htoken
  | wroteNext v edits created c₁ token' h' position hworld hv hplanned hcommit htoken' =>
    change c₁.table.handles[token]? = some h
    rw [hcommit.table]
    exact htoken
  | opened v env path o opening token' h' _ hworld hmode hlimit hv hopening hfresh hhandle hcommit =>
    rw [hcommit.table]
    exact hadd hfresh (HandleTable.handles_counted _ _)
  | duplicated source token' h' hsource hview hrevision hlimit hfresh =>
    exact hadd hfresh (HandleTable.handles_counted _ _)
  | closed token' h' hclose => exact herase hclose
  | dropped token' h' store hclose => exact herase hclose
  | moved | locked => exact htoken

end Handles

section Calls

variable [Digest] {c c' : Container} {world : Bytes} {env : Env} {op : NamespaceCall}
  {token : Bytes} {h : OpenHandle} {f : File} {events : List ContainerEvent}

/-- One more event. -/
theorem Container.run_step {event : ContainerEvent} (hrun : Container.run events = .ok c)
    (hstep : c.step event = .ok c') : Container.run (events ++ [event]) = .ok c' := by
  rw [Container.run, List.foldlM_append, show events.foldlM Container.step Container.create = _ from hrun]
  change (c.step event >>= fun c => pure c) = _
  rw [hstep]
  rfl

/-- The repository after a call through a World, which may throw. -/
def Container.afterCall (c : Container) (world : Bytes) (call : Env × NamespaceCall) : Container :=
  after (call.2.method ⟨world, false⟩ call.1) c

/-- What a call does to a file of the abstract model: nothing, if it throws. -/
def Container.editBy (c : Container) (world : Bytes) (call : Env × NamespaceCall) (id : InodeId)
    (f : File) : File :=
  match call.2.method ⟨world, false⟩ call.1 c, c.view ⟨world, false⟩ with
  | .ok _ _, .ok v => call.2.edit v c.table id f
  | _, _ => f

theorem Container.run_afterCall (hrun : Container.run events = .ok c) (world : Bytes)
    (call : Env × NamespaceCall) :
    ∃ events, Container.run events = .ok (c.afterCall world call) :=
  ⟨events ++ [.call (.onView ⟨world, false⟩ call.1 call.2)], Container.run_step hrun rfl⟩

/-- An open file is a file. -/
theorem Container.Coherent.exists_file (hc : c.Coherent) (ht : c.table.Consistent)
    (htoken : c.table.handles[token]? = some h) (hworld : h.revision = false) :
    ∃ v o f, c.Holds h.view v v.filesystem o ∧ c.table.isOpen h.view h.inode = true ∧
      c.file h.view h.inode = some f := by
  have hopen : c.table.isOpen h.view h.inode = true :=
    ht.counts.isOpen_iff.mpr ⟨token, h, htoken, hworld, rfl, rfl⟩
  cases hv : c.view ⟨h.view, false⟩ with
  | error message =>
    obtain ⟨-, hclosed⟩ := hc.absent h.view fun v hview => by
      rw [show c.store.view ⟨h.view, false⟩ = c.view ⟨h.view, false⟩ from rfl, hv] at hview
      cases hview
    rw [hclosed] at hopen
    cases hopen
  | ok v =>
    obtain ⟨o, hholds⟩ := hc.holds hv
    obtain ⟨linked, n, data, hfile⟩ := hholds.right.exists_fileAt hholds.consistent hopen
    exact ⟨v, o, ⟨n.mode, data⟩, hholds, hopen, (hholds.file_eq h.inode).trans hfile.file⟩

/-- One call edits the file of a descriptor that it does not close. -/
theorem Container.file_afterCall {call : Env × NamespaceCall} (hrun : Container.run events = .ok c)
    (hcf : CollisionFree { b | b ∈ (c.afterCall h.view call).hashed })
    (htoken : c.table.handles[token]? = some h) (hworld : h.revision = false)
    (hopen : call.2 ≠ .close token) (hfile : c.file h.view h.inode = some f) :
    (c.afterCall h.view call).table.handles[token]? = some h ∧
      (c.afterCall h.view call).file h.view h.inode = some (c.editBy h.view call h.inode f) := by
  have ht := Container.run_table hrun
  have hattains := NamespaceCall.attains ht.described ht.counts ⟨h.view, false⟩ call.1 call.2
  have hedits : Attains (call.2.method ⟨h.view, false⟩ call.1) c fun _ c' =>
      FilesAfter c h.view (fun v => call.2.edit v c.table) c' :=
    NamespaceCall.edits_files hrun call.1 call.2
  obtain ⟨events', hrun'⟩ := Container.run_afterCall hrun h.view call
  cases hresult : call.2.method ⟨h.view, false⟩ call.1 c with
  | error message c' =>
    have hsame : c.afterCall h.view call = c :=
      (after_of_error hresult).trans (hattains.error_eq hresult)
    rw [hsame, Container.editBy, hresult]
    exact ⟨htoken, hfile⟩
  | ok u c' =>
    have hafter : c.afterCall h.view call = c' := after_of_ok hresult
    rw [hafter] at hcf hrun' ⊢
    have hkept := (hattains.of_ok hresult).keeps_handle htoken hopen
    refine ⟨hkept, ?_⟩
    have hc' := Container.run_coherent hrun' hcf
    obtain ⟨-, -, f', -, -, hf'⟩ := hc'.exists_file (Container.run_table hrun') hkept hworld
    rw [hf', Container.editBy, hresult]
    cases hv : c.view ⟨h.view, false⟩ with
    | error message =>
      rw [Container.file, hv] at hfile
      cases hfile
    | ok v => rw [(hedits.of_ok hresult) hcf v hv h.inode f f' hfile hf']

end Calls

section Descriptors

variable [Digest] {c c' : Container} {world : Bytes} {v : NamespaceView} {o : Orphans} {env : Env}
  {op : NamespaceCall} {token : Bytes} {h : OpenHandle} {f : File} {events : List ContainerEvent}

/-- A descriptor of a World serves a file: it reads its bytes and reports its mode, its size and the
number of its names. -/
structure Container.Serves (c : Container) (token : Bytes) (h : OpenHandle) (f : File) : Prop where
  /-- The descriptor is open. -/
  open_ : c.table.handles[token]? = some h
  /-- Its file in the abstract model. -/
  file : c.file h.view h.inode = some f
  /-- It reads the bytes of the file. -/
  read : h.readable = true → ∀ offset count, offset ≤ 2 ^ 63 - 1 →
    Namespace.handleRead ⟨h.view, false⟩ token offset count c = .ok (slice f.data offset count) c
  /-- It reports the attributes of the file, and how many entries name it. -/
  stat : ∃ v n, c.view ⟨h.view, false⟩ = .ok v ∧
    Namespace.handleStat ⟨h.view, false⟩ token c = .ok n c ∧ n.kind = .file ∧ n.mode = f.mode ∧
      n.size = f.data.length ∧ n.links = (v.filesystem.namings h.inode).ncard

omit [Digest] in
/-- The link count of an open file is the number of its names. -/
theorem FileAt.links {fs : Filesystem} {id : InodeId} {linked : Bool} {n : InodeInfo} {data : Bytes}
    (h : FileAt fs o id linked n data) (hsound : FileAt.Sound linked n data) (hfs : fs.Consistent) :
    n.links = (fs.namings id).ncard := by
  cases h with
  | linked hn hkind hdata =>
    rw [(hfs.inode id n hn).links, Filesystem.linkCount, hkind, if_neg (by decide)]
  | orphan hnone hn hdata =>
    have hempty : fs.namings id = ∅ := by
      apply Set.eq_empty_of_forall_notMem
      intro p hp
      obtain ⟨n', hn'⟩ := hfs.exists_inode hp
      cases hnone.symm.trans hn'
    rw [hempty, Set.ncard_empty]
    exact hsound.valid.state.1.2

theorem findHandle_of_open (htoken : c.table.handles[token]? = some h) (hworld : h.revision = false) :
    Namespace.findHandle ⟨h.view, false⟩ token c = .ok h c := by
  have hneed : attempt (need (h.view = h.view ∧ h.revision = false)
      "file handle belongs to another view") c = .ok () c :=
    attempt_eq_ok.mpr ⟨need_of ⟨rfl, hworld⟩, rfl⟩
  rw [Namespace.findHandle, get_bind, htoken]
  exact bind_of_ok hneed

theorem current_of_view {ns : Namespace} (hv : c.view ns = .ok v) : ns.current c = .ok v c := by
  rw [Namespace.current, get_bind]
  exact attempt_eq_ok.mpr ⟨hv, rfl⟩

/-- Every descriptor of a World serves its file. -/
theorem Container.Coherent.serves (hc : c.Coherent) (ht : c.table.Consistent)
    (htoken : c.table.handles[token]? = some h) (hworld : h.revision = false)
    (hfile : c.file h.view h.inode = some f) : c.Serves token h f := by
  obtain ⟨v, o, -, hholds, hopen, -⟩ := hc.exists_file ht htoken hworld
  rw [hholds.file_eq] at hfile
  obtain ⟨linked, n, hat, hmode⟩ := Filesystem.exists_fileAt hfile
  have hsound := hholds.right.sound hholds.consistent hat
  have hfind := findHandle_of_open htoken hworld
  have hcurrent := current_of_view hholds.view
  refine ⟨htoken, (hholds.file_eq h.inode).trans hfile, fun hreadable offset count hoffset => ?_,
    v, n, hholds.view, ?_, hsound.kind, hmode, hsound.length.symm, hat.links hsound hholds.consistent⟩
  · have hread := hat.readHandle hsound hholds.pictures hholds.keeps (.inr rfl) offset count
    rw [Namespace.handleRead, bind_of_ok (attempt_eq_ok.mpr ⟨need_of hoffset, rfl⟩), bind_of_ok hfind,
      bind_of_ok (attempt_eq_ok.mpr ⟨need_of hreadable, rfl⟩), bind_of_ok hcurrent]
    exact attempt_eq_ok.mpr ⟨hread, rfl⟩
  · have hlinked := hat.contains hholds.pictures
    have hopened := hat.openInode hsound hholds.pictures hholds.keeps
    rw [Namespace.handleStat, bind_of_ok hfind, bind_of_ok hcurrent,
      bind_of_ok (attempt_eq_ok.mpr ⟨hlinked, rfl⟩),
      bind_of_ok (attempt_eq_ok.mpr ⟨need_of (.inr rfl), rfl⟩),
      bind_of_ok (attempt_eq_ok.mpr ⟨hopened, rfl⟩)]
    rfl

/-- A descriptor serves the edited file after a call that does not close it. -/
theorem Container.Serves.afterCall {call : Env × NamespaceCall} (hserves : c.Serves token h f)
    (hrun : Container.run events = .ok c)
    (hcf : CollisionFree { b | b ∈ (c.afterCall h.view call).hashed }) (hworld : h.revision = false)
    (hopen : call.2 ≠ .close token) :
    (c.afterCall h.view call).Serves token h (c.editBy h.view call h.inode f) := by
  obtain ⟨htoken, hfile⟩ := Container.file_afterCall hrun hcf hserves.open_ hworld hopen hserves.file
  obtain ⟨events', hrun'⟩ := Container.run_afterCall hrun h.view call
  exact (Container.run_coherent hrun' hcf).serves (Container.run_table hrun') htoken hworld hfile

end Descriptors

section Unlinked

variable [Digest] {c c' : Container} {world : Bytes} {v : NamespaceView} {env : Env}
  {op : NamespaceCall} {token : Bytes} {h : OpenHandle} {events : List ContainerEvent}

/-- The writes through a descriptor. -/
def NamespaceCall.WritesThrough (token : Bytes) : NamespaceCall → Prop
  | .handleWrite t _ _ => t = token
  | .handleAppend t _ => t = token
  | .handleTruncate t _ => t = token
  | .handleWriteNext t _ => t = token
  | .handleSetAttributes t _ => t = token
  | _ => False

/-- A file system is still that of a World. -/
def Container.StillShows (c : Container) (world : Bytes) (fs : Filesystem) : Prop :=
  CollisionFree { b | b ∈ c.hashed } → ∃ v, c.view ⟨world, false⟩ = .ok v ∧ v.filesystem = fs

omit [Digest] in
/-- The edits of an orphan are none of the file system. -/
theorem applyAll_openEffect {fs : Filesystem} {o : Orphans} {opened : InodeId → Bool}
    {edit : ContentEdit} {e : Effect ℕ} (ho : o.Right opened fs) (hfs : fs.Consistent)
    (hv : v.Pictures fs) (hkeeps : v.Keeps world o) (hopened : opened h.inode = true)
    (hnone : fs.inode h.inode = none) (he : v.editHandle env world h edit = .ok e) :
    fs.applyAll e.edits = fs := by
  obtain ⟨linked, n, data, hfile⟩ := ho.exists_fileAt hfs hopened
  obtain ⟨hwritable, -⟩ := need_bind_eq_ok.mp he
  rw [hfile.editHandle (ho.sound hfs hfile) hv hkeeps hwritable] at he
  cases hfile with
  | linked hn => cases hnone.symm.trans hn
  | orphan =>
    obtain ⟨result, -, he⟩ := bind_eq_ok.mp he
    cases result with
    | none =>
      cases he
      rfl
    | some value =>
      obtain ⟨-, he⟩ := need_bind_eq_ok.mp he
      cases he
      rfl

omit [Digest] in
theorem applyAll_openAttributes {fs : Filesystem} {o : Orphans} {opened : InodeId → Bool}
    {a : Attributes} {e : Effect Unit} (ho : o.Right opened fs) (hfs : fs.Consistent)
    (hv : v.Pictures fs) (hkeeps : v.Keeps world o) (hopened : opened h.inode = true)
    (hnone : fs.inode h.inode = none) (he : v.handleSetAttributes env world h a = .ok e) :
    fs.applyAll e.edits = fs := by
  obtain ⟨linked, n, data, hfile⟩ := ho.exists_fileAt hfs hopened
  have hwritable : a.size = none ∨ h.writable = true := by
    obtain ⟨_, -, hrest⟩ := bind_eq_ok.mp he
    exact (need_bind_eq_ok.mp hrest).1
  rw [hfile.handleSetAttributes (ho.sound hfs hfile) hv hkeeps hwritable] at he
  cases hfile with
  | linked hn => cases hnone.symm.trans hn
  | orphan =>
    unfold openAttributes at he
    split at he
    · cases he
      rfl
    · obtain ⟨⟨n', changed⟩, -, he⟩ := bind_eq_ok.mp he
      cases he
      cases changed <;> rfl

/-- The file system that an operation through a descriptor leaves. -/
theorem EditsOpen.stillShows {α : Type} {e : Effect α}
    {operation : NamespaceView → OpenHandle → Except String (Effect α)}
    (hedits : EditsOpen ⟨world, false⟩ token operation c h v e c')
    (hrun : Container.run events = .ok c) (hplanned : Planned c world v e.edits e.created)
    (hplain : ∀ fs o, v.Pictures fs → fs.Consistent → o.Right (c.table.isOpen world) fs →
      v.Keeps world o → c.table.isOpen world h.inode = true → fs.inode h.inode = none →
      fs.applyAll e.edits = fs) (hnone : v.filesystem.inode h.inode = none) :
    c'.StillShows world v.filesystem := by
  intro hcf
  obtain ⟨o, v', hholds, hopened, hholds'⟩ := hedits.holds hrun hplanned hcf
  refine ⟨v', hholds'.view, ?_⟩
  rw [hholds'.filesystem, hplain _ o hholds.pictures hholds.consistent hholds.right hholds.keeps
    hopened hnone]

/-- Content edits of a file without names. -/
theorem attains_editHandle_stillShows {edit : OpenHandle → Container → ContentEdit}
    (hrun : Container.run events = .ok c) (htoken : c.table.handles[token]? = some h)
    (hv : c.view ⟨world, false⟩ = .ok v) (hnone : v.filesystem.inode h.inode = none) :
    Attains (Namespace.editHandle ⟨world, false⟩ env token edit) c fun _ c' =>
      c'.StillShows world v.filesystem := by
  refine attains_editHandle.imp ?_
  rintro ⟨h', size⟩ c' ⟨v', e, hedits, -⟩
  obtain rfl : v = v' := Except.ok.inj (hv.symm.trans hedits.view)
  obtain rfl : h = h' := Option.some.inj (htoken.symm.trans hedits.token)
  refine hedits.stillShows hrun hedits.planned (fun fs o hpictures hfs ho hkeeps hopened hgone => ?_)
    hnone
  exact applyAll_openEffect ho hfs hpictures hkeeps hopened hgone hedits.effect

/-- No write through a descriptor of a file without names shows by path. -/
theorem NamespaceCall.WritesThrough.stillShows (hop : op.WritesThrough token)
    (hrun : Container.run events = .ok c) (htoken : c.table.handles[token]? = some h)
    (hv : c.view ⟨world, false⟩ = .ok v) (hnone : v.filesystem.inode h.inode = none) :
    Attains (op.method ⟨world, false⟩ env) c fun _ c' => c'.StillShows world v.filesystem := by
  have hedit {edit : OpenHandle → Container → ContentEdit} :
      Attains (Namespace.editHandle ⟨world, false⟩ env token edit) c fun _ c' =>
        c'.StillShows world v.filesystem := attains_editHandle_stillShows hrun htoken hv hnone
  cases op with
  | handleWrite t offset value =>
    obtain rfl : t = token := hop
    refine (readOnly_attempt _).bind fun _ _ => (readOnly_attempt _).bind fun _ _ => ?_
    exact attains_discard hedit
  | handleAppend t value =>
    obtain rfl : t = token := hop
    refine attains_discard ((readOnly_attempt _).bind fun _ _ => ?_)
    exact hedit.bind_returns fun r c' h => ⟨r.2, c', rfl, h⟩
  | handleTruncate t size =>
    obtain rfl : t = token := hop
    exact (readOnly_attempt _).bind fun _ _ => attains_discard hedit
  | handleWriteNext t value =>
    obtain rfl : t = token := hop
    refine attains_discard ((readOnly_attempt _).bind fun _ _ => ?_)
    exact hedit.bind_returns fun r c' h => ⟨_, _, rfl, h⟩
  | handleSetAttributes t a =>
    obtain rfl : t = token := hop
    refine attains_handleSetAttributes.imp ?_
    rintro - c' ⟨ha, h', v', e, hedits⟩
    obtain rfl : v = v' := Except.ok.inj (hv.symm.trans hedits.view)
    obtain rfl : h = h' := Option.some.inj (htoken.symm.trans hedits.token)
    refine hedits.stillShows hrun (hedits.planned_attributes ha)
      (fun fs o hpictures hfs ho hkeeps hopened hgone => ?_) hnone
    exact applyAll_openAttributes ho hfs hpictures hkeeps hopened hgone hedits.effect
  | _ => cases hop

end Unlinked

section Semantics

variable [Digest] {c : Container} {events : List ContainerEvent}

end Semantics

section Samples

local instance unlinkDigest : Digest := sha256

end Samples

end ForkFs
