import ForkFs.Container.Files

/-!
# The history of open files

Files have names, descriptors, or both. The bytes and the mode of a file are those that it had when
a descriptor was opened, edited by the calls that were made since then through any of its names and
descriptors, in their order, also when it has lost its names. The abstract model of a World is
`Container.file`; what a call does to it is `NamespaceCall.edit`.
-/

namespace ForkFs

open Bytes Outcome

section Files

variable [Digest] {c c' : Container} {world : Bytes} {v : NamespaceView} {fs : Filesystem}
  {o : Orphans} {id : InodeId}

/-- The file of an identity, as its descriptors find it. -/
def NamespaceView.file (v : NamespaceView) (world : Bytes) (id : InodeId) : Option File :=
  (v.openInode world id).toOption.bind fun found =>
    (v.openContent world found.1 id).toOption.bind fun data =>
      if found.2.kind = .file then some (File.mk found.2.mode data) else none

/-- The file of an identity in a World, as long as it has a name or a descriptor. -/
def Container.file (c : Container) (world : Bytes) (id : InodeId) : Option File :=
  (c.view ⟨world, false⟩).toOption.bind fun v => v.file world id

/-- It is found in the file system of the World or among its orphans. -/
theorem Container.Holds.file_eq (h : c.Holds world v fs o) (id : InodeId) :
    c.file world id = fs.file o id := by
  rw [Container.file, h.view]
  change v.file world id = _
  unfold NamespaceView.file
  cases hn : fs.inode id with
  | some n =>
    have hopen : v.openInode world id = .ok (true, n) := by
      unfold NamespaceView.openInode
      rw [h.pictures.linked, hn, Option.isSome_some, ok_bind, if_pos rfl, h.pictures.inode_eq_ok.mpr hn]
      rfl
    rw [hopen, Filesystem.file, hn]
    change ((v.get (contentKey id)).toOption.bind fun data => _) = _
    rw [h.pictures.content]
    cases fs.content id with
    | none => simp [found, Except.toOption]
    | some data =>
      change (if n.kind = .file then some (File.mk n.mode data) else none) = _
      simp
  | none =>
    by_cases hopened : c.table.isOpen world id = true
    · obtain ⟨linked, n, data, hfile⟩ := h.right.exists_fileAt h.consistent hopened
      have hsound := h.right.sound h.consistent hfile
      rw [hfile.openInode hsound h.pictures h.keeps]
      change ((v.openContent world linked id).toOption.bind fun data => _) = _
      rw [hfile.openContent h.pictures h.keeps, hfile.file]
      change (if n.kind = .file then some (File.mk n.mode data) else none) = _
      rw [if_pos hsound.kind]
    · obtain ⟨hinode, -⟩ := h.right.gone id fun hopen => absurd hopen hopened
      have hroot : c.store.roots[(RootName.orphanInode world id).key]? = none := by
        have hrecord := h.orphaned (.orphanInode world id) rfl
        rw [Orphans.record, hinode] at hrecord
        exact Option.map_eq_none_iff.mp hrecord
      have hopen : v.openInode world id = .error "object root not found" := by
        unfold NamespaceView.openInode
        rw [h.pictures.linked, hn, Option.isSome_none, ok_bind, if_neg Bool.false_ne_true, h.journal,
          Catalog.get, Catalog.rootObject, show c.store.catalog.roots[_]? = none from hroot]
        rfl
      rw [hopen, Filesystem.file, hn, hinode]
      rfl

end Files

section Edits

variable [Digest]

/-- What a write at an offset does to content. -/
def written (offset : ℕ) (value data : Bytes) : Bytes :=
  if value = [] then data else overwrite data offset value

/-- What a write through a descriptor does to content. -/
def OpenHandle.written (h : OpenHandle) (offset : ℕ) (value data : Bytes) : Bytes :=
  if h.append then data ++ value else ForkFs.written offset value data

/-- Edit the file that a path leads to. -/
def NamespaceView.editPath (v : NamespaceView) (follow : Bool) (path : Bytes) (g : File → File)
    (id : InodeId) (f : File) : File :=
  if v.resolve path follow = .ok id then g f else f

/-- Edit the file of a descriptor. -/
def HandleTable.editToken (t : HandleTable) (token : Bytes) (g : OpenHandle → File → File)
    (id : InodeId) (f : File) : File :=
  match t.handles[token]? with
  | some h => if h.inode = id then g h f else f
  | none => f

/-- What a successful call through a World does to its files. -/
def NamespaceCall.edit (v : NamespaceView) (t : HandleTable) : NamespaceCall → InodeId → File → File
  | .write path value => v.editPath true path fun f => { f with data := value }
  | .writeAt path offset value =>
    v.editPath true path fun f => { f with data := written offset value f.data }
  | .append path value => v.editPath true path fun f => { f with data := f.data ++ value }
  | .truncate path size => v.editPath true path fun f => { f with data := resize f.data size }
  | .setAttributes path a => v.editPath true path a.edit
  | .openHandle path _ o =>
    if o.truncate then v.editPath (o.create || !o.nofollow) path fun f => { f with data := [] }
    else fun _ f => f
  | .handleWrite token offset value =>
    t.editToken token fun h f => { f with data := h.written offset value f.data }
  | .handleAppend token value => t.editToken token fun _ f => { f with data := f.data ++ value }
  | .handleTruncate token size =>
    t.editToken token fun _ f => { f with data := resize f.data size }
  | .handleWriteNext token value => t.editToken token fun h f =>
    { f with data := h.written (t.cursorOf h).position value f.data }
  | .handleSetAttributes token a => t.editToken token fun _ => a.edit
  | _ => fun _ f => f

end Edits

section Paths

open Filesystem

variable {fs fs' : Filesystem} {o o' : Orphans} {v : NamespaceView} {env : Env} {world : Bytes}
  {opened : InodeId → Bool} {path value : Bytes} {id : InodeId} {follow : Bool} {g : File → File}

/-- Files that are left are edited. -/
def Edits (g : InodeId → File → File) (fs : Filesystem) (o : Orphans) (fs' : Filesystem)
    (o' : Orphans) : Prop :=
  ∀ x f f', fs.file o x = some f → fs'.file o' x = some f' → f' = g x f

/-- An edit of the file that a path leads to. -/
theorem EditedAt.byPath (h : EditedAt id g fs o fs' o') (hv : v.Pictures fs) (hfs : fs.Consistent)
    (hleads : fs.Leads follow path id) : Edits (v.editPath follow path g) fs o fs' o' := by
  intro x f f' hf hf'
  have hresolve := (hv.resolve_eq_ok hfs).mpr hleads
  have hiff : v.resolve path follow = .ok x ↔ x = id := by
    rw [hresolve, Except.ok.injEq, eq_comm]
  rw [h x f f' hf hf', NamespaceView.editPath]
  simp only [hiff]

/-- A path where a file is created leads to none. -/
theorem Unedited.byPath (h : Unedited fs o fs' o') (hv : v.Pictures fs) (hfs : fs.Consistent)
    {p : Parent} (hmissing : fs.Missing path p) : Edits (v.editPath true path g) fs o fs' o' := by
  intro x f f' hf hf'
  rw [h x f f' hf hf', NamespaceView.editPath, if_neg]
  intro hresolve
  obtain ⟨names, hnames, r, hr, hres⟩ := (hv.resolve_eq_ok hfs).mp hresolve
  obtain ⟨names', hnames', hreaches⟩ := hmissing
  obtain rfl := Except.ok.inj (hnames.symm.trans hnames')
  obtain ⟨dest, hwalk, htarget⟩ := hv.walk_of_reaches hfs hreaches
  obtain ⟨dest', hwalk', htarget'⟩ := hv.walk_of_reaches hfs ⟨r, hr, hres.found_of_found rfl true⟩
  obtain rfl := Except.ok.inj (hwalk.symm.trans hwalk')
  cases htarget.symm.trans htarget'

theorem edits_write (ho : o.Right opened fs) (hv : v.Pictures fs) (hfs : fs.Consistent)
    {e : Effect Unit} (h : v.write env path value = .ok e) :
    Edits (v.editPath true path fun f => { f with data := value }) fs o (fs.applyAll e.edits)
      (o.applyAll world e.edits) := by
  rcases hv.write_eq_ok hfs h with ⟨id, n, hleads, hn, hkind, -, hedits⟩ |
    ⟨p, id, pn, hmissing, hid, hallocated, hpn, -, happly, hplain⟩
  · obtain ⟨data, hdata, -⟩ := hfs.content_of_file hn hkind
    have hfile : FileAt fs o id true n data := .linked hn hkind hdata
    rw [hedits]
    have hedited : EditedAt id (fun f => { f with data := value }) fs o
        (fs.applyAll [.openInode true world id ({ n with size := value.length }.touch (env.clock 0)),
          .openContent true world id value])
        (o.applyAll world [.openInode true world id
          ({ n with size := value.length }.touch (env.clock 0)), .openContent true world id value]) :=
      editedAt_records hfile rfl rfl
    exact hedited.byPath hv hfs hleads
  · rw [happly, hplain]
    have hsame : Unedited fs o (fs.created p id ⟨.file, 0o644, 1, value.length, env.clock 0,
        env.clock 0⟩ (some value) (pn.touch (env.clock 2))) o :=
      unedited_created ho hid hallocated hpn rfl rfl
    exact hsame.byPath hv hfs hmissing

theorem edits_editContent {edit : ContentEdit} {e : Effect ℕ} {g : Bytes → Bytes}
    (hv : v.Pictures fs) (hfs : fs.Consistent) (h : v.editContent env path edit = .ok e)
    (hg : ∀ data value, edit data = .ok value → g data = value.getD data) :
    Edits (v.editPath true path fun f => { f with data := g f.data }) fs o (fs.applyAll e.edits)
      (o.applyAll world e.edits) := by
  obtain ⟨id, n, data, hleads, hn, hkind, hdata, he⟩ := hv.editContent_eq_ok hfs h
  have hfile : FileAt fs o id true n data := .linked hn hkind hdata
  have hedited : EditedAt id (fun f => { f with data := g f.data }) fs o (fs.applyAll e.edits)
      (o.applyAll world e.edits) := editedAt_openEffect hfile he (hg data)
  exact hedited.byPath hv hfs hleads

/-- What is no file has no content that attributes could change. -/
theorem edits_of_no_file (hnone : fs.file o id = none)
    (hothers : ∀ x ≠ id, fs'.file o' x = fs.file o x) (g : File → File) : EditedAt id g fs o fs' o' := by
  intro x f f' hf hf'
  have hx : x ≠ id := by
    rintro rfl
    rw [hnone] at hf
    cases hf
  rw [hothers x hx, hf] at hf'
  rw [if_neg hx]
  exact (Option.some.inj hf').symm

theorem edits_setAttributes {a : Attributes} {e : Effect Unit} (hv : v.Pictures fs)
    (hfs : fs.Consistent) (h : v.setAttributes env path a = .ok e) :
    Edits (v.editPath true path a.edit) fs o (fs.applyAll e.edits) (o.applyAll world e.edits) := by
  obtain ⟨id, n, hleads, hn, hcase⟩ := hv.setAttributes_eq_ok hfs h
  suffices hedited : EditedAt id a.edit fs o (fs.applyAll e.edits) (o.applyAll world e.edits) from
    hedited.byPath hv hfs hleads
  by_cases hkind : n.kind = .file
  · obtain ⟨data, hdata, hlength⟩ := hfs.content_of_file hn hkind
    rw [hv.setAttributes_eq hfs hleads hn (.inr hkind), hdata] at h
    have hfile : FileAt fs o id true n data := .linked hn hkind hdata
    exact editedAt_openAttributes hfile hlength.1 h
  · have hnone : fs.file o id = none := by
      simp [Filesystem.file, hn, hkind]
    refine edits_of_no_file hnone (fun x hx => ?_) a.edit
    obtain hedits | ⟨hfile, he⟩ := hcase
    · rw [hedits]
      rfl
    · unfold attributesEffect at he
      split at he
      · cases he
        rfl
      · obtain ⟨⟨n', new⟩, hupdate, he⟩ := bind_eq_ok.mp he
        obtain ⟨-, -, -, -, ⟨rfl, -⟩ | ⟨-, size, hsize, -⟩⟩ := InodeInfo.update_eq_ok hupdate
        · cases he
          have hsame : (fs.apply (.openInode true world id n')).file
              (o.apply world (.openInode true world id n')) x = fs.file o x := file_apply_inode hx
          exact hsame
        · rw [hsize] at hfile
          cases hfile with
          | inl hnone => cases hnone
          | inr hfile => exact absurd hfile hkind

/-- What is created by `open` is new, and what it cuts is the file that it finds. -/
theorem edits_openFile {options : OpenOptions} {opening : Opening} (ho : o.Right opened fs)
    (hv : v.Pictures fs) (hfs : fs.Consistent) (h : v.openFile env path options = .ok opening) :
    Edits (if options.truncate then
        v.editPath (options.create || !options.nofollow) path fun f => { f with data := [] }
      else fun _ f => f) fs o (fs.applyAll opening.effect.edits)
      (o.applyAll world opening.effect.edits) := by
  obtain ⟨-, ⟨hfinds, n, hn, hkind, hedits⟩ | hcreates⟩ := hv.openFile_eq_ok hfs h
  · obtain ⟨data, hdata, hlength, -⟩ := hfs.content_of_file hn hkind
    have hfile : FileAt fs o opening.id true n data := .linked hn hkind hdata
    have hedited (htruncate : options.truncate = true) : EditedAt opening.id
        (fun f => { f with data := [] }) fs o (fs.applyAll opening.effect.edits)
        (o.applyAll world opening.effect.edits) := by
      rw [hedits]
      split
      · exact editedAt_records hfile rfl rfl
      · rename_i hsize
        refine .of_unedited (.refl fs o) fun f hf => ?_
        obtain rfl := Option.some.inj (hfile.file.symm.trans hf)
        have hnil : data = [] := by
          rw [← List.length_eq_zero_iff, hlength]
          by_contra hne
          exact hsize ⟨htruncate, hne⟩
        rw [hnil]
    split
    · rename_i htruncate
      exact (hedited htruncate).byPath hv hfs hfinds.leads
    · rename_i htruncate
      rw [hedits, if_neg fun hboth => htruncate hboth.1]
      exact Unedited.refl fs o
  · obtain ⟨p, pn, hmissing, hpn, happly⟩ := hcreates.applied
    obtain ⟨hnone, hallocated⟩ := hcreates.fresh
    have hsame : Unedited fs o (fs.applyAll opening.effect.edits)
        (o.applyAll world opening.effect.edits) := by
      rw [happly, hcreates.plain]
      exact unedited_created ho hnone hallocated hpn rfl rfl
    rw [hcreates.create, Bool.true_or]
    split
    · exact hsame.byPath hv hfs hmissing
    · exact hsame

end Paths

section Tokens

open Filesystem

variable {fs fs' : Filesystem} {o o' : Orphans} {v : NamespaceView} {env : Env} {world : Bytes}
  {opened : InodeId → Bool} {token value : Bytes} {h : OpenHandle} {t : HandleTable}

/-- An edit of the file of a descriptor. -/
theorem EditedAt.byToken {g : OpenHandle → File → File} (hedited : EditedAt h.inode (g h) fs o fs' o')
    (htoken : t.handles[token]? = some h) : Edits (t.editToken token g) fs o fs' o' := by
  intro x f f' hf hf'
  rw [hedited x f f' hf hf', HandleTable.editToken, htoken]
  simp only [eq_comm]

/-- A content edit through a descriptor. -/
theorem edits_editHandle {edit : ContentEdit} {e : Effect ℕ} {g : OpenHandle → Bytes → Bytes}
    (ho : o.Right opened fs) (hv : v.Pictures fs) (hfs : fs.Consistent) (hkeeps : v.Keeps world o)
    (htoken : t.handles[token]? = some h) (hopened : opened h.inode = true)
    (he : v.editHandle env world h edit = .ok e)
    (hg : ∀ data value, edit data = .ok value → g h data = value.getD data) :
    Edits (t.editToken token fun h f => { f with data := g h f.data }) fs o (fs.applyAll e.edits)
      (o.applyAll world e.edits) := by
  obtain ⟨linked, n, data, hfile⟩ := ho.exists_fileAt hfs hopened
  obtain ⟨hwritable, -⟩ := need_bind_eq_ok.mp he
  rw [hfile.editHandle (ho.sound hfs hfile) hv hkeeps hwritable] at he
  have hedited := editedAt_openEffect hfile he (hg data)
  exact hedited.byToken htoken

/-- New attributes through a descriptor. -/
theorem edits_handleSetAttributes {a : Attributes} {e : Effect Unit} (ho : o.Right opened fs)
    (hv : v.Pictures fs) (hfs : fs.Consistent) (hkeeps : v.Keeps world o)
    (htoken : t.handles[token]? = some h) (hopened : opened h.inode = true)
    (he : v.handleSetAttributes env world h a = .ok e) :
    Edits (t.editToken token fun _ => a.edit) fs o (fs.applyAll e.edits)
      (o.applyAll world e.edits) := by
  obtain ⟨linked, n, data, hfile⟩ := ho.exists_fileAt hfs hopened
  have hsound := ho.sound hfs hfile
  have hwritable : a.size = none ∨ h.writable = true := by
    obtain ⟨_, -, hrest⟩ := bind_eq_ok.mp he
    exact (need_bind_eq_ok.mp hrest).1
  rw [hfile.handleSetAttributes hsound hv hkeeps hwritable] at he
  exact (editedAt_openAttributes hfile hsound.length he).byToken htoken

end Tokens

section Contents

variable {offset size : ℕ} {value data : Bytes} {result : Option Bytes}

theorem written_of_writeAtEdit (h : writeAtEdit offset value data = .ok result) :
    written offset value data = result.getD data := by
  cases h
  unfold written
  split <;> rfl

theorem append_of_appendEdit (h : appendEdit value data = .ok result) :
    data ++ value = result.getD data := by
  obtain ⟨-, h⟩ := need_bind_eq_ok.mp h
  cases h
  split
  · rename_i hnil
    simp [hnil]
  · rfl

theorem resize_of_truncateEdit (h : truncateEdit size data = .ok result) :
    resize data size = result.getD data := by
  cases h
  split
  · rename_i hsize
    rw [← hsize, resize_length]
    rfl
  · rfl

/-- A write at the end appends. -/
theorem overwrite_length (data value : Bytes) : overwrite data data.length value = data ++ value := by
  have hgrown : resize data (max data.length (data.length + value.length)) =
      data ++ List.replicate value.length 0 := by
    rw [Nat.max_eq_right (Nat.le_add_right _ _), resize, Nat.add_sub_cancel_left,
      List.take_of_length_le (Nat.le_add_right _ _)]
  rw [overwrite, hgrown, patch, List.take_left, List.drop_of_length_le (by simp), List.append_nil]

theorem written_of_handleWriteEdit {h : OpenHandle}
    (hedit : handleWriteEdit offset value h.append data = .ok result) :
    h.written offset value data = result.getD data := by
  unfold handleWriteEdit at hedit
  unfold OpenHandle.written ForkFs.written
  split at hedit
  · rename_i hnil
    cases hedit
    simp [hnil]
  · rename_i hne
    obtain ⟨-, hedit⟩ := need_bind_eq_ok.mp hedit
    cases hedit
    rw [if_neg hne]
    cases h.append with
    | false => rfl
    | true =>
      simp only [if_true]
      exact (overwrite_length data value).symm

end Contents

end ForkFs
