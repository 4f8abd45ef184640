import ForkFs.Container.FileOperations

/-!
# Files

A file is its mode and its bytes, whether it is found in its World or among the orphans. Operations
on entries do not change files, only which of them are left; operations on contents change one file
and treat it the same in both places.
-/

namespace ForkFs

open Bytes Outcome

/-- A regular file. -/
structure File where
  /-- Permission bits. -/
  mode : ℕ
  /-- The content. -/
  data : Bytes
deriving DecidableEq

section Files

variable {fs fs' : Filesystem} {o o' : Orphans} {id x : InodeId} {n m : InodeInfo} {data : Bytes}

/-- The file of an identity, in the World or among the orphans. -/
def Filesystem.file (fs : Filesystem) (o : Orphans) (id : InodeId) : Option File :=
  match fs.inode id with
  | some n => if n.kind = .file then (fs.content id).map (File.mk n.mode) else none
  | none => (o.inode id).bind fun n => (o.content id).map (File.mk n.mode)

theorem FileAt.file {linked : Bool} (h : FileAt fs o id linked n data) :
    fs.file o id = some ⟨n.mode, data⟩ := by
  cases h with
  | linked hn hkind hdata => simp [Filesystem.file, hn, hkind, hdata]
  | orphan hnone hn hdata => simp [Filesystem.file, hnone, hn, hdata]

theorem Filesystem.exists_fileAt {f : File} (h : fs.file o id = some f) :
    ∃ linked n, FileAt fs o id linked n f.data ∧ n.mode = f.mode := by
  unfold Filesystem.file at h
  cases hn : fs.inode id with
  | some n =>
    rw [hn] at h
    simp only at h
    split at h
    · rename_i hkind
      obtain ⟨data, hdata, rfl⟩ := Option.map_eq_some_iff.mp h
      exact ⟨true, n, .linked hn hkind hdata, rfl⟩
    · cases h
  | none =>
    rw [hn] at h
    obtain ⟨n, hinode, h⟩ := Option.bind_eq_some_iff.mp h
    obtain ⟨data, hdata, rfl⟩ := Option.map_eq_some_iff.mp h
    exact ⟨false, n, .orphan hn hinode hdata, rfl⟩

/-- Files that are left are the same. -/
def Unedited (fs : Filesystem) (o : Orphans) (fs' : Filesystem) (o' : Orphans) : Prop :=
  ∀ x f f', fs.file o x = some f → fs'.file o' x = some f' → f' = f

/-- One file is edited, and those that are left are the same otherwise. -/
def EditedAt (id : InodeId) (g : File → File) (fs : Filesystem) (o : Orphans) (fs' : Filesystem)
    (o' : Orphans) : Prop :=
  ∀ x f f', fs.file o x = some f → fs'.file o' x = some f' → f' = if x = id then g f else f

/-- A file depends on the type and mode of its inode. -/
theorem Filesystem.file_congr
    (hinode : (fs'.inode x).map (fun n => (n.kind, n.mode)) = (fs.inode x).map fun n => (n.kind, n.mode))
    (hcontent : fs'.content x = fs.content x) : fs'.file o x = fs.file o x := by
  unfold Filesystem.file
  cases hn : fs.inode x with
  | none =>
    rw [hn, Option.map_none] at hinode
    rw [Option.map_eq_none_iff.mp hinode]
  | some n =>
    rw [hn, Option.map_some] at hinode
    obtain ⟨n', hn', heq⟩ := Option.map_eq_some_iff.mp hinode
    obtain ⟨hkind, hmode⟩ := Prod.mk.inj heq
    rw [hn']
    simp only [hkind, hmode, hcontent]

/-- Files stay unedited by what does not concern them. -/
theorem Unedited.congr {fs'' : Filesystem} (h : Unedited fs o fs' o')
    (hsame : ∀ x, fs.file o x ≠ none → fs''.file o' x = fs'.file o' x) :
    Unedited fs o fs'' o' := by
  intro x f f' hf hf'
  rw [hsame x (by simp [hf])] at hf'
  exact h x f f' hf hf'

theorem Unedited.refl (fs : Filesystem) (o : Orphans) : Unedited fs o fs o := by
  intro x f f' hf hf'
  exact Option.some.inj (hf'.symm.trans hf)

/-- What is kept of an inode by a new entry. -/
theorem Filesystem.file_created {p : Parent} {pn pn' : InodeInfo} {value : Option Bytes}
    (hpn : fs.inode p.id = some pn) (hkind : pn'.kind = pn.kind) (hmode : pn'.mode = pn.mode)
    (hx : x ≠ id ∨ fs.inode id = some m ∧ n.kind = m.kind ∧ n.mode = m.mode ∧
      value = fs.content id) : (fs.created p id n value pn').file o x = fs.file o x := by
  apply Filesystem.file_congr
  · simp only [Filesystem.created, Function.update_apply]
    split
    · rename_i heq
      rw [heq, hpn, Option.map_some, Option.map_some, hkind, hmode]
    · split
      · rename_i heq
        obtain ⟨hm, hkind', hmode', -⟩ := hx.resolve_left (not_not.mpr heq)
        rw [heq, hm, Option.map_some, Option.map_some, hkind', hmode']
      · rfl
  · simp only [Filesystem.created, Function.update_apply]
    split
    · rename_i heq
      obtain ⟨-, -, -, hvalue⟩ := hx.resolve_left (not_not.mpr heq)
      rw [hvalue, heq]
    · rfl

/-- What is kept of an inode by a moved entry. -/
theorem Filesystem.file_moved {src dst : Parent} {sn sn' dn dn' : InodeInfo}
    (hn : fs.inode id = some m) (hsn : fs.inode src.id = some sn) (hdn : fs.inode dst.id = some dn)
    (hkind : n.kind = m.kind ∧ n.mode = m.mode) (hskind : sn'.kind = sn.kind ∧ sn'.mode = sn.mode)
    (hdkind : dn'.kind = dn.kind ∧ dn'.mode = dn.mode) :
    (fs.moved src dst id n sn' dn').file o x = fs.file o x := by
  apply Filesystem.file_congr
  · simp only [Filesystem.moved, Function.update_apply]
    split
    · rename_i heq
      rw [heq, hdn, Option.map_some, Option.map_some, hdkind.1, hdkind.2]
    · split
      · rename_i heq
        rw [heq, hsn, Option.map_some, Option.map_some, hskind.1, hskind.2]
      · split
        · rename_i heq
          rw [heq, hn, Option.map_some, Option.map_some, hkind.1, hkind.2]
        · rfl
  · rfl

/-- New identities have no file. -/
theorem Orphans.Right.file_eq_none {opened : InodeId → Bool} (h : o.Right opened fs)
    (hnone : fs.inode id = none) (hallocated : fs.allocated id = false) : fs.file o id = none := by
  have hclosed : opened id ≠ true := by
    intro hopened
    rw [(h.file id hopened).1] at hallocated
    cases hallocated
  obtain ⟨hinode, -⟩ := h.gone id fun hopened => absurd hopened hclosed
  simp [Filesystem.file, hnone, hinode]

/-- What is left of an inode has its mode. -/
theorem InodeInfo.mode_of_unlinked {n' : InodeInfo} {now : UInt64} (h : n.unlinked now = some n') :
    n'.mode = n.mode := by
  unfold InodeInfo.unlinked at h
  split at h
  · cases h
  · cases h
    rfl

/-- The file of another identity when an inode loses an entry. -/
theorem Filesystem.file_dropped_of_ne {left : Option InodeInfo} (hx : x ≠ id)
    (hinode : o'.inode x = o.inode x) (hcontent : o'.content x = o.content x) :
    (fs.dropped id left).file o' x = fs.file o x := by
  have hself : (fs.dropped id left).inode x = fs.inode x := Function.update_of_ne hx _ _
  have hdata : (fs.dropped id left).content x = fs.content x := Function.update_of_ne hx _ _
  simp only [Filesystem.file, hself, hdata, hinode, hcontent]

/-- An inode that loses an entry keeps its content as long as there is a file. -/
theorem unedited_unlink {v : NamespaceView} {env : Env} {world : Bytes} {opened : InodeId → Bool}
    {edits : List Edit} (ho : o.Right opened fs) (hv : v.Pictures fs) (hn : fs.inode id = some n)
    (h : v.unlink env world opened id n = .ok edits) :
    Unedited fs o (fs.dropped id (n.unlinked (env.clock 3))) (o.applyAll world edits) := by
  have hself : (fs.dropped id (n.unlinked (env.clock 3))).inode id = n.unlinked (env.clock 3) :=
    Function.update_self _ _ _
  have hcontent : (fs.dropped id (n.unlinked (env.clock 3))).content id =
      (n.unlinked (env.clock 3)).bind fun _ => fs.content id := Function.update_self _ _ _
  intro x f f' hf hf'
  rcases orphans_of_unlink h with ⟨-, hplain⟩ | ⟨hnone, hkind, hopened, data, hdata, horphan⟩
  · rw [hplain] at hf'
    by_cases hx : x = id
    · subst hx
      unfold Filesystem.file at hf hf'
      rw [hn] at hf
      rw [hself, hcontent] at hf'
      cases hleft : n.unlinked (env.clock 3) with
      | some n' =>
        rw [hleft] at hf'
        simp only [Option.bind_some, InodeInfo.kind_of_unlinked hleft, n.mode_of_unlinked hleft] at hf'
        exact Option.some.inj (hf'.symm.trans hf)
      | none =>
        rw [hleft, (ho.gone x fun _ => ⟨n, hn⟩).1] at hf'
        cases hf'
    · rw [Filesystem.file_dropped_of_ne hx rfl rfl, hf] at hf'
      exact (Option.some.inj hf').symm
  · rw [horphan, if_pos rfl] at hf'
    by_cases hx : x = id
    · subst hx
      unfold Filesystem.file at hf hf'
      rw [hn] at hf
      rw [hself, hnone] at hf'
      simp only [Function.update_self, Option.bind_some, Option.map_some] at hf'
      simp only [(ho.file x hopened).2 n hn, if_true, hv.content_eq_ok.mp hdata, Option.map_some] at hf
      exact Option.some.inj (hf'.symm.trans hf)
    · rw [Filesystem.file_dropped_of_ne hx (Function.update_of_ne hx _ _)
        (Function.update_of_ne hx _ _), hf] at hf'
      exact (Option.some.inj hf').symm

end Files

section Entries

open Filesystem

variable {fs : Filesystem} {o : Orphans} {v : NamespaceView} {env : Env} {world : Bytes}
  {opened : InodeId → Bool} {path source target value : Bytes} {mode : ℕ} {e : Effect Unit}

/-- A new inode is not one of the files. -/
theorem unedited_created {p : Parent} {id : InodeId} {n pn pn' : InodeInfo} {data : Option Bytes}
    (ho : o.Right opened fs) (hid : fs.inode id = none) (hallocated : fs.allocated id = false)
    (hpn : fs.inode p.id = some pn) (hkind : pn'.kind = pn.kind) (hmode : pn'.mode = pn.mode) :
    Unedited fs o (fs.created p id n data pn') o := by
  refine (Unedited.refl fs o).congr fun x hx => ?_
  refine file_created (m := n) hpn hkind hmode (.inl ?_)
  rintro rfl
  exact hx (ho.file_eq_none hid hallocated)

theorem unedited_fsInit (ho : o.Right opened fs) (hv : v.Pictures fs) (h : v.fsInit env = .ok e) :
    Unedited fs o (fs.applyAll e.edits) (o.applyAll world e.edits) := by
  obtain ⟨rfl, -⟩ := hv.fsInit_eq_ok h
  intro x f f' hf
  rw [ho.file_eq_none rfl rfl] at hf
  cases hf

theorem unedited_mkdir (ho : o.Right opened fs) (hv : v.Pictures fs) (hfs : fs.Consistent)
    (h : v.mkdir env path mode = .ok e) :
    Unedited fs o (fs.applyAll e.edits) (o.applyAll world e.edits) := by
  obtain ⟨p, id, pn, -, -, hid, hallocated, hpn, -, -, happly, hplain⟩ := hv.mkdir_eq_ok hfs h
  rw [happly, hplain]
  exact unedited_created ho hid hallocated hpn rfl rfl

theorem unedited_symlink (ho : o.Right opened fs) (hv : v.Pictures fs) (hfs : fs.Consistent)
    (h : v.symlink env target path = .ok e) :
    Unedited fs o (fs.applyAll e.edits) (o.applyAll world e.edits) := by
  obtain ⟨p, id, pn, -, -, hid, hallocated, hpn, -, happly, hplain⟩ := hv.symlink_eq_ok hfs h
  rw [happly, hplain]
  exact unedited_created ho hid hallocated hpn rfl rfl

theorem unedited_link (hv : v.Pictures fs) (hfs : fs.Consistent)
    (h : v.link env source target = .ok e) :
    Unedited fs o (fs.applyAll e.edits) (o.applyAll world e.edits) := by
  obtain ⟨p, id, n, pn, -, hn, -, -, -, -, hpn, -, happly, hplain⟩ := hv.link_eq_ok hfs h
  rw [happly, hplain]
  refine (Unedited.refl fs o).congr fun x _ => ?_
  exact file_created hpn rfl rfl (.inr ⟨hn, rfl, rfl, rfl⟩)

theorem unedited_remove {directory : Bool} (ho : o.Right opened fs) (hv : v.Pictures fs)
    (hfs : fs.Consistent) (h : v.remove env world opened path directory = .ok e) :
    Unedited fs o (fs.applyAll e.edits) (o.applyAll world e.edits) := by
  obtain ⟨p, id, n, pn, edits, -, hid, hn, hpn, -, -, -, hunlink, happly, horphans⟩ :=
    hv.remove_eq_ok hfs h
  rw [happly, horphans]
  refine (unedited_unlink ho hv hn hunlink).congr fun x _ => file_congr ?_ rfl
  have hne : p.id ≠ id := Ne.symm (hfs.ne_of_entry hid)
  simp only [removed, dropped, Function.update_apply]
  split
  · rfl
  · split
    · rename_i heq
      rw [heq, hpn, Option.map_some, Option.map_some]
      split <;> rfl
    · rfl

theorem unedited_replaceFile (ho : o.Right opened fs) (hv : v.Pictures fs) (hfs : fs.Consistent)
    (h : v.replaceFile env world opened path value = .ok e) :
    Unedited fs o (fs.applyAll e.edits) (o.applyAll world e.edits) := by
  obtain ⟨p, id, pn, -, hid, hallocated, hpn, -, ⟨hfree, happly, hplain⟩ |
    ⟨old, n, edits, hold, hn, hkind, hunlink, happly, horphans⟩⟩ := hv.replaceFile_eq_ok hfs h
  · rw [happly, hplain]
    exact unedited_created ho hid hallocated hpn rfl rfl
  · rw [happly, horphans]
    refine (unedited_unlink ho hv hn hunlink).congr fun x hx => ?_
    have hpold : p.id ≠ old := Ne.symm (hfs.ne_of_entry hold)
    have hparent : (fs.dropped old (n.unlinked (env.clock 3))).inode p.id = some pn :=
      (Function.update_of_ne hpold _ _).trans hpn
    refine file_created (m := n) hparent rfl rfl (.inl ?_)
    rintro rfl
    exact hx (ho.file_eq_none hid hallocated)

theorem unedited_rename (ho : o.Right opened fs) (hv : v.Pictures fs) (hfs : fs.Consistent)
    (h : v.rename env world opened source target = .ok e) :
    Unedited fs o (fs.applyAll e.edits) (o.applyAll world e.edits) := by
  obtain ⟨src, dst, id, n, hsource, htarget, hid, hn, -, ⟨-, hnil⟩ | ⟨sn, dn, above, old, lost, rest,
    hsn, hdn, hchain, hbelow, -, hedits, happly, horphans, hcase⟩⟩ := hv.rename_eq_ok hfs h
  · rw [hnil]
    exact .refl _ _
  · rw [horphans, hedits, applyAll_append, happly]
    rcases hcase with ⟨hfree, rfl, rfl⟩ | ⟨other, on, hother, hne, hon, hkinds, hleaf, -, hunlink⟩
    · refine (Unedited.refl fs o).congr fun x _ => ?_
      exact file_moved hn hsn hdn ⟨rfl, rfl⟩ ⟨rfl, rfl⟩ ⟨rfl, rfl⟩
    · rw [NamespaceView.applyAll_of_unlink hunlink fun hkind =>
        holds_directory hkind (hfs.inode other on hon).content]
      have hframe {x : InodeId} (hx : x ≠ other) :
          (fs.dropped other (on.unlinked (env.clock 3))).inode x = fs.inode x :=
        Function.update_of_ne hx _ _
      have hsother : src.id ≠ other := by
        rintro heq
        rw [heq, hleaf] at hid
        cases hid
      refine (unedited_unlink ho hv hon hunlink).congr fun x _ => ?_
      exact file_moved ((hframe (Ne.symm hne)).trans hn) ((hframe hsother).trans hsn)
        ((hframe (Ne.symm (hfs.ne_of_entry hother))).trans hdn) ⟨rfl, rfl⟩ ⟨rfl, rfl⟩ ⟨rfl, rfl⟩

end Entries

section Contents

open Filesystem

variable {fs : Filesystem} {o : Orphans} {v : NamespaceView} {env : Env} {world : Bytes}
  {opened : InodeId → Bool} {path value : Bytes} {id : InodeId} {n n' : InodeInfo} {data : Bytes}

theorem EditedAt.of_unedited {fs' : Filesystem} {o' : Orphans} {g : File → File}
    (h : Unedited fs o fs' o') (hg : ∀ f, fs.file o id = some f → g f = f) :
    EditedAt id g fs o fs' o' := by
  intro x f f' hf hf'
  rw [h x f f' hf hf']
  split
  · rename_i heq
    rw [heq] at hf
    exact (hg f hf).symm
  · rfl

/-- A new inode of an open file. -/
theorem FileAt.apply_inode {linked : Bool} (h : FileAt fs o id linked n data)
    (hkind : n'.kind = n.kind) : FileAt (fs.apply (.openInode linked world id n'))
      (o.apply world (.openInode linked world id n')) id linked n' data := by
  cases h with
  | linked hn hfile hdata =>
    exact .linked (Function.update_self _ _ _) (hkind.trans hfile) hdata
  | orphan hnone hn hdata =>
    refine .orphan hnone ?_ ?_ <;> simp [Edit.openInode, Orphans.apply, hdata]

/-- A new content of an open file. -/
theorem FileAt.apply_content {linked : Bool} (h : FileAt fs o id linked n data) :
    FileAt (fs.apply (.openContent linked world id value))
      (o.apply world (.openContent linked world id value)) id linked n value := by
  cases h with
  | linked hn hfile hdata => exact .linked hn hfile (Function.update_self _ _ _)
  | orphan hnone hn hdata =>
    refine .orphan hnone ?_ ?_ <;> simp [Edit.openContent, Orphans.apply, hn]

/-- The other files have other records. -/
theorem file_apply_inode {linked : Bool} {x : InodeId} (hx : x ≠ id) :
    (fs.apply (.openInode linked world id n)).file (o.apply world (.openInode linked world id n)) x =
      fs.file o x := by
  cases linked <;> simp [file, Edit.openInode, apply, Orphans.apply, hx]

theorem file_apply_content {linked : Bool} {x : InodeId} (hx : x ≠ id) :
    (fs.apply (.openContent linked world id value)).file
      (o.apply world (.openContent linked world id value)) x = fs.file o x := by
  cases linked <;> simp [file, Edit.openContent, apply, Orphans.apply, hx]

/-- One file has new records. -/
theorem editedAt_of_fileAt {fs' : Filesystem} {o' : Orphans} {linked : Bool} {g : File → File}
    (h : FileAt fs o id linked n data) (h' : FileAt fs' o' id linked n' value)
    (hg : g ⟨n.mode, data⟩ = ⟨n'.mode, value⟩)
    (hothers : ∀ x, x ≠ id → fs'.file o' x = fs.file o x) : EditedAt id g fs o fs' o' := by
  intro x f f' hf hf'
  by_cases hx : x = id
  · rw [hx] at hf hf'
    rw [if_pos hx, ← Option.some.inj (h.file.symm.trans hf), hg]
    exact (Option.some.inj (h'.file.symm.trans hf')).symm
  · rw [if_neg hx]
    rw [hothers x hx, hf] at hf'
    exact (Option.some.inj hf').symm

/-- Both records of an open file are replaced. -/
theorem editedAt_records {linked : Bool} {g : File → File} (h : FileAt fs o id linked n data)
    (hkind : n'.kind = n.kind) (hg : g ⟨n.mode, data⟩ = ⟨n'.mode, value⟩) :
    EditedAt id g fs o
      (fs.applyAll [.openInode linked world id n', .openContent linked world id value])
      (o.applyAll world [.openInode linked world id n', .openContent linked world id value]) := by
  change EditedAt id _ fs o ((fs.apply (.openInode linked world id n')).apply
      (.openContent linked world id value))
    ((o.apply world (.openInode linked world id n')).apply world (.openContent linked world id value))
  refine editedAt_of_fileAt h (h.apply_inode hkind).apply_content hg fun x hx => ?_
  exact (file_apply_content hx).trans (file_apply_inode hx)

/-- A content edit of an open file. -/
theorem editedAt_openEffect {linked : Bool} {now : UInt64} {edit : ContentEdit} {e : Effect ℕ}
    {g : Bytes → Bytes} (h : FileAt fs o id linked n data)
    (he : openEffect now linked world id n data edit = .ok e)
    (hg : ∀ value, edit data = .ok value → g data = value.getD data) :
    EditedAt id (fun f => { f with data := g f.data }) fs o (fs.applyAll e.edits)
      (o.applyAll world e.edits) := by
  obtain ⟨result, hresult, he⟩ := bind_eq_ok.mp he
  have hdata := hg result hresult
  cases result with
  | none =>
    cases he
    refine .of_unedited (.refl _ _) fun f hf => ?_
    rw [← Option.some.inj (h.file.symm.trans hf)]
    simp [hdata]
  | some value =>
    obtain ⟨-, he⟩ := need_bind_eq_ok.mp he
    cases he
    refine editedAt_records h rfl ?_
    simp [hdata, InodeInfo.touch]

/-- What new attributes do to a file. -/
def Attributes.edit (a : Attributes) (f : File) : File :=
  ⟨a.mode.getD f.mode, match a.size with
    | none => f.data
    | some size => resize f.data size⟩

theorem resize_length (data : Bytes) : resize data data.length = data := by
  simp [resize]

/-- New attributes of an open file. -/
theorem editedAt_openAttributes {linked : Bool} {clock : ℕ → UInt64} {a : Attributes}
    {e : Effect Unit} (h : FileAt fs o id linked n data) (hlength : data.length = n.size)
    (he : openAttributes clock linked world id n data a = .ok e) :
    EditedAt id a.edit fs o (fs.applyAll e.edits) (o.applyAll world e.edits) := by
  unfold openAttributes at he
  split at he
  · rename_i hidle
    cases he
    refine .of_unedited (.refl _ _) fun f hf => ?_
    rw [← Option.some.inj (h.file.symm.trans hf), Attributes.edit, hidle.1]
    obtain ⟨-, -, hsize | hsize⟩ := hidle
    · simp [hsize]
    · simp [hsize, ← hlength, resize_length]
  · obtain ⟨⟨n', changed⟩, hupdate, he⟩ := bind_eq_ok.mp he
    cases he
    obtain ⟨hkind, -, hmode, hsize, ⟨rfl, hsame⟩ | ⟨data', size, hgiven, hcontent, -, -, rfl⟩⟩ :=
      InodeInfo.update_eq_ok hupdate
    · change EditedAt id _ fs o (fs.apply (.openInode linked world id n'))
        (o.apply world (.openInode linked world id n'))
      refine editedAt_of_fileAt h (h.apply_inode hkind) ?_ fun x hx => file_apply_inode hx
      rw [Attributes.edit, hmode]
      cases hgiven : a.size with
      | none => rfl
      | some size =>
        rw [hgiven, Option.getD_some] at hsize
        obtain rfl : size = data.length := by omega
        simp [resize_length]
    · cases hcontent
      change EditedAt id _ fs o ((fs.apply (.openContent linked world id (resize data size))).apply
          (.openInode linked world id n'))
        ((o.apply world (.openContent linked world id (resize data size))).apply world
          (.openInode linked world id n'))
      refine editedAt_of_fileAt h (h.apply_content.apply_inode hkind) ?_ fun x hx => ?_
      · rw [Attributes.edit, hmode, hgiven]
      · exact (file_apply_inode hx).trans (file_apply_content hx)

end Contents

end ForkFs
