import ForkFs.Container.Orphans

/-!
# Open files

An open file of a World is an inode of the World, or an orphan. Reads and writes through its
descriptors find the one or the other, and apart from that do the same.
-/

namespace ForkFs

open Bytes Outcome

section Files

variable [Digest] {fs : Filesystem} {o : Orphans} {v : NamespaceView} {world : Bytes} {id : InodeId}
  {linked : Bool} {n : InodeInfo} {data : Bytes} {opened : InodeId → Bool} {env : Env}

/-- The file of an identity: an inode of the World, or an orphan. -/
inductive FileAt (fs : Filesystem) (o : Orphans) (id : InodeId) : Bool → InodeInfo → Bytes → Prop
  /-- A file with entries. -/
  | linked {n : InodeInfo} {data : Bytes} (hn : fs.inode id = some n) (hkind : n.kind = .file)
      (hdata : fs.content id = some data) : FileAt fs o id true n data
  /-- A file without entries. -/
  | orphan {n : InodeInfo} {data : Bytes} (hnone : fs.inode id = none) (hn : o.inode id = some n)
      (hdata : o.content id = some data) : FileAt fs o id false n data

omit [Digest] in
/-- An identity has at most one file. -/
theorem FileAt.unique {linked' : Bool} {n' : InodeInfo} {data' : Bytes}
    (h : FileAt fs o id linked n data) (h' : FileAt fs o id linked' n' data') :
    linked = linked' ∧ n = n' ∧ data = data' := by
  cases h with
  | linked hn hkind hdata =>
    cases h' with
    | linked hn' hkind' hdata' =>
      exact ⟨rfl, Option.some.inj (hn.symm.trans hn'), Option.some.inj (hdata.symm.trans hdata')⟩
    | orphan hnone => cases hn.symm.trans hnone
  | orphan hnone hn hdata =>
    cases h' with
    | linked hn' => cases hnone.symm.trans hn'
    | orphan _ hn' hdata' =>
      exact ⟨rfl, Option.some.inj (hn.symm.trans hn'), Option.some.inj (hdata.symm.trans hdata')⟩

omit [Digest] in
/-- Every open file is one. -/
theorem Orphans.Right.exists_fileAt (h : o.Right opened fs) (hfs : fs.Consistent)
    (hopened : opened id = true) : ∃ linked n data, FileAt fs o id linked n data := by
  cases hn : fs.inode id with
  | some n =>
    have hkind := (h.file id hopened).2 n hn
    obtain ⟨data, hdata, -⟩ := hfs.content_of_file hn hkind
    exact ⟨true, n, data, .linked hn hkind hdata⟩
  | none =>
    obtain ⟨n, data, hinode, hcontent, -⟩ := h.kept id hopened hn
    exact ⟨false, n, data, .orphan hn hinode hcontent⟩

/-- What the records of a file satisfy. -/
structure FileAt.Sound (linked : Bool) (n : InodeInfo) (data : Bytes) : Prop where
  /-- The inode is valid. -/
  valid : n.Valid (!linked)
  /-- It is a file. -/
  kind : n.kind = .file
  /-- The content has the size of the inode. -/
  length : data.length = n.size
  /-- It has at most 256 KiB. -/
  limit : n.size ≤ 256 * 1024

omit [Digest] in
theorem Orphans.Right.sound (h : o.Right opened fs) (hfs : fs.Consistent)
    (hfile : FileAt fs o id linked n data) : FileAt.Sound linked n data := by
  cases hfile with
  | linked hn hkind hdata =>
    obtain ⟨data', hdata', hlength, hlimit⟩ := hfs.content_of_file hn hkind
    obtain rfl := Option.some.inj (hdata.symm.trans hdata')
    exact ⟨(hfs.inode id n hn).valid, hkind, hlength, hlimit⟩
  | orphan hnone hn hdata =>
    have hopened : opened id = true := by
      by_contra hclosed
      obtain ⟨hgone, -⟩ := h.gone id fun hopened => absurd hopened hclosed
      rw [hgone] at hn
      cases hn
    obtain ⟨n', data', hn', hdata', hvalid, hlength, hlimit⟩ := h.kept id hopened hnone
    obtain rfl := Option.some.inj (hn.symm.trans hn')
    obtain rfl := Option.some.inj (hdata.symm.trans hdata')
    exact ⟨hvalid, hvalid.state.1.1, hlength, hlimit⟩

/-- A view whose journal has the roots of a World's orphans. -/
def NamespaceView.Keeps (v : NamespaceView) (world : Bytes) (o : Orphans) : Prop :=
  ∀ (n : RootName) (b : Bytes), n.OrphanOf world → o.record n = some b →
    v.journal.get n.key = .ok b

theorem LevelStore.Orphaned.keeps {s : LevelStore} (h : s.Orphaned world o)
    (hjournal : v.journal = s.catalog) : v.Keeps world o := by
  intro n b hn hrecord
  have hroot := h n hn
  rw [hrecord] at hroot
  obtain ⟨id, hid, hobject⟩ := Option.map_eq_some_iff.mp hroot
  have hrootObject : s.catalog.rootObject n.key = .ok id := Catalog.rootObject_eq_ok.mpr hid
  rw [hjournal, Catalog.get, hrootObject]
  exact hobject

end Files

section Reads

variable {fs : Filesystem} {o : Orphans} {v : NamespaceView} {world : Bytes} {id : InodeId}
  {linked : Bool} {n : InodeInfo} {data : Bytes}

namespace FileAt

/-- The attributes of an open file. -/
theorem openInode (h : FileAt fs o id linked n data) (hsound : Sound linked n data)
    (hv : v.Pictures fs) (hkeeps : v.Keeps world o) : v.openInode world id = .ok (linked, n) := by
  unfold NamespaceView.openInode
  cases h with
  | linked hn hkind hdata =>
    rw [hv.linked, hn, Option.isSome_some, ok_bind, if_pos rfl, hv.inode_eq_ok.mpr hn]
    rfl
  | orphan hnone hn hdata =>
    have hget : v.journal.get (RootName.orphanInode world id).key = .ok n.encode :=
      hkeeps _ _ rfl (by rw [Orphans.record, hn, Option.map_some])
    have hdecode : InodeInfo.decode n.encode true = .ok n := InodeInfo.decode_encode hsound.valid
    rw [hv.linked, hnone, Option.isSome_none, ok_bind, if_neg Bool.false_ne_true, hget, ok_bind,
      hdecode]
    rfl

/-- Its content. -/
theorem openContent (h : FileAt fs o id linked n data) (hv : v.Pictures fs)
    (hkeeps : v.Keeps world o) : v.openContent world linked id = .ok data := by
  unfold NamespaceView.openContent
  cases h with
  | linked hn hkind hdata => exact hv.content_eq_ok.mpr hdata
  | orphan hnone hn hdata => exact hkeeps (.orphanContent world id) data rfl hdata

theorem contains (h : FileAt fs o id linked n data) (hv : v.Pictures fs) :
    v.contains (inodeKey id) = .ok linked := by
  cases h with
  | linked hn => rw [hv.linked, hn, Option.isSome_some]
  | orphan hnone => rw [hv.linked, hnone, Option.isSome_none]

/-- A read through a descriptor. -/
theorem readHandle {h : OpenHandle} (hfile : FileAt fs o h.inode linked n data)
    (hsound : Sound linked n data) (hv : v.Pictures fs) (hkeeps : v.Keeps world o) {revision : Bool}
    (hlinked : linked = true ∨ revision = false) (offset count : ℕ) :
    v.readHandle world revision h offset count = .ok (slice data offset count) := by
  rw [NamespaceView.readHandle, hfile.contains hv, ok_bind, need_of hlinked, ok_bind,
    hfile.openInode hsound hv hkeeps, ok_bind]
  change (v.openContent world linked h.inode >>= _) = _
  rw [hfile.openContent hv hkeeps, ok_bind, need_of hsound.length, ok_bind]
  rfl

end FileAt

end Reads

section Writes

variable {fs : Filesystem} {o : Orphans} {v : NamespaceView} {world : Bytes} {id : InodeId}
  {linked : Bool} {n : InodeInfo} {data : Bytes} {opened : InodeId → Bool} {env : Env}

/-- The effect of a content edit on an open file. -/
def openEffect (now : UInt64) (linked : Bool) (world : Bytes) (id : InodeId) (n : InodeInfo)
    (data : Bytes) (edit : ContentEdit) : Except String (Effect ℕ) := do
  match ← edit data with
  | none => return ⟨[], none, data.length⟩
  | some value =>
    need (value.length ≤ 256 * 1024) "prototype files are limited to 256 KiB"
    return ⟨[.openInode linked world id ({ n with size := value.length }.touch now),
      .openContent linked world id value], none, data.length⟩

/-- With entries it is the effect of an edit by path. -/
theorem openEffect_true (now : UInt64) (edit : ContentEdit) :
    openEffect now true world id n data edit = editEffect now id n data edit := rfl

/-- The effect of new attributes on an open file. -/
def openAttributes (clock : ℕ → UInt64) (linked : Bool) (world : Bytes) (id : InodeId)
    (n : InodeInfo) (data : Bytes) (a : Attributes) : Except String (Effect Unit) :=
  if a.idle n then return ⟨[], none, ()⟩
  else do
    let (n, data) ← n.update a clock (.ok data)
    return ⟨(data.toList.map fun data => .openContent linked world id data) ++
      [.openInode linked world id n], none, ()⟩

theorem openAttributes_true (clock : ℕ → UInt64) (a : Attributes) :
    openAttributes clock true world id n data a = attributesEffect clock id n (.ok data) a := rfl

namespace FileAt

/-- A content edit through a descriptor. -/
theorem editHandle {h : OpenHandle} (hfile : FileAt fs o h.inode linked n data)
    (hsound : Sound linked n data) (hv : v.Pictures fs) (hkeeps : v.Keeps world o)
    (hwritable : h.writable = true) (edit : ContentEdit) :
    v.editHandle env world h edit =
      openEffect (env.clock 0) linked world h.inode n data edit := by
  rw [NamespaceView.editHandle, need_of hwritable, ok_bind, hfile.openInode hsound hv hkeeps,
    ok_bind]
  change (v.openContent world linked h.inode >>= _) = _
  rw [hfile.openContent hv hkeeps, ok_bind, need_of hsound.length, ok_bind]
  rfl

/-- New attributes through a descriptor. -/
theorem handleSetAttributes {h : OpenHandle} (hfile : FileAt fs o h.inode linked n data)
    (hsound : Sound linked n data) (hv : v.Pictures fs) (hkeeps : v.Keeps world o)
    {a : Attributes} (hwritable : a.size = none ∨ h.writable = true) :
    v.handleSetAttributes env world h a =
      openAttributes env.clock linked world h.inode n data a := by
  rw [NamespaceView.handleSetAttributes, hfile.openInode hsound hv hkeeps, ok_bind]
  change (need (a.size = none ∨ h.writable = true) _ >>= _) = _
  rw [need_of hwritable, ok_bind, hfile.openContent hv hkeeps]
  rfl

end FileAt

end Writes

section Opening

open Filesystem

variable {v : NamespaceView} {fs : Filesystem} {env : Env} {path : Bytes} {options : OpenOptions}
  {opening : Opening}

/-- The path of `open` leads to a file that exists. -/
structure Opening.Finds (opening : Opening) (fs : Filesystem) (path : Bytes)
    (options : OpenOptions) : Prop where
  /-- A final link is followed, unless there is to be none. -/
  leads : fs.Leads (options.create || !options.nofollow) path opening.id
  /-- Nothing is created. -/
  created : opening.effect.created = none

/-- The file of `open` is created. -/
structure Opening.Creates (opening : Opening) (fs : Filesystem) (env : Env) (path : Bytes)
    (options : OpenOptions) : Prop where
  /-- This was asked for. -/
  create : options.create = true
  /-- The identity is new. -/
  fresh : fs.inode opening.id = none ∧ fs.allocated opening.id = false
  /-- It is drawn for the call. -/
  created : opening.effect.created = some opening.id
  /-- The file is created where the path ends. -/
  applied : ∃ p pn, fs.Missing path p ∧ fs.inode p.id = some pn ∧ fs.applyAll opening.effect.edits =
    fs.created p opening.id ⟨.file, options.mode, 1, 0, env.clock 0, env.clock 1⟩ (some [])
      (pn.touch (env.clock 2))
  /-- The orphans stay. -/
  plain : ∀ w (o : Orphans), o.applyAll w opening.effect.edits = o
  /-- There are edits. -/
  edits : opening.effect.edits ≠ []

/-- What `open` finds or plans to create. -/
theorem NamespaceView.Pictures.openTarget_eq_ok (hv : v.Pictures fs) (hfs : fs.Consistent)
    (h : v.openTarget env path options = .ok opening) :
    (options.create = true → ∃ p, fs.Names path p ∧
      (options.exclusive = true → fs.entry (p.id, p.name) = none)) ∧
    (opening.Finds fs path options ∧ opening.effect.edits = [] ∨
      opening.Creates fs env path options) := by
  have hfinds (id : InodeId) (hleads : fs.Leads (options.create || !options.nofollow) path id)
      (h : (.ok ⟨id, env.draws, [], none, ()⟩ : Except String Opening) = .ok opening) :
      opening.Finds fs path options ∧ opening.effect.edits = [] := by
    cases h
    exact ⟨⟨hleads, rfl⟩, rfl⟩
  have hcreates (p : Parent) (hcreate : options.create = true) (hmissing : fs.Missing path p)
      (h : (v.createAt env p .file options.mode [] (env.clock 0) (env.clock 1) >>= fun r =>
        pure ⟨r.1, r.2.1, r.2.2, some r.1, ()⟩) = Except.ok opening) :
      opening.Creates fs env path options := by
    obtain ⟨⟨id, draws, edits⟩, hnew, h⟩ := bind_eq_ok.mp h
    cases h
    obtain ⟨hnone, hallocated, pn, hpn, happly, hplain⟩ := hv.createAt_eq_ok hnew
    refine ⟨hcreate, ⟨hnone, hallocated⟩, rfl, ⟨p, pn, hmissing, hpn, happly fs⟩, hplain, ?_⟩
    rintro (hnil : edits = [])
    have hmarked : (fs.applyAll edits).allocated id = true := by
      rw [happly fs]
      exact Function.update_self _ _ _
    rw [hnil, applyAll_nil, hallocated] at hmarked
    cases hmarked
  unfold NamespaceView.openTarget at h
  split at h
  · rename_i hcreate
    rw [hcreate, Bool.true_or] at hfinds
    obtain ⟨⟨p, ancestry⟩, hp, h⟩ := bind_eq_ok.mp h
    obtain ⟨hnames, -⟩ := hv.parent_eq_ok hfs hp
    obtain ⟨taken, htaken, h⟩ := bind_eq_ok.mp h
    obtain ⟨hexclusive, h⟩ := need_bind_eq_ok.mp h
    cases taken with
    | false =>
      have hfree := hv.contains_eq_false.mp htaken
      exact ⟨fun _ => ⟨p, hnames, fun _ => hfree⟩, .inr (hcreates p hcreate (hnames.missing hfree) h)⟩
    | true =>
      refine ⟨fun _ => ⟨p, hnames, fun hexcl => absurd ⟨rfl, hexcl⟩ hexclusive⟩, ?_⟩
      obtain ⟨raw, hraw, h⟩ := bind_eq_ok.mp h
      obtain ⟨n, hn, h⟩ := bind_eq_ok.mp h
      obtain ⟨-, h⟩ := need_bind_eq_ok.mp h
      obtain ⟨dest, hdest, h⟩ := bind_eq_ok.mp h
      cases dest with
      | found id above => exact .inl (hfinds id (hv.resolveOrMissing_found hfs hdest) h)
      | missing p' => exact .inr (hcreates p' hcreate (hv.resolveOrMissing_missing hfs hdest) h)
  · rename_i hcreate
    rw [Bool.eq_false_of_not_eq_true hcreate, Bool.false_or] at hfinds
    refine ⟨fun htrue => absurd htrue hcreate, .inl ?_⟩
    obtain ⟨id, hid, h⟩ := bind_eq_ok.mp h
    rw [hv.resolve_eq_ok hfs] at hid
    split at h
    · obtain ⟨n, -, h⟩ := bind_eq_ok.mp h
      obtain ⟨-, h⟩ := need_bind_eq_ok.mp h
      exact hfinds id hid h
    · exact hfinds id hid h

/-- What `open` does to the file that it finds or creates. -/
theorem NamespaceView.Pictures.openFile_eq_ok (hv : v.Pictures fs) (hfs : fs.Consistent)
    (h : v.openFile env path options = .ok opening) :
    (options.create = true → ∃ p, fs.Names path p ∧
      (options.exclusive = true → fs.entry (p.id, p.name) = none)) ∧
    ((opening.Finds fs path options ∧ ∃ n, fs.inode opening.id = some n ∧ n.kind = .file ∧
      opening.effect.edits = if options.truncate = true ∧ n.size ≠ 0 then
        [.inode opening.id (some ({ n with size := 0 }.touch (env.clock 3))),
          .content opening.id (some [])] else []) ∨
      opening.Creates fs env path options) := by
  obtain ⟨found, htarget, h⟩ := bind_eq_ok.mp h
  obtain ⟨hnames, hcase⟩ := hv.openTarget_eq_ok hfs htarget
  refine ⟨hnames, ?_⟩
  rcases hcase with ⟨hfinds, hnil⟩ | hcreates
  · rw [if_pos hnil] at h
    obtain ⟨n, hn, h⟩ := bind_eq_ok.mp h
    obtain ⟨hkind, h⟩ := need_bind_eq_ok.mp h
    rw [hv.inode_eq_ok] at hn
    split at h
    · rename_i htruncate
      cases h
      exact .inl ⟨⟨hfinds.leads, hfinds.created⟩, n, hn, hkind, by rw [if_pos htruncate]⟩
    · rename_i hkeep
      cases h
      exact .inl ⟨hfinds, n, hn, hkind, by rw [if_neg hkeep, hnil]⟩
  · rw [if_neg hcreates.edits] at h
    cases h
    exact .inr hcreates

end Opening

end ForkFs
