import ForkFs.Namespace.Consistency
import ForkFs.Namespace.Lookups

/-!
# What operations do to file systems

For every operation, what a call that succeeds has found and how its edits change the file system
of the view. The edits keep it consistent.
-/

namespace ForkFs

open Bytes Outcome

namespace Filesystem

variable {fs : Filesystem} {id x : InodeId} {n : InodeInfo} {a : InodeId × Bytes} {kind : Kind}

theorem Consistent.isDirectory_of_entry (h : fs.Consistent) (hentry : fs.entry a = some id) :
    ∃ pn, fs.inode a.1 = some pn ∧ pn.kind = .directory :=
  h.tree.source a id hentry

/-- Nothing is below what is not a directory. -/
theorem Consistent.entry_eq_none (h : fs.Consistent) (hid : ¬ fs.IsDirectory id) (name : Bytes) :
    fs.entry (id, name) = none := by
  cases hentry : fs.entry (id, name) with
  | none => rfl
  | some c => exact absurd (h.tree.source _ _ hentry) hid

theorem Consistent.not_isDirectory (hn : fs.inode id = some n) (hkind : n.kind ≠ .directory) :
    ¬ fs.IsDirectory id := by
  rintro ⟨m, hm, hmkind⟩
  rw [hn] at hm
  cases hm
  exact hkind hmkind

/-- An identity without an inode has no links. -/
theorem Consistent.linkCount_absent (h : fs.Consistent) (hid : fs.inode id = none) :
    fs.linkCount id kind = if kind = .directory then 2 else 0 := by
  have hnone : fs.subdirectories id = ∅ := by
    refine Set.eq_empty_of_forall_notMem ?_
    rintro ⟨d, name⟩ ⟨rfl, c, hc, -⟩
    obtain ⟨m, hm, -⟩ := h.tree.source _ _ hc
    rw [hid] at hm
    cases hm
  have hunnamed : fs.namings id = ∅ := by
    refine Set.eq_empty_of_forall_notMem fun q hq => ?_
    obtain ⟨m, hm⟩ := h.exists_inode hq
    rw [hid] at hm
    cases hm
  rw [linkCount, hnone, hunnamed, Set.ncard_empty]

/-- An entry is the last one of a directory, or of an inode with one link. -/
theorem Consistent.last_iff (h : fs.Consistent) (hn : fs.inode id = some n)
    (ha : fs.entry a = some id) :
    n.kind = .directory ∨ n.links = 1 ↔ ∀ q, fs.entry q = some id → q = a := by
  by_cases hkind : n.kind = .directory
  · exact iff_of_true (.inl hkind) fun q hq => h.tree.single q a id hq ha ⟨n, hn, hkind⟩
  have hlinks := (h.inode id n hn).links
  rw [linkCount, if_neg hkind] at hlinks
  constructor
  · rintro (hdirectory | hone)
    · exact absurd hdirectory hkind
    · rw [hone] at hlinks
      obtain ⟨b, hb⟩ := Set.ncard_eq_one.mp hlinks.symm
      have hab : a ∈ fs.namings id := ha
      intro q hq
      have hqb : q ∈ fs.namings id := hq
      rw [hb] at hab hqb
      exact (Set.mem_singleton_iff.mp hqb).trans (Set.mem_singleton_iff.mp hab).symm
  · intro hall
    refine .inr ?_
    have hsingle : fs.namings id = {a} := by
      ext q
      exact ⟨fun hq => hall q hq, fun hq => by rw [Set.mem_singleton_iff.mp hq]; exact ha⟩
    rw [hlinks, hsingle, Set.ncard_singleton]

end Filesystem

section Creation

/-- Times do not matter. -/
theorem InodeInfo.Valid.touch {n : InodeInfo} (h : n.Valid false) (now : UInt64) :
    (n.touch now).Valid false :=
  ⟨h.mode, h.links, h.size, h.state⟩

/-- Another link count. -/
theorem InodeInfo.Valid.relink {n : InodeInfo} {links : ℕ} (h : n.Valid false) (htwo : 2 ≤ links)
    (hlinks : links < 2 ^ 64) (now : UInt64) :
    ({ n with links := links }.touch now).Valid false := by
  refine ⟨h.mode, hlinks, h.size, ?_, fun hkind => ⟨htwo, (h.state.2 hkind).2⟩⟩
  exact Nat.lt_of_lt_of_le Nat.two_pos htwo

/-- A file system with a new entry. -/
def Filesystem.created (fs : Filesystem) (p : Parent) (id : InodeId) (n : InodeInfo)
    (data : Option Bytes) (pn : InodeInfo) : Filesystem :=
  { fs with
    inode := Function.update (Function.update fs.inode id (some n)) p.id (some pn)
    content := Function.update fs.content id data
    entry := Function.update fs.entry (p.id, p.name) (some id)
    allocated := Function.update fs.allocated id true }

namespace NamespaceView.Pictures

open Filesystem

variable {v : NamespaceView} {fs : Filesystem} {env : Env} {p : Parent} {kind : Kind} {mode : ℕ}
  {data path : Bytes} {modified changed : UInt64} {id : InodeId} {draws : List InodeId}
  {edits : List Edit}

/-- What a creation finds and edits. -/
theorem createAt_eq_ok (hv : v.Pictures fs)
    (h : v.createAt env p kind mode data modified changed = .ok (id, draws, edits)) :
    fs.inode id = none ∧ fs.allocated id = false ∧ ∃ pn, fs.inode p.id = some pn ∧
      (∀ fs₁ : Filesystem, fs₁.applyAll edits =
        fs₁.created p id ⟨kind, mode, 1, data.length, modified, changed⟩ (some data)
          (pn.touch (env.clock 2))) ∧ ∀ world (o : Orphans), o.applyAll world edits = o := by
  obtain ⟨⟨id', draws'⟩, hid, h⟩ := bind_eq_ok.mp h
  obtain ⟨pn, hpn, h⟩ := bind_eq_ok.mp h
  cases h
  obtain ⟨hnone, hallocated⟩ := hv.fresh_of_newId hid
  exact ⟨hnone, hallocated, pn, hv.inode_eq_ok.mp hpn, fun fs₁ => rfl, fun _ _ => rfl⟩

/-- A write replaces the content of the file that the path leads to, or creates a file. -/
theorem write_eq_ok (hv : v.Pictures fs) (hfs : fs.Consistent) {e : Effect Unit}
    (h : v.write env path data = .ok e) :
    (∃ id n, fs.Leads true path id ∧ fs.inode id = some n ∧ n.kind = .file ∧ e.created = none ∧
      e.edits = [.inode id (some ({ n with size := data.length }.touch (env.clock 0))),
        .content id (some data)]) ∨
    ∃ p id pn, fs.Missing path p ∧ fs.inode id = none ∧ fs.allocated id = false ∧
      fs.inode p.id = some pn ∧ e.created = some id ∧ (fs.applyAll e.edits =
        fs.created p id ⟨.file, 0o644, 1, data.length, env.clock 0, env.clock 0⟩ (some data)
          (pn.touch (env.clock 2))) ∧ ∀ world (o : Orphans), o.applyAll world e.edits = o := by
  have hfound (id : InodeId) (hleads : fs.Leads true path id)
      (h : (do
        let n ← v.inode id
        need (n.kind = .file) "cannot write non-regular file"
        return ⟨[.inode id (some ({ n with size := data.length }.touch (env.clock 0))),
          .content id (some data)], none, ()⟩) = Except.ok e) :
      ∃ id n, fs.Leads true path id ∧ fs.inode id = some n ∧ n.kind = .file ∧ e.created = none ∧
        e.edits = [.inode id (some ({ n with size := data.length }.touch (env.clock 0))),
          .content id (some data)] := by
    obtain ⟨n, hn, h⟩ := bind_eq_ok.mp h
    obtain ⟨hkind, h⟩ := need_bind_eq_ok.mp h
    cases h
    exact ⟨id, n, hleads, hv.inode_eq_ok.mp hn, hkind, rfl, rfl⟩
  have hmissing (p : Parent) (hmissing : fs.Missing path p)
      (h : (v.createAt env p .file 0o644 data (env.clock 0) (env.clock 0) >>= fun r =>
        pure ⟨r.2.2, some r.1, ()⟩) = Except.ok e) :
      ∃ p id pn, fs.Missing path p ∧ fs.inode id = none ∧ fs.allocated id = false ∧
        fs.inode p.id = some pn ∧ e.created = some id ∧ (fs.applyAll e.edits =
          fs.created p id ⟨.file, 0o644, 1, data.length, env.clock 0, env.clock 0⟩ (some data)
            (pn.touch (env.clock 2))) ∧ ∀ world (o : Orphans), o.applyAll world e.edits = o := by
    obtain ⟨⟨id, draws, edits⟩, hcreate, h⟩ := bind_eq_ok.mp h
    cases h
    obtain ⟨hnone, hallocated, pn, hpn, happly, hplain⟩ := hv.createAt_eq_ok hcreate
    exact ⟨p, id, pn, hmissing, hnone, hallocated, hpn, rfl, happly fs, hplain⟩
  unfold NamespaceView.write at h
  obtain ⟨⟨p, ancestry⟩, hp, h⟩ := bind_eq_ok.mp h
  obtain ⟨hnames, -⟩ := hv.parent_eq_ok hfs hp
  obtain ⟨taken, htaken, h⟩ := bind_eq_ok.mp h
  cases taken with
  | false => exact .inr (hmissing p (hnames.missing (hv.contains_eq_false.mp htaken)) h)
  | true =>
    obtain ⟨id, hid, h⟩ := bind_eq_ok.mp h
    obtain ⟨n, hn, h⟩ := bind_eq_ok.mp h
    split at h
    · obtain ⟨dest, hdest, h⟩ := bind_eq_ok.mp h
      cases dest with
      | found id' above => exact .inl (hfound id' (hv.resolveOrMissing_found hfs hdest) h)
      | missing p' => exact .inr (hmissing p' (hv.resolveOrMissing_missing hfs hdest) h)
    · rename_i hkind
      exact .inl (hfound id (hnames.leads (hv.child_eq_ok.mp hid) (hv.inode_eq_ok.mp hn)
        fun hlink => absurd hlink hkind) h)

end NamespaceView.Pictures

/-- A new file or symbolic link keeps a file system consistent. -/
theorem Filesystem.Consistent.created_leaf {fs : Filesystem} {p : Parent} {id : InodeId}
    {n pn : InodeInfo} {data : Bytes} {now : UInt64} (h : fs.Consistent) (hid : fs.inode id = none)
    (hpn : fs.inode p.id = some pn) (hdirectory : pn.kind = .directory)
    (hfree : fs.entry (p.id, p.name) = none) (hname : EntryName p.name)
    (hkind : n.kind ≠ .directory) (hmode : n.mode ≤ 0o777) (hlinks : n.links = 1)
    (hsize : n.size < 2 ^ 64) (hholds : n.Holds (some data)) :
    (fs.created p id n (some data) (pn.touch now)).Consistent := by
  refine h.bind (a := (p.id, p.name)) (n := n) hpn hdirectory hfree hname
    (fun hkind' => absurd hkind' hkind) (fun m hm => ?_) ⟨hmode, ?_, hsize, ?_, ?_⟩ hholds ?_
    ((h.inode p.id pn hpn).valid.touch now) hdirectory ?_ rfl
  · rw [hid] at hm
    cases hm
  · rw [hlinks]
    decide
  · rw [hlinks]
    exact Nat.one_pos
  · exact fun hkind' => absurd hkind' hkind
  · rw [h.linkCount_absent hid, if_neg hkind, if_neg hkind, hlinks]
  · rw [if_neg hkind]
    rfl

end Creation

section Content

/-- A file system with new attributes and content of an inode. -/
def Filesystem.rewritten (fs : Filesystem) (id : InodeId) (n : InodeInfo) (data : Option Bytes) :
    Filesystem :=
  { fs with
    inode := Function.update fs.inode id (some n)
    content := Function.update fs.content id data }

/-- The effect of a content edit on a file. -/
def editEffect (now : UInt64) (id : InodeId) (n : InodeInfo) (data : Bytes) (edit : ContentEdit) :
    Except String (Effect ℕ) := do
  match ← edit data with
  | none => return ⟨[], none, data.length⟩
  | some value =>
    need (value.length ≤ 256 * 1024) "prototype files are limited to 256 KiB"
    return ⟨[.inode id (some ({ n with size := value.length }.touch now)), .content id (some value)],
      none, data.length⟩

/-- The effect of new attributes on an inode. -/
def attributesEffect (clock : ℕ → UInt64) (id : InodeId) (n : InodeInfo)
    (content : Except String Bytes) (a : Attributes) : Except String (Effect Unit) :=
  if a.idle n then return ⟨[], none, ()⟩
  else do
    let (n, data) ← n.update a clock content
    return ⟨(data.toList.map fun data => .content id (some data)) ++ [.inode id (some n)], none, ()⟩

theorem length_resize (data : Bytes) (size : ℕ) : (resize data size).length = size := by
  simp only [resize, List.length_append, List.length_take, List.length_replicate]
  omega

/-- New attributes change the mode and the size that are given, and the content with the size. -/
theorem InodeInfo.update_eq_ok {n n' : InodeInfo} {a : Attributes} {clock : ℕ → UInt64}
    {content : Except String Bytes} {o : Option Bytes} (h : n.update a clock content = .ok (n', o)) :
    n'.kind = n.kind ∧ n'.links = n.links ∧ n'.mode = a.mode.getD n.mode ∧
      n'.size = a.size.getD n.size ∧
      (o = none ∧ n'.size = n.size ∨ ∃ data size, a.size = some size ∧ content = .ok data ∧
        data.length = n.size ∧ n.size ≠ size ∧ o = some (resize data size)) := by
  unfold InodeInfo.update at h
  split at h
  · rename_i hsize
    cases h
    rw [hsize]
    exact ⟨rfl, rfl, rfl, rfl, .inl ⟨rfl, rfl⟩⟩
  · rename_i size hsize
    obtain ⟨data, hdata, h⟩ := bind_eq_ok.mp h
    obtain ⟨hlength, h⟩ := need_bind_eq_ok.mp h
    rw [hsize]
    split at h
    · rename_i hne
      cases h
      exact ⟨rfl, rfl, rfl, rfl, .inr ⟨data, size, rfl, hdata, hlength, hne, rfl⟩⟩
    · rename_i heq
      cases h
      exact ⟨rfl, rfl, rfl, not_not.mp heq, .inl ⟨rfl, rfl⟩⟩

theorem checkAttributes_eq_ok {a : Attributes} (h : checkAttributes a = .ok ()) :
    (∀ mode ∈ a.mode, mode ≤ 0o777) ∧ ∀ size ∈ a.size, size ≤ 256 * 1024 := by
  obtain ⟨hmode, h⟩ := need_bind_eq_ok.mp h
  obtain ⟨hsize, -⟩ := need_bind_eq_ok.mp h
  exact ⟨hmode, hsize⟩

namespace Filesystem

variable {fs : Filesystem} {id : InodeId} {n n' : InodeInfo} {data value : Bytes}

/-- The content of a file. -/
theorem Consistent.content_of_file (h : fs.Consistent) (hn : fs.inode id = some n)
    (hkind : n.kind = .file) :
    ∃ data, fs.content id = some data ∧ data.length = n.size ∧ n.size ≤ 256 * 1024 := by
  have hholds := (h.inode id n hn).content
  rw [InodeInfo.Holds, hkind] at hholds
  exact hholds

/-- A file with new content stays consistent. -/
theorem Consistent.rewritten_file (h : fs.Consistent) (hn : fs.inode id = some n)
    (hkind : n.kind = .file) (hkind' : n'.kind = .file) (hlinks : n'.links = n.links)
    (hmode : n'.mode ≤ 0o777) (hsize : value.length = n'.size) (hlimit : n'.size ≤ 256 * 1024) :
    (fs.rewritten id n' (some value)).Consistent := by
  have hvalid := (h.inode id n hn).valid
  refine h.rewrite hn (hkind'.trans hkind.symm) hlinks ⟨hmode, ?_, by omega, ?_, ?_⟩ ?_ rfl
  · rw [hlinks]
    exact hvalid.links
  · have hpos := hvalid.state.1
    rw [if_neg Bool.false_ne_true] at hpos ⊢
    rw [hlinks]
    exact hpos
  · rw [hkind']
    exact nofun
  · rw [InodeInfo.Holds, hkind']
    exact ⟨value, rfl, hsize, hlimit⟩

/-- A content edit keeps a file system consistent. -/
theorem Consistent.editEffect (h : fs.Consistent) (hn : fs.inode id = some n)
    (hkind : n.kind = .file) {now : UInt64} {edit : ContentEdit} {e : Effect ℕ}
    (he : editEffect now id n data edit = .ok e) : (fs.applyAll e.edits).Consistent := by
  obtain ⟨o, -, he⟩ := bind_eq_ok.mp he
  cases o with
  | none =>
    cases he
    exact h
  | some value =>
    obtain ⟨hlimit, he⟩ := need_bind_eq_ok.mp he
    cases he
    exact h.rewritten_file hn hkind hkind rfl (h.inode id n hn).valid.mode rfl hlimit

/-- An inode with other times and permissions stays consistent. -/
theorem Consistent.rewritten_inode (h : fs.Consistent) (hn : fs.inode id = some n)
    (hkind : n'.kind = n.kind) (hlinks : n'.links = n.links) (hsize : n'.size = n.size)
    (hmode : n'.mode ≤ 0o777) : (fs.rewritten id n' (fs.content id)).Consistent := by
  obtain ⟨hvalid, -, hcontent, -⟩ := h.inode id n hn
  refine h.rewrite hn hkind hlinks ⟨hmode, ?_, ?_, ?_⟩ (hcontent.congr hkind hsize) rfl
  · rw [hlinks]
    exact hvalid.links
  · rw [hsize]
    exact hvalid.size
  · have hstate := hvalid.state
    unfold InodeInfo.State at hstate ⊢
    rw [hkind, hlinks, hsize]
    exact hstate

theorem rewritten_content (fs : Filesystem) (id : InodeId) (n : InodeInfo) :
    fs.rewritten id n (fs.content id) = fs.apply (.inode id (some n)) := by
  rw [rewritten, Function.update_eq_self]
  rfl

/-- New attributes keep a file system consistent. Only files get a new size. -/
theorem Consistent.attributesEffect (h : fs.Consistent) (hn : fs.inode id = some n)
    {a : Attributes} (hfile : a.size = none ∨ n.kind = .file) (ha : checkAttributes a = .ok ())
    {clock : ℕ → UInt64} {e : Effect Unit}
    (he : attributesEffect clock id n (found (fs.content id)) a = .ok e) :
    (fs.applyAll e.edits).Consistent := by
  unfold ForkFs.attributesEffect at he
  split at he
  · cases he
    exact h
  obtain ⟨⟨n', o⟩, hupdate, he⟩ := bind_eq_ok.mp he
  cases he
  obtain ⟨hkind, hlinks, hmode, hsize, hcontent⟩ := InodeInfo.update_eq_ok hupdate
  obtain ⟨hmodes, hsizes⟩ := checkAttributes_eq_ok ha
  have hmode' : n'.mode ≤ 0o777 := by
    rw [hmode]
    cases hgiven : a.mode with
    | none => exact (h.inode id n hn).valid.mode
    | some mode => exact hmodes mode hgiven
  rcases hcontent with ⟨rfl, hsame⟩ | ⟨data, size, hgiven, -, -, -, rfl⟩
  · have hrewritten := h.rewritten_inode hn hkind hlinks hsame hmode'
    rw [rewritten_content] at hrewritten
    exact hrewritten
  · have hkindfile : n.kind = .file := hfile.resolve_left fun hnone => by
      rw [hnone] at hgiven
      cases hgiven
    rw [hgiven, Option.getD_some] at hsize
    refine h.rewritten_file hn hkindfile (hkind.trans hkindfile) hlinks hmode' ?_ ?_
    · rw [length_resize, hsize]
    · rw [hsize]
      exact hsizes size hgiven

end Filesystem

namespace NamespaceView.Pictures

open Filesystem

variable {v : NamespaceView} {fs : Filesystem} {env : Env} {path data : Bytes} {id : InodeId}
  {n : InodeInfo}

/-- A content edit by path is one of the file that the path leads to. -/
theorem editContent_eq (hv : v.Pictures fs) (hfs : fs.Consistent) (hleads : fs.Leads true path id)
    (hn : fs.inode id = some n) (hkind : n.kind = .file) (hdata : fs.content id = some data)
    (edit : ContentEdit) :
    v.editContent env path edit = editEffect (env.clock 0) id n data edit := by
  have hsize : data.length = n.size := by
    obtain ⟨data', hdata', hsize, -⟩ := hfs.content_of_file hn hkind
    rwa [Option.some.inj (hdata.symm.trans hdata')]
  have hnot : n.kind ≠ .directory := by simp [hkind]
  rw [NamespaceView.editContent, (hv.resolve_eq_ok hfs).mpr hleads, ok_bind, hv.inode_eq_ok.mpr hn,
    ok_bind, need_of hnot, ok_bind, hv.content_eq_ok.mpr hdata, ok_bind, need_of hsize, ok_bind]
  rfl

theorem editContent_eq_ok (hv : v.Pictures fs) (hfs : fs.Consistent) {edit : ContentEdit}
    {e : Effect ℕ} (h : v.editContent env path edit = .ok e) :
    ∃ id n data, fs.Leads true path id ∧ fs.inode id = some n ∧ n.kind = .file ∧
      fs.content id = some data ∧ editEffect (env.clock 0) id n data edit = .ok e := by
  have hcopy := h
  obtain ⟨id, hid, h⟩ := bind_eq_ok.mp h
  obtain ⟨n, hn, h⟩ := bind_eq_ok.mp h
  obtain ⟨hkind, -⟩ := need_bind_eq_ok.mp h
  rw [hv.resolve_eq_ok hfs] at hid
  rw [hv.inode_eq_ok] at hn
  have hfile : n.kind = .file := by
    have hlink := hid.not_symlink hfs hn
    cases hn' : n.kind with
    | file => rfl
    | directory => exact absurd hn' hkind
    | symlink => exact absurd hn' hlink
  obtain ⟨data, hdata, -, -⟩ := hfs.content_of_file hn hfile
  refine ⟨id, n, data, hid, hn, hfile, hdata, ?_⟩
  rw [← hcopy, hv.editContent_eq hfs hid hn hfile hdata]

/-- New attributes by path are those of the inode that the path leads to. -/
theorem setAttributes_eq (hv : v.Pictures fs) (hfs : fs.Consistent) (hleads : fs.Leads true path id)
    (hn : fs.inode id = some n) {a : Attributes} (hfile : a.size = none ∨ n.kind = .file) :
    v.setAttributes env path a = attributesEffect env.clock id n (found (fs.content id)) a := by
  rw [NamespaceView.setAttributes, (hv.resolve_eq_ok hfs).mpr hleads, ok_bind,
    hv.inode_eq_ok.mpr hn, ok_bind, need_of hfile, ok_bind, hv.content]
  rfl

theorem setAttributes_eq_ok (hv : v.Pictures fs) (hfs : fs.Consistent) {a : Attributes}
    {e : Effect Unit} (h : v.setAttributes env path a = .ok e) :
    ∃ id n, fs.Leads true path id ∧ fs.inode id = some n ∧
      (e.edits = [] ∨ (a.size = none ∨ n.kind = .file) ∧
        attributesEffect env.clock id n (found (fs.content id)) a = .ok e) := by
  have hcopy := h
  obtain ⟨id, hid, h⟩ := bind_eq_ok.mp h
  obtain ⟨n, hn, h⟩ := bind_eq_ok.mp h
  rw [hv.resolve_eq_ok hfs] at hid
  rw [hv.inode_eq_ok] at hn
  refine ⟨id, n, hid, hn, ?_⟩
  split at h
  · cases h
    exact .inl rfl
  · obtain ⟨hfile, -⟩ := need_bind_eq_ok.mp h
    rw [hv.setAttributes_eq hfs hid hn hfile] at hcopy
    exact .inr ⟨hfile, hcopy⟩

end NamespaceView.Pictures

end Content

end ForkFs
