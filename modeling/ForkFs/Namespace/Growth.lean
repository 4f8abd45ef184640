import ForkFs.Namespace.Outcomes
import ForkFs.Namespace.Reads

/-!
# Paths in a growing file system

An entry under a free name and a new content of a file take no path away: what a path led to, it leads
to still. A path where a file was missing leads to the file that is created there, however many links
there are on the way.
-/

namespace ForkFs

open Bytes Outcome

namespace Filesystem

variable {fs fs' : Filesystem} {followFinal create follow : Bool} {r d id x : InodeId}
  {n pn pn' : InodeInfo} {names : List Bytes} {path value : Bytes} {target : Target}
  {links expanded : ℕ} {p : Parent}

/-- One file system has the entries of another one, and its inodes and contents but for those of one
file. -/
structure Grows (fs fs' : Filesystem) (id : InodeId) : Prop where
  root : fs'.root = fs.root
  entry : ∀ p c, fs.entry p = some c → fs'.entry p = some c
  /-- The other inodes keep their type and size, and their content. -/
  others : ∀ x n, x ≠ id → fs.inode x = some n → fs'.content x = fs.content x ∧
    ∃ n', fs'.inode x = some n' ∧ n'.kind = n.kind ∧ n'.size = n.size
  /-- The file is a file. -/
  file : ∀ n, fs.inode id = some n → n.kind = .file ∧ ∃ n', fs'.inode id = some n' ∧ n'.kind = .file

theorem Grows.kind (h : fs.Grows fs' id) (hn : fs.inode x = some n) :
    ∃ n', fs'.inode x = some n' ∧ n'.kind = n.kind := by
  by_cases hx : x = id
  · subst hx
    obtain ⟨hkind, n', hn', hkind'⟩ := h.file n hn
    exact ⟨n', hn', hkind'.trans hkind.symm⟩
  · obtain ⟨-, n', hn', hkind, -⟩ := h.others x n hx hn
    exact ⟨n', hn', hkind⟩

theorem Grows.link (h : fs.Grows fs' id) (hn : fs.inode x = some n) (hlink : n.kind = .symlink) :
    fs'.content x = fs.content x := by
  refine (h.others x n ?_ hn).1
  rintro rfl
  cases (h.file n hn).1.symm.trans hlink

theorem Grows.isDirectory (h : fs.Grows fs' id) (hd : fs.IsDirectory d) : fs'.IsDirectory d := by
  obtain ⟨n, hn, hkind⟩ := hd
  obtain ⟨n', hn', hsame⟩ := h.kind hn
  exact ⟨n', hn', hsame.trans hkind⟩

theorem Grows.isParent (h : fs.Grows fs' id) {up : InodeId} (hup : fs.IsParent d up) :
    fs'.IsParent d up := by
  rcases hup with ⟨name, hentry⟩ | ⟨hr, rfl⟩
  · exact .inl ⟨name, h.entry _ _ hentry⟩
  · exact .inr ⟨h.root.trans hr, rfl⟩

/-- What is found is found still. -/
theorem Resolves.mono (h : fs.Resolves followFinal create r links expanded d names target)
    (hgrows : fs.Grows fs' id) (ht : target = .inode x) :
    fs'.Resolves followFinal create r links expanded d names target := by
  induction h with
  | done => exact .done
  | stay hdirectory _ ih => exact .stay (hgrows.isDirectory hdirectory) (ih ht)
  | up hdirectory hparent _ ih =>
    exact .up (hgrows.isDirectory hdirectory) (hgrows.isParent hparent) (ih ht)
  | down hdirectory hname hentry hn hstop _ ih =>
    obtain ⟨n', hn', hkind⟩ := hgrows.kind hn
    refine .down (hgrows.isDirectory hdirectory) hname (hgrows.entry _ _ hentry) hn' ?_ (ih ht)
    rwa [hkind]
  | follow hdirectory hname hentry hn hlink hfollow hlinks hcontent hbytes _ ih =>
    obtain ⟨n', hn', hkind⟩ := hgrows.kind hn
    have hcontent' := (hgrows.link hn hlink).trans hcontent
    exact .follow (hgrows.isDirectory hdirectory) hname (hgrows.entry _ _ hentry) hn'
      (hkind.trans hlink) hfollow hlinks hcontent' hbytes (ih ht)
  | missing => cases ht

/-- What was missing is found once it is there. -/
theorem Resolves.filled (h : fs.Resolves followFinal create r links expanded d names target)
    (hgrows : fs.Grows fs' id) (ht : target = .missing p) (hentry : fs'.entry (p.id, p.name) = some id)
    (hn : fs'.inode id = some n) (hkind : n.kind ≠ .symlink) :
    fs'.Resolves followFinal false r links expanded d names (.inode id) := by
  induction h with
  | done => cases ht
  | stay hdirectory _ ih => exact .stay (hgrows.isDirectory hdirectory) (ih ht)
  | up hdirectory hparent _ ih =>
    exact .up (hgrows.isDirectory hdirectory) (hgrows.isParent hparent) (ih ht)
  | down hdirectory hname hentry hm hstop _ ih =>
    obtain ⟨m', hm', hsame⟩ := hgrows.kind hm
    refine .down (hgrows.isDirectory hdirectory) hname (hgrows.entry _ _ hentry) hm' ?_ (ih ht)
    rwa [hsame]
  | follow hdirectory hname hentry hm hlink hfollow hlinks hcontent hbytes _ ih =>
    obtain ⟨m', hm', hsame⟩ := hgrows.kind hm
    have hcontent' := (hgrows.link hm hlink).trans hcontent
    exact .follow (hgrows.isDirectory hdirectory) hname (hgrows.entry _ _ hentry) hm'
      (hsame.trans hlink) hfollow hlinks hcontent' hbytes (ih ht)
  | missing hdirectory hname _ _ =>
    cases ht
    exact .down (hgrows.isDirectory hdirectory) hname hentry hn (fun hlink => hkind hlink.1) .done

theorem Leads.mono (h : fs.Leads follow path x) (hgrows : fs.Grows fs' id) : fs'.Leads follow path x := by
  obtain ⟨names, hnames, r, hr, hres⟩ := h
  exact ⟨names, hnames, r, hgrows.root.trans hr, hres.mono hgrows rfl⟩

theorem Missing.leads (h : fs.Missing path p) (hgrows : fs.Grows fs' id)
    (hentry : fs'.entry (p.id, p.name) = some id) (hn : fs'.inode id = some n)
    (hkind : n.kind ≠ .symlink) : fs'.Leads true path id := by
  obtain ⟨names, hnames, r, hr, hres⟩ := h
  exact ⟨names, hnames, r, hgrows.root.trans hr, hres.filled hgrows rfl hentry hn hkind⟩

end Filesystem

namespace NamespaceView.Pictures

open Filesystem

variable {v v' : NamespaceView} {fs fs' : Filesystem} {path : Bytes} {id x : InodeId} {n : InodeInfo}
  {follow : Bool} {data : Bytes}

end NamespaceView.Pictures

end ForkFs
