import ForkFs.Namespace.Reads
import ForkFs.Namespace.Resolution

/-!
# What paths lead to

A path leads to an inode, or it names an entry: a directory and a last name in it, which may be
free. The lookups of a view succeed exactly on such paths.
-/

namespace ForkFs

open Bytes Outcome Hierarchy

section Names

theorem checkComponent_of_mem {names : List Bytes} (h : checkComponents names = .ok ()) {name : Bytes}
    (hname : name ∈ names) : checkComponent name = .ok () := by
  fun_induction checkComponents names with
  | case1 => cases hname
  | case2 only =>
    rw [List.mem_singleton.mp hname]
    exact h
  | case3 first next rest ih =>
    obtain ⟨_, hfirst, h⟩ := bind_eq_ok.mp h
    obtain ⟨-, h⟩ := need_bind_eq_ok.mp h
    rcases List.mem_cons.mp hname with rfl | hname
    · exact hfirst
    · exact ih h hname

/-- The names of a path can be those of entries. -/
theorem entryName_of_components {path name : Bytes} {names : List Bytes}
    (h : components path = .ok names) (hname : name ∈ names) : EntryName name := by
  unfold components at h
  obtain ⟨-, h⟩ := need_bind_eq_ok.mp h
  split at h
  · cases h
    cases hname
  · obtain ⟨_, hcheck, h⟩ := bind_eq_ok.mp h
    cases h
    exact ⟨checkComponent_of_mem hcheck hname, (mem_pieces hname).1⟩

theorem EntryName.proper {name : Bytes} (h : EntryName name) : Filesystem.Proper name := by
  obtain ⟨⟨-, hdot, hup, -⟩, -⟩ := need_bind_eq_ok.mp h.1
  exact ⟨hdot, hup⟩

theorem EntryName.component {name : Bytes} (h : EntryName name) : Component name := by
  obtain ⟨⟨hne, -, -, hlength⟩, hbytes⟩ := need_bind_eq_ok.mp h.1
  exact ⟨hne, hlength, need_eq_ok.mp hbytes, h.2⟩

end Names

namespace Filesystem

variable {fs : Filesystem} {followFinal create follow : Bool} {r id d x : InodeId} {n : InodeInfo}
  {names : List Bytes} {target : Target} {links expanded : ℕ} {above : List InodeId} {path : Bytes}
  {p : Parent}

/-- A path that leads to an inode. -/
def Leads (fs : Filesystem) (follow : Bool) (path : Bytes) (id : InodeId) : Prop :=
  ∃ names, components path = .ok names ∧ fs.Reaches follow false names (.inode id)

/-- A path that names an entry, which may be free. -/
def Names (fs : Filesystem) (path : Bytes) (p : Parent) : Prop :=
  fs.IsDirectory p.id ∧ ∃ names, components path = .ok (names ++ [p.name]) ∧
    fs.Reaches true false names (.inode p.id)

/-- A path where a file can be created: its last name is free, or is a chain of links to a free
name. -/
def Missing (fs : Filesystem) (path : Bytes) (p : Parent) : Prop :=
  ∃ names, components path = .ok names ∧ fs.Reaches true true names (.missing p)

theorem Names.entryName (h : fs.Names path p) : EntryName p.name := by
  obtain ⟨-, names, hnames, -⟩ := h
  exact entryName_of_components hnames (by simp)

theorem Consistent.isDirectory_of_isParent (h : fs.Consistent) {up : InodeId}
    (hup : fs.IsParent id up) : fs.IsDirectory up := by
  rcases hup with ⟨name, hentry⟩ | ⟨hr, rfl⟩
  · exact h.tree.source _ _ hentry
  · exact h.tree.root_inner up hr

theorem IsDirectory.not_symlink (h : fs.IsDirectory id) (hn : fs.inode id = some n) :
    n.kind ≠ .symlink := by
  obtain ⟨m, hm, hkind⟩ := h
  rw [hn] at hm
  cases hm
  simp [hkind]

/-- Where every link is followed, no link is reached. -/
theorem Resolves.not_symlink (h : fs.Resolves true create r links expanded id names target)
    (hfs : fs.Consistent) (hr : fs.root = some r)
    (hid : ∀ n, fs.inode id = some n → n.kind ≠ .symlink) (ht : target = .inode x)
    (hn : fs.inode x = some n) : n.kind ≠ .symlink := by
  induction h with
  | done =>
    cases ht
    exact hid n hn
  | stay hdirectory _ ih => exact ih hid ht
  | up hdirectory hparent _ ih =>
    exact ih (fun m hm => (hfs.isDirectory_of_isParent hparent).not_symlink hm) ht
  | down hdirectory hname hentry hm hstop _ ih =>
    refine ih (fun m' hm' => ?_) ht
    rw [hm] at hm'
    cases hm'
    exact fun hkind => hstop ⟨hkind, .inl rfl⟩
  | follow hdirectory hname hentry hm hlink hfollow hlinks hcontent hbytes _ ih =>
    refine ih (fun m' hm' => ?_) ht
    split at hm'
    · exact (hfs.tree.root_inner r hr).not_symlink hm'
    · exact hdirectory.not_symlink hm'
  | missing => cases ht

theorem Leads.not_symlink (h : fs.Leads true path x) (hfs : fs.Consistent)
    (hn : fs.inode x = some n) : n.kind ≠ .symlink := by
  obtain ⟨names, -, r, hr, hres⟩ := h
  exact hres.not_symlink hfs hr (fun m hm => (hfs.tree.root_inner r hr).not_symlink hm) rfl hn

/-- Names after a path that is followed to its end continue from there. -/
theorem Resolves.append (h : fs.Resolves true create r links expanded id names target)
    (ht : target = .inode d) : ∃ links' expanded', ∀ followFinal create rest target,
      (followFinal = true ∨ rest ≠ []) →
      fs.Resolves followFinal create r links' expanded' d rest target →
      fs.Resolves followFinal create r links expanded id (names ++ rest) target := by
  induction h with
  | @done links expanded id =>
    cases ht
    exact ⟨links, expanded, fun _ _ _ _ _ h => h⟩
  | stay hdirectory _ ih =>
    obtain ⟨links', expanded', hcont⟩ := ih ht
    exact ⟨links', expanded', fun followFinal create rest target hrest h =>
      .stay hdirectory (hcont followFinal create rest target hrest h)⟩
  | up hdirectory hparent _ ih =>
    obtain ⟨links', expanded', hcont⟩ := ih ht
    exact ⟨links', expanded', fun followFinal create rest target hrest h =>
      .up hdirectory hparent (hcont followFinal create rest target hrest h)⟩
  | down hdirectory hname hentry hm hstop _ ih =>
    obtain ⟨links', expanded', hcont⟩ := ih ht
    exact ⟨links', expanded', fun followFinal create rest target hrest h =>
      .down hdirectory hname hentry hm (fun hlink => hstop ⟨hlink.1, .inl rfl⟩)
        (hcont followFinal create rest target hrest h)⟩
  | follow hdirectory hname hentry hm hlink hfollow hlinks hcontent hbytes _ ih =>
    obtain ⟨links', expanded', hcont⟩ := ih ht
    refine ⟨links', expanded', fun followFinal create rest target hrest h => ?_⟩
    have hnext := hcont followFinal create rest target hrest h
    rw [List.append_assoc] at hnext
    refine .follow hdirectory hname hentry hm hlink (hrest.imp_right ?_) hlinks hcontent hbytes hnext
    exact fun hne hnil => hne (List.append_eq_nil_iff.mp hnil).2
  | missing => cases ht

/-- Whether files may be created does not matter where something is found. -/
theorem Resolves.found_of_found (h : fs.Resolves followFinal create r links expanded id names target)
    (ht : target = .inode x) (create' : Bool) :
    fs.Resolves followFinal create' r links expanded id names target := by
  induction h with
  | done => exact .done
  | stay hdirectory _ ih => exact .stay hdirectory (ih ht)
  | up hdirectory hparent _ ih => exact .up hdirectory hparent (ih ht)
  | down hdirectory hname hentry hn hstop _ ih => exact .down hdirectory hname hentry hn hstop (ih ht)
  | follow hdirectory hname hentry hn hlink hfollow hlinks hcontent hbytes _ ih =>
    exact .follow hdirectory hname hentry hn hlink hfollow hlinks hcontent hbytes (ih ht)
  | missing => cases ht

theorem Resolves.missing_spec (h : fs.Resolves followFinal create r links expanded id names target)
    (ht : target = .missing p) :
    fs.IsDirectory p.id ∧ fs.entry (p.id, p.name) = none ∧ Proper p.name := by
  induction h with
  | done => cases ht
  | stay _ _ ih | up _ _ _ ih | down _ _ _ _ _ _ ih | follow _ _ _ _ _ _ _ _ _ _ ih => exact ih ht
  | missing hdirectory hname hentry =>
    cases ht
    exact ⟨hdirectory, hentry, hname⟩

/-- A free name in a directory, where an entry can be made. -/
theorem Missing.spec (h : fs.Missing path p) (hfs : fs.Consistent) :
    fs.IsDirectory p.id ∧ fs.entry (p.id, p.name) = none ∧ EntryName p.name := by
  obtain ⟨names, hnames, r, hr, hres⟩ := h
  obtain ⟨hdirectory, hentry, -⟩ := hres.missing_spec rfl
  exact ⟨hdirectory, hentry, hres.entryName hfs
    (fun name hname => (entryName_of_components hnames hname).component) rfl⟩

theorem Names.missing (h : fs.Names path p) (hentry : fs.entry (p.id, p.name) = none) :
    fs.Missing path p := by
  have hproper := h.entryName.proper
  obtain ⟨hdirectory, names, hnames, r, hr, hres⟩ := h
  obtain ⟨links, expanded, hcont⟩ := hres.append rfl
  exact ⟨_, hnames, r, hr, hcont true true [p.name] _ (.inl rfl)
    (.missing hdirectory hproper hentry rfl)⟩

/-- The entry that a path names, if it is not a link that is followed. -/
theorem Names.leads (h : fs.Names path p) (hentry : fs.entry (p.id, p.name) = some x)
    (hn : fs.inode x = some n) (hstop : n.kind = .symlink → follow = false) :
    fs.Leads follow path x := by
  have hproper := h.entryName.proper
  obtain ⟨hdirectory, names, hnames, r, hr, hres⟩ := h
  obtain ⟨links, expanded, hcont⟩ := hres.append rfl
  refine ⟨_, hnames, r, hr, hcont follow false [p.name] _ (.inr (by simp)) ?_⟩
  refine .down hdirectory hproper hentry hn ?_ .done
  rintro ⟨hkind, hfollow | hne⟩
  · rw [hstop hkind] at hfollow
    cases hfollow
  · exact hne rfl

end Filesystem

namespace NamespaceView.Pictures

open Filesystem

variable {v : NamespaceView} {fs : Filesystem} {follow : Bool} {d id : InodeId} {n : InodeInfo}
  {path name data : Bytes} {names : List Bytes} {p : Parent} {above ancestry : List InodeId}

theorem inode_eq_ok (hv : v.Pictures fs) : v.inode id = .ok n ↔ fs.inode id = some n := by
  rw [hv.inode, found_eq_ok]

theorem child_eq_ok (hv : v.Pictures fs) : v.child d name = .ok id ↔ fs.entry (d, name) = some id := by
  rw [hv.child, found_eq_ok]

theorem content_eq_ok (hv : v.Pictures fs) :
    v.get (contentKey id) = .ok data ↔ fs.content id = some data := by
  rw [hv.content, found_eq_ok]

theorem contains_eq_true (hv : v.Pictures fs) :
    v.contains (entryKey d name) = .ok true ↔ ∃ c, fs.entry (d, name) = some c := by
  rw [hv.contains, Except.ok.injEq, Option.isSome_iff_exists]

theorem contains_eq_false (hv : v.Pictures fs) :
    v.contains (entryKey d name) = .ok false ↔ fs.entry (d, name) = none := by
  rw [hv.contains, Except.ok.injEq, Option.isSome_eq_false_iff, Option.isNone_iff_eq_none]

/-- A drawn identity is new. -/
theorem fresh_of_newId (hv : v.Pictures fs) {attempts : ℕ} {draws rest : List InodeId}
    (h : v.newId attempts draws = .ok (id, rest)) :
    fs.inode id = none ∧ fs.allocated id = false := by
  obtain ⟨hallocated, hused⟩ := contains_of_newId h
  rw [hv.linked, Except.ok.injEq, Option.isSome_eq_false_iff, Option.isNone_iff_eq_none] at hused
  exact ⟨hused, hv.fresh id hallocated⟩

theorem walkTo_eq_ok (hv : v.Pictures fs) (hfs : fs.Consistent)
    (h : v.walkTo names follow = .ok (id, above)) :
    fs.Reaches follow false names (.inode id) ∧ fs.Chain id above := by
  obtain ⟨dest, hwalk, h⟩ := bind_eq_ok.mp h
  obtain ⟨hreaches, hwithin⟩ := hv.walk_reaches hfs hwalk
  cases dest with
  | missing parent => cases h
  | found id' above' =>
    cases h
    exact ⟨hreaches, hwithin⟩

theorem walkTo_of_reaches (hv : v.Pictures fs) (hfs : fs.Consistent)
    (h : fs.Reaches follow false names (.inode id)) :
    ∃ above, v.walkTo names follow = .ok (id, above) := by
  obtain ⟨dest, hwalk, htarget⟩ := hv.walk_of_reaches hfs h
  cases dest with
  | missing parent => cases htarget
  | found id' above =>
    cases htarget
    exact ⟨above, by rw [walkTo, hwalk]; rfl⟩

/-- A path resolves to the inode it leads to. -/
theorem resolve_eq_ok (hv : v.Pictures fs) (hfs : fs.Consistent) :
    v.resolve path follow = .ok id ↔ fs.Leads follow path id := by
  constructor
  · intro h
    obtain ⟨names, hnames, h⟩ := bind_eq_ok.mp h
    obtain ⟨⟨id', above⟩, hwalk, h⟩ := bind_eq_ok.mp h
    cases h
    exact ⟨names, hnames, (hv.walkTo_eq_ok hfs hwalk).1⟩
  · rintro ⟨names, hnames, hreaches⟩
    obtain ⟨above, hwalk⟩ := hv.walkTo_of_reaches hfs hreaches
    rw [resolve, hnames, ok_bind, hwalk]
    rfl

/-- The parent of a path is the entry it names, with the directories above. -/
theorem parent_eq_ok (hv : v.Pictures fs) (hfs : fs.Consistent)
    (h : v.parent path = .ok (p, ancestry)) :
    fs.Names path p ∧ ∃ above, ancestry = p.id :: above ∧ fs.Chain p.id above := by
  obtain ⟨names, hnames, h⟩ := bind_eq_ok.mp h
  obtain ⟨hne, h⟩ := need_bind_eq_ok.mp h
  obtain ⟨⟨id, above⟩, hwalk, h⟩ := bind_eq_ok.mp h
  obtain ⟨n, hn, h⟩ := bind_eq_ok.mp h
  obtain ⟨hkind, h⟩ := need_bind_eq_ok.mp h
  cases h
  obtain ⟨hreaches, hchain⟩ := hv.walkTo_eq_ok hfs hwalk
  refine ⟨⟨⟨n, hv.inode_eq_ok.mp hn, hkind⟩, names.dropLast, ?_, hreaches⟩, above, rfl, hchain⟩
  rw [hnames, List.getLastD_eq_getLast?, List.getLast?_eq_getLast_of_ne_nil hne, Option.getD_some,
    List.dropLast_append_getLast]

theorem resolveOrMissing_found (hv : v.Pictures fs) (hfs : fs.Consistent)
    (h : v.resolveOrMissing path = .ok (.found id above)) : fs.Leads true path id := by
  obtain ⟨names, hnames, h⟩ := bind_eq_ok.mp h
  obtain ⟨⟨r, hr, hres⟩, -⟩ := hv.walk_reaches hfs h
  exact ⟨names, hnames, r, hr, hres.found_of_found rfl false⟩

theorem resolveOrMissing_missing (hv : v.Pictures fs) (hfs : fs.Consistent)
    (h : v.resolveOrMissing path = .ok (.missing p)) : fs.Missing path p := by
  obtain ⟨names, hnames, h⟩ := bind_eq_ok.mp h
  exact ⟨names, hnames, (hv.walk_reaches hfs h).1⟩

end NamespaceView.Pictures

end ForkFs
