import ForkFs.Namespace.Outcomes

/-!
# Operations on entries

What the operations that make, delete and move entries find and edit, and that they keep a file
system consistent.
-/

namespace ForkFs

open Bytes Outcome

section Making

namespace Filesystem

/-- A file system without records. -/
def empty : Filesystem := ⟨none, fun _ => none, fun _ => none, fun _ => none, fun _ => false⟩

theorem consistent_empty : empty.Consistent where
  tree := {
    finite := by simp [empty]
    source := nofun
    target := nofun
    inner_present := fun x hx => hx.imp fun n hn => hn.1
    root_inner := nofun
    root_free := nofun
    single := nofun
    reachable := nofun }
  name := nofun
  inode := nofun
  owned := fun _ _ => rfl

/-- A root directory alone is a consistent file system. -/
theorem consistent_root (id : InodeId) (modified changed : UInt64) :
    (empty.applyAll [.root id, .inode id (some ⟨.directory, 0o755, 2, 0, modified, changed⟩),
      .allocated id]).Consistent := by
  set fs := empty.applyAll [.root id,
    .inode id (some ⟨.directory, 0o755, 2, 0, modified, changed⟩), .allocated id] with hfs
  have hself : fs.inode id = some ⟨.directory, 0o755, 2, 0, modified, changed⟩ :=
    Function.update_self _ _ _
  have hinode {x : InodeId} {n : InodeInfo} (h : fs.inode x = some n) : x = id := by
    by_contra hne
    have hnone : fs.inode x = none := Function.update_of_ne hne _ _
    rw [hnone] at h
    cases h
  constructor
  case tree =>
    constructor
    case finite => simp [hfs, empty, apply]
    case source =>
      intro q c hc
      cases hc
    case target =>
      intro q c hc
      cases hc
    case inner_present => exact fun x hx => hx.imp fun n hn => hn.1
    case root_inner =>
      rintro r ⟨⟩
      exact ⟨_, hself, rfl⟩
    case root_free =>
      intro r hr q hq
      cases hq
    case single =>
      intro q q' c hc
      cases hc
    case reachable =>
      rintro x ⟨n, hn⟩
      rw [hinode hn]
      exact ⟨id, [], rfl, .root⟩
  case name =>
    intro q c hc
    cases hc
  case inode =>
    intro x n hn
    obtain rfl := hinode hn
    rw [hself] at hn
    cases hn
    refine ⟨⟨?_, ?_, ?_, ?_⟩, Function.update_self _ _ _, rfl, ?_⟩
    · exact show 0o755 ≤ 0o777 by decide
    · exact show 2 < 2 ^ 64 by decide
    · exact show 0 < 2 ^ 64 by decide
    · exact ⟨Nat.two_pos, fun _ => ⟨le_rfl, rfl⟩⟩
    have hnone : fs.subdirectories x = ∅ := by
      refine Set.eq_empty_of_forall_notMem ?_
      rintro q ⟨-, c, hc, -⟩
      cases hc
    rw [linkCount, if_pos rfl, hnone, Set.ncard_empty]
  case owned => exact fun _ _ => rfl

variable {fs : Filesystem} {id : InodeId} {n pn : InodeInfo} {p : Parent}

/-- A new directory keeps a file system consistent. -/
theorem Consistent.created_directory (h : fs.Consistent) (hid : fs.inode id = none)
    (hpn : fs.inode p.id = some pn) (hdirectory : pn.kind = .directory)
    (hfree : fs.entry (p.id, p.name) = none) (hname : EntryName p.name)
    (hkind : n.kind = .directory) (hmode : n.mode ≤ 0o777) (hlinks : n.links = 2) (hsize : n.size = 0)
    (hplinks : pn.links < 2 ^ 64 - 1) (now : UInt64) :
    (fs.created p id n none ({ pn with links := pn.links + 1 }.touch now)).Consistent := by
  obtain ⟨hpvalid, -⟩ := h.inode p.id pn hpn
  have hparent : ({ pn with links := pn.links + 1 }.touch now).Valid false :=
    hpvalid.relink (Nat.le_succ_of_le (hpvalid.state.2 hdirectory).1) (by omega) now
  refine h.bind (a := (p.id, p.name)) (n := n) hpn hdirectory hfree hname (fun _ => hid)
    (fun m hm => ?_) ⟨hmode, ?_, ?_, ?_, ?_⟩ (holds_of_directory hkind rfl) ?_ hparent hdirectory
    ?_ rfl
  · rw [hid] at hm
    cases hm
  · rw [hlinks]
    decide
  · rw [hsize]
    decide
  · rw [if_neg Bool.false_ne_true, hlinks]
    exact Nat.two_pos
  · exact fun _ => ⟨hlinks.ge, hsize⟩
  · rw [h.linkCount_absent hid, if_pos hkind, if_pos hkind, hlinks]
  · rw [if_pos hkind]
    rfl

/-- So does a further entry of a file or symbolic link. -/
theorem Consistent.created_link (h : fs.Consistent) (hn : fs.inode id = some n)
    (hkind : n.kind ≠ .directory) (hpn : fs.inode p.id = some pn) (hdirectory : pn.kind = .directory)
    (hfree : fs.entry (p.id, p.name) = none) (hname : EntryName p.name)
    (hlinks : n.links < 2 ^ 64 - 1) (changed now : UInt64) :
    (fs.created p id { n with links := n.links + 1, changedNs := changed } (fs.content id)
      (pn.touch now)).Consistent := by
  obtain ⟨hvalid, -, hcontent, hcount⟩ := h.inode id n hn
  refine h.bind (a := (p.id, p.name)) (n := { n with links := n.links + 1, changedNs := changed })
    hpn hdirectory hfree hname (fun hkind' => absurd hkind' hkind) (fun m hm => ?_)
    ⟨hvalid.mode, ?_, hvalid.size, ?_, ?_⟩ (hcontent.congr rfl rfl) ?_
    ((h.inode p.id pn hpn).valid.touch now) hdirectory ?_ rfl
  · rw [hn] at hm
    cases hm
    rfl
  · change n.links + 1 < 2 ^ 64
    omega
  · exact Nat.succ_pos _
  · exact fun hkind' => absurd hkind' hkind
  · rw [if_neg hkind, ← hcount]
  · rw [if_neg hkind]
    rfl

end Filesystem

namespace NamespaceView.Pictures

open Filesystem

variable {v : NamespaceView} {fs : Filesystem} {env : Env} {path source target : Bytes} {mode : ℕ}

/-- The root directory is made in a file system without records. -/
theorem fsInit_eq_ok (hv : v.Pictures fs) {e : Effect Unit} (h : v.fsInit env = .ok e) :
    fs = empty ∧ ∃ id, e = ⟨[.root id,
      .inode id (some ⟨.directory, 0o755, 2, 0, env.clock 0, env.clock 1⟩), .allocated id],
      some id, ()⟩ := by
  obtain ⟨found, -, h⟩ := bind_eq_ok.mp h
  obtain ⟨-, h⟩ := need_bind_eq_ok.mp h
  obtain ⟨keys, hkeys, h⟩ := bind_eq_ok.mp h
  obtain ⟨hnil, h⟩ := need_bind_eq_ok.mp h
  obtain ⟨⟨id, draws⟩, -, h⟩ := bind_eq_ok.mp h
  cases h
  refine ⟨?_, id, rfl⟩
  obtain ⟨keys', hkeys', -, hmem⟩ := hv.records
  obtain rfl : keys = keys' := Except.ok.inj (hkeys.symm.trans hkeys')
  have hnone (f : Field) : fs.record f = none := by
    have hnot := (hmem f.key).not.mp (by simp [hnil])
    cases hrecord : fs.record f with
    | none => rfl
    | some b => exact absurd ⟨f, rfl, by rw [hrecord]; rfl⟩ hnot
  refine Filesystem.ext ?_ ?_ ?_ ?_ ?_
  · exact Option.map_eq_none_iff.mp (hnone .root)
  · funext id
    exact Option.map_eq_none_iff.mp (hnone (.inode id))
  · funext id
    exact hnone (.content id)
  · funext q
    exact Option.map_eq_none_iff.mp (hnone (.entry q.1 q.2))
  · funext id
    have hmark := hnone (.allocated id)
    rw [record] at hmark
    split at hmark
    · cases hmark
    · rename_i hfalse
      exact Bool.eq_false_of_not_eq_true hfalse

/-- What a new directory is made of. -/
theorem mkdir_eq_ok (hv : v.Pictures fs) (hfs : fs.Consistent) {e : Effect Unit}
    (h : v.mkdir env path mode = .ok e) :
    ∃ p id pn, fs.Names path p ∧ fs.entry (p.id, p.name) = none ∧ fs.inode id = none ∧
      fs.allocated id = false ∧ fs.inode p.id = some pn ∧ pn.links < 2 ^ 64 - 1 ∧
      e.created = some id ∧ (fs.applyAll e.edits =
        fs.created p id ⟨.directory, mode, 2, 0, env.clock 0, env.clock 1⟩ none
          ({ pn with links := pn.links + 1 }.touch (env.clock 2))) ∧
      ∀ world (o : Orphans), o.applyAll world e.edits = o := by
  obtain ⟨⟨p, ancestry⟩, hp, h⟩ := bind_eq_ok.mp h
  obtain ⟨hnames, -⟩ := hv.parent_eq_ok hfs hp
  obtain ⟨taken, htaken, h⟩ := bind_eq_ok.mp h
  obtain ⟨hfree, h⟩ := need_bind_eq_ok.mp h
  obtain ⟨⟨id, draws⟩, hid, h⟩ := bind_eq_ok.mp h
  obtain ⟨pn, hpn, h⟩ := bind_eq_ok.mp h
  obtain ⟨hlinks, h⟩ := need_bind_eq_ok.mp h
  cases h
  obtain ⟨hnone, hallocated⟩ := hv.fresh_of_newId hid
  rw [Bool.not_eq_true] at hfree
  subst hfree
  refine ⟨p, id, pn, hnames, hv.contains_eq_false.mp htaken, hnone, hallocated,
    hv.inode_eq_ok.mp hpn, hlinks, rfl, ?_, fun _ _ => rfl⟩
  rw [created, ← hfs.owned id hnone, Function.update_eq_self]
  rfl

/-- What a new symbolic link is made of. -/
theorem symlink_eq_ok (hv : v.Pictures fs) (hfs : fs.Consistent) {e : Effect Unit}
    (h : v.symlink env target path = .ok e) :
    ∃ p id pn, fs.Names path p ∧ fs.entry (p.id, p.name) = none ∧ fs.inode id = none ∧
      fs.allocated id = false ∧ fs.inode p.id = some pn ∧ e.created = some id ∧
      (fs.applyAll e.edits =
        fs.created p id ⟨.symlink, 0o777, 1, target.length, env.clock 0, env.clock 1⟩ (some target)
          (pn.touch (env.clock 2))) ∧ ∀ world (o : Orphans), o.applyAll world e.edits = o := by
  obtain ⟨⟨p, ancestry⟩, hp, h⟩ := bind_eq_ok.mp h
  obtain ⟨hnames, -⟩ := hv.parent_eq_ok hfs hp
  obtain ⟨taken, htaken, h⟩ := bind_eq_ok.mp h
  obtain ⟨hfree, h⟩ := need_bind_eq_ok.mp h
  obtain ⟨⟨id, draws, edits⟩, hcreate, h⟩ := bind_eq_ok.mp h
  cases h
  rw [Bool.not_eq_true] at hfree
  subst hfree
  obtain ⟨hnone, hallocated, pn, hpn, happly, hplain⟩ := hv.createAt_eq_ok hcreate
  exact ⟨p, id, pn, hnames, hv.contains_eq_false.mp htaken, hnone, hallocated, hpn, rfl, happly fs,
    hplain⟩

/-- What a hard link is made of. -/
theorem link_eq_ok (hv : v.Pictures fs) (hfs : fs.Consistent) {e : Effect Unit}
    (h : v.link env source target = .ok e) :
    ∃ p id n pn, fs.Leads false source id ∧ fs.inode id = some n ∧ n.kind ≠ .directory ∧
      fs.Names target p ∧ fs.entry (p.id, p.name) = none ∧ n.links < 2 ^ 64 - 1 ∧
      fs.inode p.id = some pn ∧ e.created = none ∧ (fs.applyAll e.edits =
        fs.created p id { n with links := n.links + 1, changedNs := env.clock 0 } (fs.content id)
          (pn.touch (env.clock 1))) ∧ ∀ world (o : Orphans), o.applyAll world e.edits = o := by
  obtain ⟨id, hid, h⟩ := bind_eq_ok.mp h
  obtain ⟨n, hn, h⟩ := bind_eq_ok.mp h
  obtain ⟨hkind, h⟩ := need_bind_eq_ok.mp h
  obtain ⟨⟨p, ancestry⟩, hp, h⟩ := bind_eq_ok.mp h
  obtain ⟨hnames, -⟩ := hv.parent_eq_ok hfs hp
  obtain ⟨taken, htaken, h⟩ := bind_eq_ok.mp h
  obtain ⟨hfree, h⟩ := need_bind_eq_ok.mp h
  obtain ⟨hlinks, h⟩ := need_bind_eq_ok.mp h
  obtain ⟨pn, hpn, h⟩ := bind_eq_ok.mp h
  cases h
  rw [Bool.not_eq_true] at hfree
  subst hfree
  refine ⟨p, id, n, pn, (hv.resolve_eq_ok hfs).mp hid, hv.inode_eq_ok.mp hn, hkind, hnames,
    hv.contains_eq_false.mp htaken, hlinks, hv.inode_eq_ok.mp hpn, rfl, ?_, fun _ _ => rfl⟩
  rw [created, Function.update_eq_self]
  rfl

end NamespaceView.Pictures

end Making

section Removing

/-- What is left of an inode that loses an entry. -/
def InodeInfo.unlinked (n : InodeInfo) (now : UInt64) : Option InodeInfo :=
  if n.kind = .directory ∨ n.links = 1 then none
  else some { n with links := n.links - 1, changedNs := now }

namespace Filesystem

variable {fs : Filesystem} {id : InodeId} {n pn pn' : InodeInfo} {p : Parent} {now : UInt64}

/-- A file system where an inode has lost an entry. -/
def dropped (fs : Filesystem) (id : InodeId) (o : Option InodeInfo) : Filesystem :=
  { fs with
    inode := Function.update fs.inode id o
    content := Function.update fs.content id (o.bind fun _ => fs.content id) }

/-- A file system without an entry. -/
def removed (fs : Filesystem) (p : Parent) (id : InodeId) (o : Option InodeInfo) (pn : InodeInfo) :
    Filesystem :=
  { fs with
    inode := Function.update (Function.update fs.inode p.id (some pn)) id o
    content := Function.update fs.content id (o.bind fun _ => fs.content id)
    entry := Function.update fs.entry (p.id, p.name) none }

/-- A directory with a subdirectory has a link for it. -/
theorem Consistent.links_of_subdirectory (h : fs.Consistent)
    (hentry : fs.entry (p.id, p.name) = some id) (hid : fs.IsDirectory id)
    (hpn : fs.inode p.id = some pn) : 3 ≤ pn.links := by
  obtain ⟨m, hm, hkind⟩ := h.isDirectory_of_entry hentry
  obtain rfl := Option.some.inj (hpn.symm.trans hm)
  have hlinks := (h.inode p.id pn hpn).links
  rw [linkCount, if_pos hkind] at hlinks
  have hmem : (p.id, p.name) ∈ fs.subdirectories p.id := ⟨rfl, id, hentry, hid⟩
  have hfinite : (fs.subdirectories p.id).Finite := by
    refine h.tree.finite.subset ?_
    rintro q ⟨-, c, hq, -⟩
    simp [hq]
  have hpos : 0 < (fs.subdirectories p.id).ncard := (Set.ncard_pos hfinite).mpr ⟨_, hmem⟩
  omega

/-- Without an entry of a leaf a file system stays consistent. -/
theorem Consistent.removed (h : fs.Consistent) (hentry : fs.entry (p.id, p.name) = some id)
    (hn : fs.inode id = some n) (hleaf : ∀ m, fs.entry (id, m) = none)
    (hpn : fs.inode p.id = some pn) (hpkind : pn'.kind = pn.kind) (hpmode : pn'.mode = pn.mode)
    (hpsize : pn'.size = pn.size)
    (hplinks : pn'.links = if n.kind = .directory then pn.links - 1 else pn.links) :
    (fs.removed p id (n.unlinked now) pn').Consistent := by
  obtain ⟨m, hm, hdirectory⟩ := h.isDirectory_of_entry hentry
  obtain rfl := Option.some.inj (hpn.symm.trans hm)
  obtain ⟨hvalid, -, hcontent, -⟩ := h.inode id n hn
  obtain ⟨hpvalid, -⟩ := h.inode p.id pn hpn
  have hthree : n.kind = .directory → 3 ≤ pn.links :=
    fun hkind => h.links_of_subdirectory hentry ⟨n, hn, hkind⟩ hpn
  have htwo : 2 ≤ pn'.links ∧ pn'.links + (if n.kind = .directory then 1 else 0) = pn.links := by
    have hstate := (hpvalid.state.2 hdirectory).1
    rw [hplinks]
    split
    · rename_i hkind
      have := hthree hkind
      omega
    · omega
  have hparent : pn'.Valid false := by
    refine ⟨hpmode ▸ hpvalid.mode, ?_, hpsize ▸ hpvalid.size, ?_, fun _ => ⟨htwo.1, ?_⟩⟩
    · have := hpvalid.links
      omega
    · rw [if_neg Bool.false_ne_true]
      omega
    · rw [hpsize]
      exact (hpvalid.state.2 hdirectory).2
  refine h.unbind (a := (p.id, p.name)) hentry hn hleaf hpn hparent (hpkind.trans hdirectory)
    htwo.2 ?_ ?_ (fun n' hn' => ?_) rfl
  · rw [InodeInfo.unlinked, ← h.last_iff hn hentry]
    split <;> simp [*]
  · intro hnone
    rw [hnone]
    rfl
  · rw [InodeInfo.unlinked] at hn'
    split at hn'
    · cases hn'
    · rename_i hlast
      obtain ⟨hkind, hone⟩ := not_or.mp hlast
      cases hn'
      have hpos : 0 < n.links := hvalid.state.1
      refine ⟨rfl, ⟨hvalid.mode, ?_, hvalid.size, ?_, fun hkind' => absurd hkind' hkind⟩, ?_, ?_⟩
      · change n.links - 1 < 2 ^ 64
        have := hvalid.links
        omega
      · change 0 < n.links - 1
        omega
      · rw [InodeInfo.unlinked, if_neg hlast]
        exact hcontent.congr rfl rfl
      · change n.links - 1 + 1 = n.links
        omega

end Filesystem

namespace NamespaceView

open Filesystem

variable {v : NamespaceView} {fs : Filesystem} {env : Env} {view path value : Bytes}
  {opened : InodeId → Bool} {id : InodeId} {n : InodeInfo} {edits : List Edit} {directory : Bool}

/-- What the edits of an inode that loses an entry do. -/
theorem applyAll_of_unlink (h : v.unlink env view opened id n = .ok edits)
    (hcontent : n.kind = .directory → fs.content id = none) :
    fs.applyAll edits = fs.dropped id (n.unlinked (env.clock 3)) := by
  unfold NamespaceView.unlink at h
  rw [InodeInfo.unlinked]
  split at h
  · rename_i hlast
    rw [if_pos hlast]
    unfold NamespaceView.retire at h
    split at h
    · rename_i hkind
      cases h
      rw [dropped, Option.bind_none, ← hcontent hkind, Function.update_eq_self]
      rfl
    · split at h
      · obtain ⟨data, -, h⟩ := bind_eq_ok.mp h
        cases h
        rfl
      · cases h
        rfl
  · rename_i hlast
    cases h
    rw [if_neg hlast, dropped, Option.bind_some, Function.update_eq_self]
    rfl

namespace Pictures

/-- A directory without keys has no entries. -/
theorem entry_of_keys (hv : v.Pictures fs) (h : v.keys (directoryPrefix id) = .ok []) (name : Bytes) :
    fs.entry (id, name) = none := by
  obtain ⟨names, hnames, -, hmem⟩ := hv.keys id
  rw [h] at hnames
  have hnil : names = [] := List.map_eq_nil_iff.mp (Except.ok.inj hnames).symm
  have hnot := (hmem name).not.mp (by simp [hnil])
  simpa using hnot

/-- What a removal finds and edits. -/
theorem remove_eq_ok (hv : v.Pictures fs) (hfs : fs.Consistent) {e : Effect Unit}
    (h : v.remove env view opened path directory = .ok e) :
    ∃ p id n pn edits, fs.Names path p ∧ fs.entry (p.id, p.name) = some id ∧ fs.inode id = some n ∧
      fs.inode p.id = some pn ∧ (n.kind = .directory ↔ directory = true) ∧
      (∀ m, fs.entry (id, m) = none) ∧ e.created = none ∧
      v.unlink env view opened id n = .ok edits ∧ (fs.applyAll e.edits =
        fs.removed p id (n.unlinked (env.clock 3))
          ((if directory then { pn with links := pn.links - 1 } else pn).touch (env.clock 0))) ∧
      ∀ world (o : Orphans), o.applyAll world e.edits = o.applyAll world edits := by
  obtain ⟨⟨p, ancestry⟩, hp, h⟩ := bind_eq_ok.mp h
  obtain ⟨hnames, -⟩ := hv.parent_eq_ok hfs hp
  obtain ⟨taken, htaken, h⟩ := bind_eq_ok.mp h
  obtain ⟨-, h⟩ := need_bind_eq_ok.mp h
  obtain ⟨id, hid, h⟩ := bind_eq_ok.mp h
  obtain ⟨n, hn, h⟩ := bind_eq_ok.mp h
  obtain ⟨pn, hpn, h⟩ := bind_eq_ok.mp h
  obtain ⟨hkind, h⟩ := need_bind_eq_ok.mp h
  rw [hv.child_eq_ok] at hid
  rw [hv.inode_eq_ok] at hn hpn
  -- Only directories are searched for entries.
  obtain ⟨edits, hleaf, hedits, rfl⟩ : ∃ edits, (∀ m, fs.entry (id, m) = none) ∧
      v.unlink env view opened id n = .ok edits ∧ e = ⟨.entry p.id p.name none :: edits ++
        [.inode p.id (some ((if directory then { pn with links := pn.links - 1 } else pn).touch
          (env.clock 0)))], none, ()⟩ := by
    cases directory with
    | true =>
      obtain ⟨entries, hentries, h⟩ := bind_eq_ok.mp h
      obtain ⟨hnil, h⟩ := need_bind_eq_ok.mp h
      obtain ⟨edits, hedits, h⟩ := bind_eq_ok.mp h
      cases h
      rw [hnil] at hentries
      exact ⟨edits, hv.entry_of_keys hentries, hedits, rfl⟩
    | false =>
      obtain ⟨entries, -, h⟩ := bind_eq_ok.mp h
      obtain ⟨-, h⟩ := need_bind_eq_ok.mp h
      obtain ⟨edits, hedits, h⟩ := bind_eq_ok.mp h
      cases h
      have hnot : n.kind ≠ .directory := by simp [hkind]
      exact ⟨edits, hfs.entry_eq_none (Consistent.not_isDirectory hn hnot), hedits, rfl⟩
  have hne : p.id ≠ id := by
    intro heq
    have hnone := hleaf p.name
    rw [← heq, hid] at hnone
    cases hnone
  refine ⟨p, id, n, pn, edits, hnames, hid, hn, hpn, hkind, hleaf, rfl, hedits, ?_,
    fun world o => Orphans.applyAll_append world o edits _⟩
  have hdropped : (fs.apply (.entry p.id p.name none)).applyAll edits =
      (fs.apply (.entry p.id p.name none)).dropped id (n.unlinked (env.clock 3)) :=
    applyAll_of_unlink hedits fun hdirectory =>
      holds_directory hdirectory (hfs.inode id n hn).content
  rw [List.cons_append, applyAll_cons, applyAll_append, hdropped, removed, Function.update_comm hne]
  rfl

/-- What a save finds and edits: the new file takes the place of the old one. -/
theorem replaceFile_eq_ok (hv : v.Pictures fs) (hfs : fs.Consistent) {e : Effect Unit}
    (h : v.replaceFile env view opened path value = .ok e) :
    ∃ p id pn, fs.Names path p ∧ fs.inode id = none ∧ fs.allocated id = false ∧
      fs.inode p.id = some pn ∧ e.created = some id ∧
      (fs.entry (p.id, p.name) = none ∧ (fs.applyAll e.edits =
          fs.created p id ⟨.file, 0o644, 1, value.length, env.clock 0, env.clock 1⟩ (some value)
            (pn.touch (env.clock 2))) ∧ (∀ world (o : Orphans), o.applyAll world e.edits = o) ∨
        ∃ old n edits, fs.entry (p.id, p.name) = some old ∧ fs.inode old = some n ∧
          n.kind ≠ .directory ∧ v.unlink env view opened old n = .ok edits ∧
          (fs.applyAll e.edits =
            (fs.dropped old (n.unlinked (env.clock 3))).created p id
              ⟨.file, if n.kind = .symlink then 0o644 else n.mode, 1, value.length, env.clock 0,
                env.clock 1⟩ (some value) (pn.touch (env.clock 2))) ∧
          ∀ world (o : Orphans), o.applyAll world e.edits = o.applyAll world edits) := by
  obtain ⟨⟨p, ancestry⟩, hp, h⟩ := bind_eq_ok.mp h
  obtain ⟨hnames, -⟩ := hv.parent_eq_ok hfs hp
  obtain ⟨taken, htaken, h⟩ := bind_eq_ok.mp h
  cases taken with
  | false =>
    have hnew : (v.createAt env p .file 0o644 value (env.clock 0) (env.clock 1) >>= fun r =>
        pure ⟨r.2.2, some r.1, ()⟩) = Except.ok e := h
    obtain ⟨⟨id, draws, edits⟩, hcreate, hnew⟩ := bind_eq_ok.mp hnew
    cases hnew
    obtain ⟨hnone, hallocated, pn, hpn, happly, hplain⟩ := hv.createAt_eq_ok hcreate
    exact ⟨p, id, pn, hnames, hnone, hallocated, hpn, rfl,
      .inl ⟨hv.contains_eq_false.mp htaken, happly fs, hplain⟩⟩
  | true =>
    obtain ⟨old, hold, h⟩ := bind_eq_ok.mp h
    obtain ⟨n, hn, h⟩ := bind_eq_ok.mp h
    obtain ⟨hkind, h⟩ := need_bind_eq_ok.mp h
    obtain ⟨edits, hedits, h⟩ := bind_eq_ok.mp h
    have hnew : (v.createAt env p .file (if n.kind = .symlink then 0o644 else n.mode) value
        (env.clock 0) (env.clock 1) >>= fun r =>
          pure ⟨edits ++ r.2.2, some r.1, ()⟩) = Except.ok e := h
    obtain ⟨⟨id, draws, rest⟩, hcreate, hnew⟩ := bind_eq_ok.mp hnew
    cases hnew
    obtain ⟨hnone, hallocated, pn, hpn, happly, hplain⟩ := hv.createAt_eq_ok hcreate
    refine ⟨p, id, pn, hnames, hnone, hallocated, hpn, rfl, .inr ⟨old, n, edits,
      hv.child_eq_ok.mp hold, hv.inode_eq_ok.mp hn, hkind, hedits, ?_, fun world o =>
        (Orphans.applyAll_append world o edits rest).trans (hplain world _)⟩⟩
    rw [applyAll_append, applyAll_of_unlink hedits fun hdirectory => absurd hdirectory hkind, happly]

end Pictures

end NamespaceView

/-- A new file in the place of another one keeps a file system consistent. -/
theorem Filesystem.Consistent.replaced {fs : Filesystem} {p : Parent} {id old : InodeId}
    {n pn : InodeInfo} {value : Bytes} {now now' modified changed : UInt64} {mode : ℕ}
    (h : fs.Consistent)
    (hid : fs.inode id = none) (hpn : fs.inode p.id = some pn) (hname : EntryName p.name)
    (hold : fs.entry (p.id, p.name) = some old) (hn : fs.inode old = some n)
    (hkind : n.kind ≠ .directory) (hmode : mode ≤ 0o777) (hsize : value.length ≤ 256 * 1024) :
    ((fs.dropped old (n.unlinked now)).created p id
      ⟨.file, mode, 1, value.length, modified, changed⟩ (some value) (pn.touch now')).Consistent := by
  have hleaf := h.entry_eq_none (not_isDirectory hn hkind)
  obtain ⟨m, hm, hdirectory⟩ := h.isDirectory_of_entry hold
  obtain rfl := Option.some.inj (hpn.symm.trans hm)
  have hpold : p.id ≠ old := by
    rintro rfl
    rw [hleaf p.name] at hold
    cases hold
  have hpid : p.id ≠ id := by
    rintro rfl
    rw [hid] at hpn
    cases hpn
  have hidold : id ≠ old := by
    rintro rfl
    rw [hid] at hn
    cases hn
  -- The entry is taken away first, and then made anew.
  have hremoved : (fs.removed p old (n.unlinked now) pn).Consistent :=
    h.removed hold hn hleaf hpn rfl rfl rfl (by simp [hkind])
  have hparent : (fs.removed p old (n.unlinked now) pn).inode p.id = some pn := by
    simp [Filesystem.removed, hpold]
  have hfresh : (fs.removed p old (n.unlinked now) pn).inode id = none := by
    simp [Filesystem.removed, hidold, Ne.symm hpid, hid]
  have hcreated : ((fs.removed p old (n.unlinked now) pn).created p id
      ⟨.file, mode, 1, value.length, modified, changed⟩ (some value) (pn.touch now')).Consistent :=
    hremoved.created_leaf hfresh hparent hdirectory (by simp [Filesystem.removed]) hname nofun hmode
      rfl (by change value.length < 2 ^ 64; omega) ⟨value, rfl, rfl, hsize⟩
  have hsame : (fs.dropped old (n.unlinked now)).created p id
      ⟨.file, mode, 1, value.length, modified, changed⟩ (some value) (pn.touch now') =
      (fs.removed p old (n.unlinked now) pn).created p id
        ⟨.file, mode, 1, value.length, modified, changed⟩ (some value) (pn.touch now') := by
    refine Filesystem.ext rfl ?_ rfl ?_ rfl
    · simp only [Filesystem.created, Filesystem.removed, Filesystem.dropped]
      rw [Function.update_comm hpold, Function.update_comm hpid, Function.update_idem]
    · simp [Filesystem.created, Filesystem.removed, Filesystem.dropped]
  rw [hsame]
  exact hcreated

end Removing

end ForkFs
