import ForkFs.Namespace.Filesystem

/-!
# Changes that keep file systems consistent

Every operation on a World is made of a few changes: new attributes and content of an inode, a new
inode with its entry, a further entry, an entry less, and an entry that moves. Each of them keeps
a file system consistent.
-/

namespace ForkFs

open Bytes Hierarchy

namespace Filesystem

variable {fs fs' : Filesystem} {id x : InodeId} {n n' pn pn' : InodeInfo} {a : InodeId × Bytes}
  {data : Option Bytes} {kind : Kind}

/-- The content of a directory. -/
theorem holds_directory (hkind : n.kind = .directory) (h : n.Holds data) : data = none := by
  rw [InodeInfo.Holds, hkind] at h
  exact h

theorem holds_of_directory (hkind : n.kind = .directory) (h : data = none) : n.Holds data := by
  rw [InodeInfo.Holds, hkind]
  exact h

theorem isDirectory_iff : fs.IsDirectory x ↔ (fs.inode x).map InodeInfo.kind = some .directory := by
  unfold IsDirectory
  rw [Option.map_eq_some_iff]

section Counts

open Classical in
/-- What an entry adds to a link count. -/
noncomputable def share (fs : Filesystem) (a : InodeId × Bytes) (id x : InodeId) (kind : Kind) : ℕ :=
  if kind = .directory then if a.1 = x ∧ fs.IsDirectory id then 1 else 0
  else if id = x then 1 else 0

theorem share_self (h : a.1 ≠ id) :
    fs.share a id id kind = if kind = .directory then 0 else 1 := by
  simp [share, h]

theorem share_parent (hn : fs.inode id = some n) :
    fs.share a id a.1 .directory = if n.kind = .directory then 1 else 0 := by
  simp [share, IsDirectory, hn]

theorem share_of_ne (hparent : a.1 ≠ x) (hid : id ≠ x) : fs.share a id x kind = 0 := by
  simp [share, hparent, hid]

theorem linkCount_congr (hentry : fs'.entry = fs.entry)
    (hdirectory : ∀ c, fs'.IsDirectory c ↔ fs.IsDirectory c) :
    fs'.linkCount x kind = fs.linkCount x kind := by
  unfold linkCount subdirectories namings
  simp only [hentry, hdirectory]

/-- How link counts follow a new entry. -/
theorem linkCount_bind (hentry : fs'.entry = Function.update fs.entry a (some id))
    (hfree : fs.entry a = none) (hfinite : { p | (fs.entry p).isSome }.Finite)
    (hdirectory : ∀ q c, fs.entry q = some c → (fs'.IsDirectory c ↔ fs.IsDirectory c)) :
    fs'.linkCount x kind = fs.linkCount x kind + fs'.share a id x kind := by
  classical
  unfold linkCount share
  by_cases hkind : kind = .directory
  · simp only [if_pos hkind]
    have hold : fs.subdirectories x =
        { q | q.1 = x ∧ ∃ c, fs.entry q = some c ∧ fs'.IsDirectory c } := by
      ext q
      simp only [subdirectories, Set.mem_ofPred_eq]
      exact and_congr_right fun _ => exists_congr fun c => and_congr_right fun hq =>
        (hdirectory q c hq).symm
    have hsome : { q | q.1 = x ∧ ∃ c, fs.entry q = some c ∧ fs'.IsDirectory c }.Finite := by
      refine hfinite.subset ?_
      rintro q ⟨-, c, hq, -⟩
      simp [hq]
    have hcount := ncard_update (f := fs.entry) (a := a) (o := some id)
      (P := fun q o => q.1 = x ∧ ∃ c, o = some c ∧ fs'.IsDirectory c) hsome
    simp only [hfree, reduceCtorEq, false_and, exists_false, and_false, if_false,
      Option.some.injEq, exists_eq_left', Nat.add_zero] at hcount
    rw [hold, Nat.add_assoc, ← hcount, subdirectories, hentry]
  · simp only [if_neg hkind]
    have hsome : { q | fs.entry q = some x }.Finite := by
      refine hfinite.subset fun q hq => ?_
      have hq : fs.entry q = some x := hq
      simp [hq]
    have hcount := ncard_update (f := fs.entry) (a := a) (o := some id) (P := fun _ o => o = some x)
      hsome
    simp only [hfree, reduceCtorEq, if_false, Option.some.injEq, Nat.add_zero] at hcount
    rw [namings, namings, hentry, hcount]

/-- The shares of two entries of an inode differ only for directories. -/
theorem share_eq {b : InodeId × Bytes} {m : InodeInfo} (ha : fs.entry a = some id)
    (hn : fs.inode id = some n) (h : fs.Consistent) (hdirectory : fs.IsDirectory b.1)
    (hm : fs.inode x = some m) :
    fs.share a id x m.kind + (if n.kind = .directory ∧ b.1 = x then 1 else 0) =
      fs.share b id x m.kind + if n.kind = .directory ∧ a.1 = x then 1 else 0 := by
  have hid : fs.IsDirectory id ↔ n.kind = .directory := by
    rw [isDirectory_iff, hn]
    simp
  by_cases hkind : m.kind = .directory
  · simp only [share, if_pos hkind, hid, and_comm]
    omega
  · have hsource := h.tree.source a id ha
    have hnot : ∀ d, fs.IsDirectory d → d ≠ x := by
      rintro d ⟨k, hk, hkdir⟩ rfl
      rw [hm] at hk
      cases hk
      exact hkind hkdir
    simp [share, hkind, hnot _ hdirectory, hnot _ hsource]

/-- How link counts follow an entry that moves. -/
theorem linkCount_move {b : InodeId × Bytes} (ha : fs.entry a = some id) (hb : fs.entry b = none)
    (hfinite : { p | (fs.entry p).isSome }.Finite)
    (hdirectory : ∀ c, fs'.IsDirectory c ↔ fs.IsDirectory c)
    (hentry : fs'.entry = Function.update (Function.update fs.entry a none) b (some id)) :
    fs'.linkCount x kind + fs.share a id x kind = fs.linkCount x kind + fs.share b id x kind := by
  have hab : b ≠ a := by
    rintro rfl
    rw [ha] at hb
    cases hb
  obtain ⟨mid, hmid⟩ : ∃ mid : Filesystem, mid = { fs with entry := Function.update fs.entry a none } :=
    ⟨_, rfl⟩
  have hmid' : mid.entry = Function.update fs.entry a none := by rw [hmid]
  have hdir (c : InodeId) : fs.IsDirectory c ↔ mid.IsDirectory c := by rw [hmid]; rfl
  have hsub : { p | (mid.entry p).isSome }.Finite := by
    refine hfinite.subset fun p hp => ?_
    by_cases hpa : p = a
    · simp [hpa, ha]
    · simpa [hmid', hpa] using hp
  have hbefore : fs.linkCount x kind = mid.linkCount x kind + fs.share a id x kind := by
    refine linkCount_bind ?_ (by rw [hmid', Function.update_self]) hsub fun q c _ => hdir c
    rw [hmid', Function.update_idem, ← ha, Function.update_eq_self]
  have hafter : fs'.linkCount x kind = mid.linkCount x kind + fs'.share b id x kind := by
    refine linkCount_bind ?_ ?_ hsub fun q c _ => (hdirectory c).trans (hdir c)
    · rw [hmid', hentry]
    · rw [hmid', Function.update_of_ne hab, hb]
  have hshare : fs'.share b id x kind = fs.share b id x kind := by
    rw [share, share, show fs'.IsDirectory = fs.IsDirectory from funext fun c => propext (hdirectory c)]
  rw [hafter, hbefore, hshare]
  omega

end Counts

/-- An inode stays sound if its content and the number of its links stay. -/
theorem Sound.congr (h : fs.Sound x n) (hallocated : fs.allocated x → fs'.allocated x)
    (hcontent : fs'.content x = fs.content x)
    (hlinks : fs'.linkCount x n.kind = fs.linkCount x n.kind) : fs'.Sound x n := by
  refine ⟨h.valid, hallocated h.allocated, ?_, ?_⟩
  · rw [hcontent]
    exact h.content
  · rw [hlinks]
    exact h.links

section Attributes

/-- An inode that gets other attributes of the same kind. -/
theorem isDirectory_update (hn : fs.inode id = some n) (hkind : n'.kind = n.kind)
    (hinode : fs'.inode = Function.update fs.inode id (some n')) :
    fs'.IsDirectory x ↔ fs.IsDirectory x := by
  rw [isDirectory_iff, isDirectory_iff, hinode]
  by_cases hx : x = id
  · rw [hx, Function.update_self, hn, Option.map_some, Option.map_some, hkind]
  · rw [Function.update_of_ne hx]

theorem present_update (hn : fs.inode id = some n)
    (hinode : fs'.inode = Function.update fs.inode id (some n')) :
    fs'.Present x ↔ fs.Present x := by
  unfold Present
  rw [hinode]
  by_cases hx : x = id
  · rw [hx, Function.update_self, hn]
    simp
  · rw [Function.update_of_ne hx]

/-- New attributes and content of an inode. -/
theorem Consistent.rewrite (h : fs.Consistent) (hn : fs.inode id = some n) (hkind : n'.kind = n.kind)
    (hlinks : n'.links = n.links) (hvalid : n'.Valid false) (hholds : n'.Holds data)
    (hfs' : fs' = { fs with
      inode := Function.update fs.inode id (some n')
      content := Function.update fs.content id data }) : fs'.Consistent := by
  have hinode : fs'.inode = Function.update fs.inode id (some n') := by rw [hfs']
  have hcontent : fs'.content = Function.update fs.content id data := by rw [hfs']
  have hentry : fs'.entry = fs.entry := by rw [hfs']
  have hallocated : fs'.allocated = fs.allocated := by rw [hfs']
  have hdirectory (x : InodeId) : fs'.IsDirectory x ↔ fs.IsDirectory x :=
    isDirectory_update hn hkind hinode
  have hpresent (x : InodeId) : fs'.Present x ↔ fs.Present x := present_update hn hinode
  constructor
  case tree =>
    have htree := h.tree
    rw [← funext fun x => propext (hdirectory x), ← funext fun x => propext (hpresent x)] at htree
    rw [hentry, show fs'.root = fs.root by rw [hfs']]
    exact htree
  case name => rw [hentry]; exact h.name
  case inode =>
    intro x m hm
    by_cases hx : x = id
    · rw [hx, hinode, Function.update_self] at hm
      cases hm
      have hold := h.inode id n hn
      rw [hx]
      refine ⟨hvalid, ?_, ?_, ?_⟩
      · rw [hallocated]; exact hold.allocated
      · rw [hcontent, Function.update_self]; exact hholds
      · rw [linkCount_congr hentry hdirectory, hlinks, hkind]; exact hold.links
    · rw [hinode, Function.update_of_ne hx] at hm
      refine (h.inode x m hm).congr (by rw [hallocated]; exact fun h => h) ?_
        (linkCount_congr hentry hdirectory)
      rw [hcontent, Function.update_of_ne hx]
  case owned =>
    intro x hx
    have hne : x ≠ id := by
      rintro rfl
      rw [hinode, Function.update_self] at hx
      cases hx
    rw [hinode, Function.update_of_ne hne] at hx
    rw [hcontent, Function.update_of_ne hne]
    exact h.owned x hx

end Attributes

section Entries

/-- A new entry, for a new inode or a further one for an inode that is not a directory. -/
theorem Consistent.bind (h : fs.Consistent) (hp : fs.inode a.1 = some pn)
    (hdirectory : pn.kind = .directory) (hfree : fs.entry a = none) (hname : EntryName a.2)
    (hnew : n.kind = .directory → fs.inode id = none)
    (hkind : ∀ m, fs.inode id = some m → m.kind = n.kind) (hvalid : n.Valid false)
    (hholds : n.Holds data)
    (hlinks : n.links = fs.linkCount id n.kind + if n.kind = .directory then 0 else 1)
    (hpvalid : pn'.Valid false) (hpkind : pn'.kind = .directory)
    (hplinks : pn'.links = pn.links + if n.kind = .directory then 1 else 0)
    (hfs' : fs' = { fs with
      inode := Function.update (Function.update fs.inode id (some n)) a.1 (some pn')
      content := Function.update fs.content id data
      entry := Function.update fs.entry a (some id)
      allocated := Function.update fs.allocated id true }) : fs'.Consistent := by
  have hinode : fs'.inode = Function.update (Function.update fs.inode id (some n)) a.1 (some pn') := by
    rw [hfs']
  have hcontent : fs'.content = Function.update fs.content id data := by rw [hfs']
  have hentry : fs'.entry = Function.update fs.entry a (some id) := by rw [hfs']
  have hne : id ≠ a.1 := by
    rintro rfl
    rw [hnew ((hkind pn hp).symm.trans hdirectory)] at hp
    cases hp
  have hself : fs'.inode id = some n := by
    rw [hinode, Function.update_of_ne hne, Function.update_self]
  have hparent : fs'.inode a.1 = some pn' := by rw [hinode, Function.update_self]
  have hother (x : InodeId) (hx : x ≠ id) (hx' : x ≠ a.1) : fs'.inode x = fs.inode x := by
    rw [hinode, Function.update_of_ne hx', Function.update_of_ne hx]
  have hdir (x : InodeId) (hx : x ≠ id) : fs'.IsDirectory x ↔ fs.IsDirectory x := by
    by_cases hx' : x = a.1
    · subst hx'
      exact iff_of_true ⟨pn', hparent, hpkind⟩ ⟨pn, hp, hdirectory⟩
    · rw [isDirectory_iff, isDirectory_iff, hother x hx hx']
  have hpresent (x : InodeId) : fs'.Present x ↔ fs.Present x ∨ x = id := by
    by_cases hx : x = id
    · subst hx
      exact iff_of_true ⟨n, hself⟩ (.inr rfl)
    by_cases hx' : x = a.1
    · subst hx'
      exact iff_of_true ⟨pn', hparent⟩ (.inl ⟨pn, hp⟩)
    · rw [Present, Present, hother x hx hx']
      simp [hx]
  -- A directory with this identity would have been there before.
  have hfresh : fs.inode id = none → ∀ q, fs.entry q ≠ some id := by
    intro hnone q hq
    obtain ⟨m, hm⟩ := h.exists_inode hq
    rw [hnone] at hm
    cases hm
  have hfile : fs.IsDirectory id → False := by
    rintro ⟨m, hm, hmkind⟩
    rw [hnew ((hkind m hm).symm.trans hmkind)] at hm
    cases hm
  have hcount (x : InodeId) (kind : Kind) :
      fs'.linkCount x kind = fs.linkCount x kind + fs'.share a id x kind := by
    refine linkCount_bind hentry hfree h.tree.finite fun q c hq => ?_
    by_cases hc : c = id
    · subst hc
      refine iff_of_false ?_ hfile
      rintro ⟨m, hm, hmkind⟩
      rw [hself] at hm
      cases hm
      exact hfresh (hnew hmkind) q hq
    · exact hdir c hc
  constructor
  case tree =>
    rw [hentry, show fs'.root = fs.root by rw [hfs']]
    refine h.tree.bind ⟨pn, hp, hdirectory⟩ hfree (fun hr => hfile (h.tree.root_inner id hr)) ?_
      hpresent hdir fun hc => absurd hc hfile
    rintro ⟨m, hm, hmkind⟩
    rw [hself] at hm
    cases hm
    exact hfresh (hnew hmkind)
  case name =>
    intro p c hpc
    by_cases hpa : p = a
    · rw [hpa]
      exact hname
    · rw [hentry, Function.update_of_ne hpa] at hpc
      exact h.name p c hpc
  case inode =>
    have hallocated (x : InodeId) (hx : fs.allocated x) : fs'.allocated x := by
      rw [hfs']
      by_cases hxid : x = id
      · simp [hxid]
      · simpa [hxid] using hx
    intro x m hm
    by_cases hx : x = id
    · rw [hx, hself] at hm
      cases hm
      rw [hx]
      refine ⟨hvalid, by rw [hfs']; simp, ?_, ?_⟩
      · rw [hcontent, Function.update_self]
        exact hholds
      · rw [hlinks, hcount, share_self (Ne.symm hne)]
    by_cases hx' : x = a.1
    · rw [hx', hparent] at hm
      cases hm
      have hold := h.inode a.1 pn hp
      rw [hx']
      refine ⟨hpvalid, hallocated _ hold.allocated, ?_, ?_⟩
      · rw [hcontent, Function.update_of_ne (Ne.symm hne)]
        exact holds_of_directory hpkind (holds_directory hdirectory hold.content)
      · rw [hplinks, hpkind, hcount, hold.links, hdirectory, share_parent hself]
    · rw [hother x hx hx'] at hm
      refine (h.inode x m hm).congr (hallocated x) ?_ ?_
      · rw [hcontent, Function.update_of_ne hx]
      · rw [hcount, share_of_ne (Ne.symm hx') (Ne.symm hx), Nat.add_zero]
  case owned =>
    intro x hx
    have hxid : x ≠ id := by
      rintro rfl
      rw [hself] at hx
      cases hx
    have hxp : x ≠ a.1 := by
      rintro rfl
      rw [hparent] at hx
      cases hx
    rw [hother x hxid hxp] at hx
    rw [hcontent, Function.update_of_ne hxid]
    exact h.owned x hx

/-- An entry less, of an inode that is no directory with entries. Its record goes with the last
entry. -/
theorem Consistent.unbind {o : Option InodeInfo} (h : fs.Consistent) (hold : fs.entry a = some id)
    (hn : fs.inode id = some n) (hleaf : ∀ m, fs.entry (id, m) = none)
    (hp : fs.inode a.1 = some pn) (hpvalid : pn'.Valid false) (hpkind : pn'.kind = .directory)
    (hplinks : pn'.links + (if n.kind = .directory then 1 else 0) = pn.links)
    (hlast : o = none ↔ ∀ q, fs.entry q = some id → q = a) (hdata : o = none → data = none)
    (hkept : ∀ n', o = some n' →
      n'.kind = n.kind ∧ n'.Valid false ∧ n'.Holds data ∧ n'.links + 1 = n.links)
    (hfs' : fs' = { fs with
      inode := Function.update (Function.update fs.inode a.1 (some pn')) id o
      content := Function.update fs.content id data
      entry := Function.update fs.entry a none }) : fs'.Consistent := by
  have hinode : fs'.inode = Function.update (Function.update fs.inode a.1 (some pn')) id o := by
    rw [hfs']
  have hcontent : fs'.content = Function.update fs.content id data := by rw [hfs']
  have hentry : fs'.entry = Function.update fs.entry a none := by rw [hfs']
  have hdirectory : pn.kind = .directory := by
    obtain ⟨m, hm, hmkind⟩ := h.tree.source a id hold
    rw [hp] at hm
    cases hm
    exact hmkind
  have hne : a.1 ≠ id := by
    rintro rfl
    have hnone : fs.entry a = none := hleaf a.2
    rw [hold] at hnone
    cases hnone
  have hself : fs'.inode id = o := by rw [hinode, Function.update_self]
  have hparent : fs'.inode a.1 = some pn' := by
    rw [hinode, Function.update_of_ne hne, Function.update_self]
  have hother (x : InodeId) (hx : x ≠ id) (hx' : x ≠ a.1) : fs'.inode x = fs.inode x := by
    rw [hinode, Function.update_of_ne hx, Function.update_of_ne hx']
  -- A directory has only one entry, so its record goes.
  have hfile : ∀ q, q ≠ a → fs.entry q = some id → n.kind ≠ .directory := by
    intro q hqa hq hkind
    exact hqa (h.tree.single q a id hq hold ⟨n, hn, hkind⟩)
  have hgone : ¬ fs'.IsDirectory id := by
    rintro ⟨m, hm, hmkind⟩
    rw [hself] at hm
    have hnot : ¬ ∀ q, fs.entry q = some id → q = a := fun hall => by
      rw [hlast.mpr hall] at hm
      cases hm
    push Not at hnot
    obtain ⟨q, hq, hqa⟩ := hnot
    exact hfile q hqa hq ((hkept m hm).1.symm.trans hmkind)
  have hdir (x : InodeId) : fs'.IsDirectory x ↔ fs.IsDirectory x ∧ x ≠ id := by
    by_cases hx : x = id
    · subst hx
      exact iff_of_false hgone fun h => h.2 rfl
    by_cases hx' : x = a.1
    · subst hx'
      exact iff_of_true ⟨pn', hparent, hpkind⟩ ⟨⟨pn, hp, hdirectory⟩, hx⟩
    · rw [isDirectory_iff, isDirectory_iff, hother x hx hx']
      simp [hx]
  have hpresent (x : InodeId) (hx : x ≠ id) : fs'.Present x ↔ fs.Present x := by
    by_cases hx' : x = a.1
    · subst hx'
      exact iff_of_true ⟨pn', hparent⟩ ⟨pn, hp⟩
    · rw [Present, Present, hother x hx hx']
  have htree : Tree fs'.root fs'.entry fs'.Present fs'.IsDirectory := by
    rw [hentry, show fs'.root = fs.root by rw [hfs']]
    refine h.tree.unbind hold hleaf hpresent ?_ hdir
    rw [Present, hself]
    constructor
    · rintro ⟨m, hm⟩
      by_contra hnone
      push Not at hnone
      rw [hlast.mpr fun q hq => by_contra fun hqa => hnone q hqa hq] at hm
      cases hm
    · rintro ⟨q, hqa, hq⟩
      cases ho : o with
      | none => exact absurd (hlast.mp ho q hq) hqa
      | some m => exact ⟨m, rfl⟩
  have hcount (x : InodeId) (kind : Kind) :
      fs.linkCount x kind = fs'.linkCount x kind + fs.share a id x kind := by
    refine linkCount_bind ?_ (by rw [hentry, Function.update_self]) htree.finite fun q c hq => ?_
    · rw [hentry, Function.update_idem, ← hold, Function.update_eq_self]
    · by_cases hc : c = id
      · subst hc
        have hqa : q ≠ a := by
          rintro rfl
          rw [hentry, Function.update_self] at hq
          cases hq
        rw [hentry, Function.update_of_ne hqa] at hq
        refine iff_of_false ?_ hgone
        rintro ⟨m, hm, hmkind⟩
        rw [hn] at hm
        cases hm
        exact hfile q hqa hq hmkind
      · rw [hdir]
        simp [hc]
  constructor
  case tree => exact htree
  case name =>
    intro p c hpc
    have hpa : p ≠ a := by
      rintro rfl
      rw [hentry, Function.update_self] at hpc
      cases hpc
    rw [hentry, Function.update_of_ne hpa] at hpc
    exact h.name p c hpc
  case inode =>
    have hallocated : fs'.allocated = fs.allocated := by rw [hfs']
    intro x m hm
    by_cases hx : x = id
    · rw [hx, hself] at hm
      obtain ⟨hmkind, hvalid, hholds, hlinks⟩ := hkept m hm
      have hsound := h.inode id n hn
      have hkind : n.kind ≠ .directory := by
        intro hkind
        have hall : ∀ q, fs.entry q = some id → q = a :=
          fun q hq => by_contra fun hqa => hfile q hqa hq hkind
        rw [hlast.mpr hall] at hm
        cases hm
      rw [hx]
      refine ⟨hvalid, by rw [hallocated]; exact hsound.allocated, ?_, ?_⟩
      · rw [hcontent, Function.update_self]
        exact hholds
      · have hshare := hsound.links
        rw [hcount, share_self hne, if_neg hkind] at hshare
        rw [hmkind]
        omega
    by_cases hx' : x = a.1
    · rw [hx', hparent] at hm
      cases hm
      have hsound := h.inode a.1 pn hp
      rw [hx']
      refine ⟨hpvalid, by rw [hallocated]; exact hsound.allocated, ?_, ?_⟩
      · rw [hcontent, Function.update_of_ne hne]
        exact holds_of_directory hpkind (holds_directory hdirectory hsound.content)
      · have hshare := hsound.links
        rw [hdirectory, hcount, share_parent hn] at hshare
        rw [hpkind]
        omega
    · rw [hother x hx hx'] at hm
      refine (h.inode x m hm).congr (by rw [hallocated]; exact fun h => h) ?_ ?_
      · rw [hcontent, Function.update_of_ne hx]
      · rw [hcount x, share_of_ne (Ne.symm hx') (Ne.symm hx), Nat.add_zero]
  case owned =>
    intro x hx
    by_cases hxid : x = id
    · rw [hxid, hself] at hx
      rw [hxid, hcontent, Function.update_self]
      exact hdata hx
    have hxp : x ≠ a.1 := by
      rintro rfl
      rw [hparent] at hx
      cases hx
    rw [hother x hxid hxp] at hx
    rw [hcontent, Function.update_of_ne hxid]
    exact h.owned x hx

/-- An entry that moves into a directory which is not below its inode. The link counts of the two
directories follow a directory that moves. -/
theorem Consistent.move {b : InodeId × Bytes} (h : fs.Consistent) (ha : fs.entry a = some id)
    (hb : fs.entry b = none) (hn : fs.inode id = some n) (hname : EntryName b.2)
    (hdirectory : fs.IsDirectory b.1) (hbelow : ∀ above, fs.Chain b.1 above → id ∉ b.1 :: above)
    (hkept : ∀ x m, fs.inode x = some m → fs'.Present x)
    (hrecord : ∀ x m', fs'.inode x = some m' → ∃ m, fs.inode x = some m ∧ m'.kind = m.kind ∧
      m'.size = m.size ∧ m'.Valid false ∧
      m'.links + (if n.kind = .directory ∧ a.1 = x then 1 else 0) =
        m.links + if n.kind = .directory ∧ b.1 = x then 1 else 0)
    (hroot : fs'.root = fs.root) (hcontent : fs'.content = fs.content)
    (hallocated : fs'.allocated = fs.allocated)
    (hentry : fs'.entry = Function.update (Function.update fs.entry a none) b (some id)) :
    fs'.Consistent := by
  have hpresent (x : InodeId) : fs'.Present x ↔ fs.Present x := by
    constructor
    · rintro ⟨m', hm'⟩
      obtain ⟨m, hm, -⟩ := hrecord x m' hm'
      exact ⟨m, hm⟩
    · rintro ⟨m, hm⟩
      exact hkept x m hm
  have hdir (x : InodeId) : fs'.IsDirectory x ↔ fs.IsDirectory x := by
    constructor
    · rintro ⟨m', hm', hkind⟩
      obtain ⟨m, hm, hsame, -⟩ := hrecord x m' hm'
      exact ⟨m, hm, hsame.symm.trans hkind⟩
    · rintro ⟨m, hm, hkind⟩
      obtain ⟨m', hm'⟩ := hkept x m hm
      obtain ⟨m₁, hm₁, hsame, -⟩ := hrecord x m' hm'
      rw [hm] at hm₁
      cases hm₁
      exact ⟨m', hm', hsame.trans hkind⟩
  have htree : Tree fs'.root fs'.entry fs'.Present fs'.IsDirectory := by
    rw [hentry, hroot, funext fun x => propext (hpresent x), funext fun x => propext (hdir x)]
    exact h.tree.rebind ha hb hdirectory fun r above hr hchain => hbelow above ⟨r, hr, hchain⟩
  constructor
  case tree => exact htree
  case name =>
    intro p c hpc
    rw [hentry] at hpc
    by_cases hpb : p = b
    · rw [hpb]
      exact hname
    · rw [Function.update_of_ne hpb] at hpc
      by_cases hpa : p = a
      · rw [hpa, Function.update_self] at hpc
        cases hpc
      · rw [Function.update_of_ne hpa] at hpc
        exact h.name p c hpc
  case inode =>
    intro x m' hm'
    obtain ⟨m, hm, hkind, hsize, hvalid, hlinks⟩ := hrecord x m' hm'
    have hsound := h.inode x m hm
    refine ⟨hvalid, by rw [hallocated]; exact hsound.allocated, ?_, ?_⟩
    · rw [hcontent]
      exact hsound.content.congr hkind hsize
    · have hcount : fs'.linkCount x m.kind + fs.share a id x m.kind =
          fs.linkCount x m.kind + fs.share b id x m.kind :=
        linkCount_move ha hb h.tree.finite hdir hentry
      have hshares := share_eq ha hn h (b := b) hdirectory hm
      have hright := hsound.links
      rw [hkind]
      omega
  case owned =>
    intro x hx
    rw [hcontent]
    refine h.owned x ?_
    cases hm : fs.inode x with
    | none => rfl
    | some m =>
      obtain ⟨m', hm'⟩ := hkept x m hm
      rw [hx] at hm'
      cases hm'

end Entries

end Filesystem

end ForkFs
