import ForkFs.Namespace.Entries

/-!
# Renames

A rename moves one entry. What was at the new name loses an entry, and the subdirectory counts of
both parents follow. The directories stay a tree, as the new parent is not below what is moved.
-/

namespace ForkFs

open Bytes Outcome

/-- The links that an inode gives to its parent. -/
def InodeInfo.uplinks (n : InodeInfo) : ℕ := if n.kind = .directory then 1 else 0

namespace Filesystem

variable {fs : Filesystem} {src dst : Parent} {id old : InodeId} {n sn dn on : InodeInfo}
  {now now' now'' : UInt64} {above : List InodeId}

/-- A file system where an entry has moved. -/
def moved (fs : Filesystem) (src dst : Parent) (id : InodeId) (n sn dn : InodeInfo) : Filesystem :=
  { fs with
    inode := Function.update (Function.update (Function.update fs.inode id (some n)) src.id
      (some sn)) dst.id (some dn)
    entry := Function.update (Function.update fs.entry (src.id, src.name) none) (dst.id, dst.name)
      (some id) }

/-- The number of subdirectories that a move takes from one parent to another. -/
def shift (src dst : Parent) (n : InodeInfo) : ℕ :=
  if n.kind = .directory ∧ src.id ≠ dst.id then 1 else 0

theorem shift_le (src dst : Parent) (n : InodeInfo) : shift src dst n ≤ 1 := by
  unfold shift
  split <;> omega

/-- An inode is not its own parent. -/
theorem Consistent.ne_of_entry (h : fs.Consistent) (hentry : fs.entry (src.id, src.name) = some id) :
    id ≠ src.id := by
  obtain ⟨above, r, hr, hchain⟩ :=
    h.exists_chain (h.tree.inner_present _ (h.tree.source _ _ hentry))
  have hnodup := h.chain_nodup ⟨r, hr, hchain.edge hentry⟩
  simp only [List.nodup_cons, List.mem_cons, not_or] at hnodup
  exact hnodup.1.1

/-- Something that is not a directory is not above one. -/
theorem Consistent.not_mem_of_below (h : fs.Consistent) (hn : fs.inode id = some n)
    (hdst : fs.IsDirectory dst.id) (hchain : fs.Chain dst.id above)
    (hbelow : n.kind = .directory → id ∉ dst.id :: above) : id ∉ dst.id :: above := by
  by_cases hkind : n.kind = .directory
  · exact hbelow hkind
  · intro hmem
    refine not_isDirectory hn hkind ?_
    rcases List.mem_cons.mp hmem with rfl | hmem
    · exact hdst
    · exact h.isDirectory_of_mem hchain hmem

/-- The inodes after a move. -/
theorem moved_inode_eq_some {x : InodeId} {m : InodeInfo}
    (h : (fs.moved src dst id n sn dn).inode x = some m) :
    x = dst.id ∧ m = dn ∨ x ≠ dst.id ∧ x = src.id ∧ m = sn ∨
      x ≠ dst.id ∧ x ≠ src.id ∧ (x = id ∧ m = n ∨ x ≠ id ∧ fs.inode x = some m) := by
  simp only [moved, Function.update_apply] at h
  split at h
  · exact .inl ⟨‹_›, (Option.some.inj h).symm⟩
  · split at h
    · exact .inr (.inl ⟨‹_›, ‹_›, (Option.some.inj h).symm⟩)
    · refine .inr (.inr ⟨‹_›, ‹_›, ?_⟩)
      split at h
      · exact .inl ⟨‹_›, (Option.some.inj h).symm⟩
      · exact .inr ⟨‹_›, h⟩

/-- A move to a free name keeps a file system consistent. -/
theorem Consistent.moved (h : fs.Consistent) (hsrc : fs.entry (src.id, src.name) = some id)
    (hdst : fs.entry (dst.id, dst.name) = none) (hname : EntryName dst.name)
    (hn : fs.inode id = some n) (hsn : src.id ≠ dst.id → fs.inode src.id = some sn)
    (hdn : fs.inode dst.id = some dn) (hdirectory : dn.kind = .directory)
    (hchain : fs.Chain dst.id above) (hbelow : n.kind = .directory → id ∉ dst.id :: above)
    (hlinks : shift src dst n = 0 ∨ dn.links < 2 ^ 64 - 1) :
    (fs.moved src dst id { n with changedNs := now }
      ({ sn with links := sn.links - shift src dst n }.touch now')
      ({ dn with links := dn.links + shift src dst n }.touch now'')).Consistent := by
  have hid := h.not_mem_of_below hn ⟨dn, hdn, hdirectory⟩ hchain hbelow
  refine h.move (a := (src.id, src.name)) (b := (dst.id, dst.name)) hsrc hdst hn hname
    ⟨dn, hdn, hdirectory⟩ (fun above' hchain' => ?_) (fun x m hm => ?_) (fun x m' hm' => ?_) rfl rfl
    rfl rfl
  · rw [h.chain_unique ⟨dn, hdn, hdirectory⟩ hchain' hchain]
    exact hid
  · simp only [Present, Filesystem.moved, Function.update_apply]
    split
    · exact ⟨_, rfl⟩
    · split
      · exact ⟨_, rfl⟩
      · split
        · exact ⟨_, rfl⟩
        · exact ⟨m, hm⟩
  · obtain ⟨rfl, rfl⟩ | ⟨hxd, rfl, rfl⟩ | ⟨hxd, hxs, ⟨rfl, rfl⟩ | ⟨-, hm⟩⟩ := moved_inode_eq_some hm'
    · have hvalid := (h.inode dst.id dn hdn).valid
      have htwo := (hvalid.state.2 hdirectory).1
      have hle := shift_le src dst n
      have hlt := hvalid.links
      refine ⟨dn, hdn, rfl, rfl, hvalid.relink (by omega) (by omega) now'', ?_⟩
      change dn.links + shift src dst n + _ = _
      rw [shift]
      by_cases hkind : n.kind = .directory <;> by_cases heq : src.id = dst.id <;> simp [hkind, heq]
    · have hrecord := hsn hxd
      have hvalid := (h.inode src.id sn hrecord).valid
      have hlt := hvalid.links
      have hone : 2 + shift src dst n ≤ sn.links := by
        obtain ⟨m, hm, hskind⟩ := h.isDirectory_of_entry hsrc
        obtain rfl := Option.some.inj (hrecord.symm.trans hm)
        have htwo := (hvalid.state.2 hskind).1
        unfold shift
        split
        · rename_i hshift
          exact h.links_of_subdirectory hsrc ⟨n, hn, hshift.1⟩ hrecord
        · omega
      refine ⟨sn, hrecord, rfl, rfl, hvalid.relink (by omega) (by omega) now', ?_⟩
      change sn.links - shift src dst n + _ = _
      have hshift : shift src dst n = if n.kind = .directory then 1 else 0 := by
        simp [shift, hxd]
      simp only [Ne.symm hxd, and_true, and_false, if_false, ← hshift]
      omega
    · have hvalid := (h.inode x n hn).valid
      exact ⟨n, hn, rfl, rfl, ⟨hvalid.mode, hvalid.links, hvalid.size, hvalid.state⟩,
        by simp [Ne.symm hxd, Ne.symm hxs]⟩
    · exact ⟨m', hm, rfl, rfl, (h.inode x m' hm).valid, by simp [Ne.symm hxd, Ne.symm hxs]⟩

/-- A directory without entries is not above anything. -/
theorem Chain.not_mem_of_leaf (hchain : fs.Chain dst.id above)
    (hleaf : ∀ m, fs.entry (old, m) = none) : old ∉ above := by
  obtain ⟨r, -, hchain⟩ := hchain
  intro hmem
  have hsource : ∃ m c, fs.entry (old, m) = some c :=
    hchain.source_of_mem (P := fun x => ∃ m c, fs.entry (x, m) = some c)
      (fun p c hp => ⟨p.2, c, hp⟩) hmem
  obtain ⟨m, c, hm⟩ := hsource
  rw [hleaf m] at hm
  cases hm

/-- A move to the name of something else keeps a file system consistent. -/
theorem Consistent.moved_over {now₀ : UInt64} (h : fs.Consistent)
    (hsrc : fs.entry (src.id, src.name) = some id)
    (hdst : fs.entry (dst.id, dst.name) = some old) (hne : old ≠ id)
    (hon : fs.inode old = some on) (hleaf : ∀ m, fs.entry (old, m) = none)
    (hn : fs.inode id = some n) (hsn : fs.inode src.id = some sn) (hdn : fs.inode dst.id = some dn)
    (hchain : fs.Chain dst.id above) (hbelow : n.kind = .directory → id ∉ dst.id :: above)
    (hlinks : shift src dst n = 0 ∨ dn.links - on.uplinks < 2 ^ 64 - 1) :
    ((fs.dropped old (on.unlinked now₀)).moved src dst id { n with changedNs := now }
      ({ sn with links := sn.links - shift src dst n }.touch now')
      ({ dn with links := dn.links - on.uplinks + shift src dst n }.touch now'')).Consistent := by
  obtain ⟨m, hm, hdirectory⟩ := h.isDirectory_of_entry hdst
  obtain rfl := Option.some.inj (hdn.symm.trans hm)
  have hid := h.not_mem_of_below hn ⟨dn, hdn, hdirectory⟩ hchain hbelow
  have hidd : id ≠ dst.id := fun heq => hid (heq ▸ List.mem_cons_self)
  have hold : old ∉ dst.id :: above :=
    List.not_mem_cons_of_ne_of_not_mem (h.ne_of_entry hdst) (hchain.not_mem_of_leaf hleaf)
  have hsold : src.id ≠ old := by
    intro heq
    rw [heq, hleaf src.name] at hsrc
    cases hsrc
  have hnames : (src.id, src.name) ≠ (dst.id, dst.name) := by
    intro heq
    rw [heq, hdst] at hsrc
    exact hne (Option.some.inj hsrc)
  -- The entry at the new name is taken away first.
  have hremoved : (fs.removed dst old (on.unlinked now₀)
      { dn with links := dn.links - on.uplinks }).Consistent := by
    refine h.removed hdst hon hleaf hdn rfl rfl rfl ?_
    unfold InodeInfo.uplinks
    split <;> rfl
  have hchain' : (fs.removed dst old (on.unlinked now₀)
      { dn with links := dn.links - on.uplinks }).Chain dst.id above := by
    obtain ⟨r, hr, hway⟩ := hchain
    refine ⟨r, hr, hway.avoid hold fun q y hy hq => ?_⟩
    rw [← hq]
    refine Function.update_of_ne ?_ _ _
    rintro rfl
    exact hy (Option.some.inj (hq.symm.trans hdst))
  have hn' : (fs.removed dst old (on.unlinked now₀)
      { dn with links := dn.links - on.uplinks }).inode id = some n := by
    simp [Filesystem.removed, Ne.symm hne, hidd, hn]
  have hdn' : (fs.removed dst old (on.unlinked now₀)
      { dn with links := dn.links - on.uplinks }).inode dst.id =
        some { dn with links := dn.links - on.uplinks } := by
    simp [Filesystem.removed, Ne.symm (h.ne_of_entry hdst)]
  have hsn' (hparents : src.id ≠ dst.id) : (fs.removed dst old (on.unlinked now₀)
      { dn with links := dn.links - on.uplinks }).inode src.id = some sn := by
    simp [Filesystem.removed, hsold, hparents, hsn]
  have hresult : ((fs.removed dst old (on.unlinked now₀)
      { dn with links := dn.links - on.uplinks }).moved src dst id { n with changedNs := now }
        ({ sn with links := sn.links - shift src dst n }.touch now')
        ({ dn with links := dn.links - on.uplinks + shift src dst n }.touch now'')).Consistent :=
    hremoved.moved ((Function.update_of_ne hnames _ _).trans hsrc) (Function.update_self _ _ _)
      (h.name _ _ hdst) hn' hsn' hdn' hdirectory hchain' hbelow hlinks
  refine Eq.mp (congrArg Filesystem.Consistent ?_) hresult
  refine Filesystem.ext rfl ?_ rfl ?_ rfl
  · funext x
    by_cases hx : x = dst.id <;>
      simp [Filesystem.moved, Filesystem.removed, Filesystem.dropped, Function.update_apply, hx]
  · funext q
    by_cases hq : q = (dst.id, dst.name) <;>
      simp [Filesystem.moved, Filesystem.removed, Filesystem.dropped, Function.update_apply, hq]

end Filesystem

namespace NamespaceView

open Filesystem

variable {v : NamespaceView} {fs : Filesystem} {env : Env} {view source target : Bytes}
  {opened : InodeId → Bool} {old : InodeId} {on : InodeInfo} {kind : Kind} {edits : List Edit}

/-- The last steps of a rename: the entries, the inode and the parents. -/
def place (env : Env) (src dst : Parent) (id : InodeId) (n sn dn : InodeInfo) (old : List Edit)
    (lost : ℕ) : Except String (Effect Unit) := do
  need (shift src dst n = 0 ∨ dn.links - lost < 2 ^ 64 - 1) "directory link count exhausted"
  let parents : List Edit :=
    if src.id = dst.id then
      [.inode dst.id (some ({ dn with links := dn.links - lost }.touch (env.clock 0)))]
    else
      [.inode src.id (some ({ sn with links := sn.links - shift src dst n }.touch (env.clock 0))),
        .inode dst.id (some ({ dn with links := dn.links - lost + shift src dst n }.touch
          (env.clock 1)))]
  return ⟨old ++ [.entry src.id src.name none, .entry dst.id dst.name (some id),
    .inode id (some { n with changedNs := env.clock 2 })] ++ parents, none, ()⟩

/-- They move the entry. -/
theorem place_eq_ok {src dst : Parent} {id : InodeId} {n sn dn : InodeInfo} {lost : ℕ}
    {e : Effect Unit} (h : place env src dst id n sn dn edits lost = .ok e) :
    (shift src dst n = 0 ∨ dn.links - lost < 2 ^ 64 - 1) ∧ e.created = none ∧
      ∃ rest, e.edits = edits ++ rest ∧ (∀ fs : Filesystem, fs.applyAll rest =
        fs.moved src dst id { n with changedNs := env.clock 2 }
          ({ sn with links := sn.links - shift src dst n }.touch (env.clock 0))
          ({ dn with links := dn.links - lost + shift src dst n }.touch
            (if src.id = dst.id then env.clock 0 else env.clock 1))) ∧
        ∀ world (o : Orphans), o.applyAll world rest = o := by
  obtain ⟨hlinks, h⟩ := need_bind_eq_ok.mp h
  cases h
  refine ⟨hlinks, rfl, _, List.append_assoc _ _ _, fun fs => ?_, fun world o => ?_⟩
  swap
  · by_cases hparents : src.id = dst.id
    · rw [if_pos hparents]
      rfl
    · rw [if_neg hparents]
      rfl
  by_cases hparents : src.id = dst.id
  · have hshift : shift src dst n = 0 := by simp [shift, hparents]
    rw [if_pos hparents, if_pos hparents, hshift, moved, hparents, Function.update_idem]
    rfl
  · rw [if_neg hparents, if_neg hparents]
    rfl

namespace Pictures

/-- What can be replaced by a rename. -/
theorem replaced_eq_ok (hv : v.Pictures fs) (hfs : fs.Consistent) (hon : fs.inode old = some on)
    (h : v.replaced env view opened old on kind = .ok edits) :
    (on.kind = .directory ↔ kind = .directory) ∧ (∀ m, fs.entry (old, m) = none) ∧
      v.unlink env view opened old on = .ok edits := by
  obtain ⟨hkinds, h⟩ := need_bind_eq_ok.mp h
  by_cases hkind : on.kind = .directory
  · rw [if_pos hkind] at h
    obtain ⟨entries, hentries, h⟩ := bind_eq_ok.mp h
    obtain ⟨hnil, h⟩ := need_bind_eq_ok.mp h
    rw [hnil] at hentries
    exact ⟨hkinds, hv.entry_of_keys hentries, h⟩
  · rw [if_neg hkind] at h
    exact ⟨hkinds, hfs.entry_eq_none (Consistent.not_isDirectory hon hkind), h⟩

/-- What a rename finds and edits. -/
theorem rename_eq_ok (hv : v.Pictures fs) (hfs : fs.Consistent) {e : Effect Unit}
    (h : v.rename env view opened source target = .ok e) :
    ∃ src dst id n, fs.Names source src ∧ fs.Names target dst ∧
      fs.entry (src.id, src.name) = some id ∧ fs.inode id = some n ∧ e.created = none ∧
      (fs.entry (dst.id, dst.name) = some id ∧ e.edits = [] ∨
        ∃ sn dn above old lost rest, fs.inode src.id = some sn ∧ fs.inode dst.id = some dn ∧
          fs.Chain dst.id above ∧ (n.kind = .directory → id ∉ dst.id :: above) ∧
          (shift src dst n = 0 ∨ dn.links - lost < 2 ^ 64 - 1) ∧ e.edits = old ++ rest ∧
          (∀ fs : Filesystem, fs.applyAll rest =
            fs.moved src dst id { n with changedNs := env.clock 2 }
              ({ sn with links := sn.links - shift src dst n }.touch (env.clock 0))
              ({ dn with links := dn.links - lost + shift src dst n }.touch
                (if src.id = dst.id then env.clock 0 else env.clock 1))) ∧
          (∀ world (o : Orphans), o.applyAll world e.edits = o.applyAll world old) ∧
          (fs.entry (dst.id, dst.name) = none ∧ old = [] ∧ lost = 0 ∨
            ∃ other on, fs.entry (dst.id, dst.name) = some other ∧ other ≠ id ∧
              fs.inode other = some on ∧ (on.kind = .directory ↔ n.kind = .directory) ∧
              (∀ m, fs.entry (other, m) = none) ∧ lost = on.uplinks ∧
              v.unlink env view opened other on = .ok old)) := by
  obtain ⟨⟨src, up⟩, hsrc, h⟩ := bind_eq_ok.mp h
  obtain ⟨hsource, -⟩ := hv.parent_eq_ok hfs hsrc
  obtain ⟨found, hfound, h⟩ := bind_eq_ok.mp h
  obtain ⟨-, h⟩ := need_bind_eq_ok.mp h
  obtain ⟨id, hid, h⟩ := bind_eq_ok.mp h
  obtain ⟨n, hn, h⟩ := bind_eq_ok.mp h
  obtain ⟨⟨dst, ancestry⟩, hdst, h⟩ := bind_eq_ok.mp h
  obtain ⟨htarget, above, hancestry, hchain⟩ := hv.parent_eq_ok hfs hdst
  rw [hv.child_eq_ok] at hid
  rw [hv.inode_eq_ok] at hn
  change (if src.id = dst.id ∧ src.name = dst.name then _ else _) = _ at h
  by_cases hsame : src.id = dst.id ∧ src.name = dst.name
  · rw [if_pos hsame] at h
    cases h
    refine ⟨src, dst, id, n, hsource, htarget, hid, hn, rfl, .inl ⟨?_, rfl⟩⟩
    rw [← hsame.1, ← hsame.2]
    exact hid
  · rw [if_neg hsame] at h
    obtain ⟨hbelow, h⟩ := need_bind_eq_ok.mp h
    obtain ⟨sn, hsn, h⟩ := bind_eq_ok.mp h
    obtain ⟨dn, hdn, h⟩ := bind_eq_ok.mp h
    obtain ⟨taken, htaken, h⟩ := bind_eq_ok.mp h
    rw [hancestry] at hbelow
    rw [hv.inode_eq_ok] at hsn hdn
    cases taken with
    | false =>
      have hplace : place env src dst id n sn dn [] 0 = .ok e := h
      obtain ⟨hlinks, hcreated, rest, hedits, happly, hplain⟩ := place_eq_ok hplace
      exact ⟨src, dst, id, n, hsource, htarget, hid, hn, hcreated, .inr ⟨sn, dn, above, [], 0, rest,
        hsn, hdn, hchain, hbelow, hlinks, hedits, happly, fun world o => hedits ▸ hplain world o,
        .inl ⟨hv.contains_eq_false.mp htaken, rfl, rfl⟩⟩⟩
    | true =>
      obtain ⟨other, hother, h⟩ := bind_eq_ok.mp h
      have hrest : (if some other = some id then return ⟨[], none, ()⟩
        else do
          let on ← v.inode other
          let old ← v.replaced env view opened other on n.kind
          place env src dst id n sn dn old on.uplinks) = Except.ok e := h
      rw [hv.child_eq_ok] at hother
      by_cases heq : some other = some id
      · rw [if_pos heq] at hrest
        cases hrest
        exact ⟨src, dst, id, n, hsource, htarget, hid, hn, rfl, .inl ⟨hother.trans heq, rfl⟩⟩
      · rw [if_neg heq] at hrest
        obtain ⟨on, hon, hrest⟩ := bind_eq_ok.mp hrest
        obtain ⟨old, hreplaced, hrest⟩ := bind_eq_ok.mp hrest
        rw [hv.inode_eq_ok] at hon
        obtain ⟨hkinds, hleaf, hunlink⟩ := hv.replaced_eq_ok hfs hon hreplaced
        obtain ⟨hlinks, hcreated, rest, hedits, happly, hplain⟩ := place_eq_ok hrest
        refine ⟨src, dst, id, n, hsource, htarget, hid, hn, hcreated, .inr ⟨sn, dn, above, old,
          on.uplinks, rest, hsn, hdn, hchain, hbelow, hlinks, hedits, happly, fun world o => ?_,
          .inr ⟨other, on, hother, fun heq' => heq (heq' ▸ rfl), hon, hkinds, hleaf, rfl, hunlink⟩⟩⟩
        rw [hedits, Orphans.applyAll_append, hplain]

end Pictures

end NamespaceView

end ForkFs
