import ForkFs.Container.OpenFiles

/-!
# The edits of operations

What the edits of an operation do to a World with open files: it stays consistent, and its orphans
stay its open files without an inode. There is one lemma for each operation.
-/

namespace ForkFs

open Bytes Outcome

section Evolution

/-- The edits of an operation keep a World consistent and its orphans right, and leave the orphans
of other Worlds alone. -/
structure Evolves (world : Bytes) (opened : InodeId → Bool) (fs : Filesystem) (o : Orphans)
    (edits : List Edit) : Prop where
  /-- The World stays consistent. -/
  consistent : (fs.applyAll edits).Consistent
  /-- Its orphans stay right. -/
  right : (o.applyAll world edits).Right opened (fs.applyAll edits)
  /-- Others do not change. -/
  others : ∀ w ≠ world, ∀ o' : Orphans, o'.applyAll w edits = o'

/-- The inode of an orphan with another mode, size and other times. -/
theorem InodeInfo.Valid.orphan {n n' : InodeInfo} (h : n.Valid true)
    (hmode : n'.mode ≤ 0o777) (hkind : n'.kind = n.kind) (hlinks : n'.links = n.links)
    (hlimit : n'.size ≤ 256 * 1024) : n'.Valid true := by
  obtain ⟨hfile, hzero⟩ := h.state.1
  have hfile' : n'.kind = .file := hkind.trans hfile
  refine ⟨hmode, hlinks ▸ h.links, by omega, ⟨hfile', hlinks.trans hzero⟩, fun hdirectory => ?_⟩
  rw [hfile'] at hdirectory
  cases hdirectory

namespace Filesystem

variable {fs : Filesystem} {p src dst : Parent} {id x : InodeId} {n m pn pn' sn sn' dn dn' : InodeInfo}
  {data : Option Bytes}

/-- A record of the same kind keeps the kinds of inodes. -/
theorem kind_update {f : InodeId → Option InodeInfo} (h : (f id).map InodeInfo.kind = some n.kind)
    (x : InodeId) :
    (Function.update f id (some n) x).map InodeInfo.kind = (f x).map InodeInfo.kind := by
  by_cases hx : x = id
  · subst hx
    rw [Function.update_self, h, Option.map_some]
  · rw [Function.update_of_ne hx]

/-- A new entry keeps the kinds of inodes. -/
theorem kind_created (hid : fs.allocated id = false ∨ fs.inode id = some m ∧ n.kind = m.kind)
    (hpn : fs.inode p.id = some pn) (hpid : p.id ≠ id) (hkind : pn'.kind = pn.kind)
    (hx : fs.allocated x = true) :
    ((fs.created p id n data pn').inode x).map InodeInfo.kind = (fs.inode x).map InodeInfo.kind := by
  refine (kind_update ?_ x).trans ?_
  · rw [Function.update_of_ne hpid, hpn, Option.map_some, hkind]
  · rcases hid with hfree | ⟨hm, hsame⟩
    · have hne : x ≠ id := by
        rintro rfl
        rw [hx] at hfree
        cases hfree
      rw [Function.update_of_ne hne]
    · exact kind_update (by rw [hm, Option.map_some, hsame]) x

/-- So do new attributes and content. -/
theorem kind_rewritten (hm : fs.inode id = some m) (hkind : n.kind = m.kind) (x : InodeId) :
    ((fs.rewritten id n data).inode x).map InodeInfo.kind = (fs.inode x).map InodeInfo.kind :=
  kind_update (by rw [hm, Option.map_some, hkind]) x

/-- So does a moved entry. -/
theorem kind_moved (hm : fs.inode id = some m) (hkind : n.kind = m.kind)
    (hsn : fs.inode src.id = some sn) (hskind : sn'.kind = sn.kind)
    (hdn : fs.inode dst.id = some dn) (hdkind : dn'.kind = dn.kind) (x : InodeId) :
    ((fs.moved src dst id n sn' dn').inode x).map InodeInfo.kind =
      (fs.inode x).map InodeInfo.kind := by
  have hfirst (y : InodeId) : (Function.update fs.inode id (some n) y).map InodeInfo.kind =
      (fs.inode y).map InodeInfo.kind := kind_update (by rw [hm, Option.map_some, hkind]) y
  have hsecond (y : InodeId) : (Function.update (Function.update fs.inode id (some n)) src.id
      (some sn') y).map InodeInfo.kind = (fs.inode y).map InodeInfo.kind :=
    (kind_update (by rw [hfirst, hsn, Option.map_some, hskind]) y).trans (hfirst y)
  exact (kind_update (by rw [hsecond, hdn, Option.map_some, hdkind]) x).trans (hsecond x)

/-- So does a removed entry, apart from the inode that loses it. -/
theorem kind_removed {o : Option InodeInfo} (hne : p.id ≠ id) (hpn : fs.inode p.id = some pn)
    (hkind : pn'.kind = pn.kind) (x : InodeId) :
    ((fs.removed p id o pn').inode x).map InodeInfo.kind =
      ((fs.dropped id o).inode x).map InodeInfo.kind := by
  have hcomm : (fs.removed p id o pn').inode =
      Function.update (fs.dropped id o).inode p.id (some pn') := Function.update_comm hne _ _ _
  have hparent : (fs.dropped id o).inode p.id = some pn := (Function.update_of_ne hne _ _).trans hpn
  rw [hcomm]
  exact kind_update (by rw [hparent, Option.map_some, hkind]) x

theorem allocated_created (hx : fs.allocated x = true) :
    (fs.created p id n data pn').allocated x = true := by
  change Function.update fs.allocated id true x = true
  by_cases heq : x = id
  · rw [heq, Function.update_self]
  · rw [Function.update_of_ne heq, hx]

end Filesystem

namespace Evolves

open Filesystem

variable {fs : Filesystem} {o : Orphans} {v : NamespaceView} {world : Bytes}
  {opened : InodeId → Bool} {env : Env} {edits : List Edit} {path source target value : Bytes}

/-- Edits that leave the orphans alone. -/
theorem plain (ho : o.Right opened fs) (hconsistent : (fs.applyAll edits).Consistent)
    (hallocated : ∀ x, fs.allocated x = true → (fs.applyAll edits).allocated x = true)
    (hkinds : ∀ x, fs.allocated x = true →
      ((fs.applyAll edits).inode x).map InodeInfo.kind = (fs.inode x).map InodeInfo.kind)
    (hplain : ∀ w (o : Orphans), o.applyAll w edits = o) : Evolves world opened fs o edits := by
  refine ⟨hconsistent, ?_, fun w _ o' => hplain w o'⟩
  rw [hplain]
  exact ho.keep hallocated hkinds

/-- No edits. -/
theorem nothing (ho : o.Right opened fs) (hfs : fs.Consistent) : Evolves world opened fs o [] :=
  plain ho hfs (fun _ hx => hx) (fun _ _ => rfl) fun _ _ => rfl

theorem fsInit (ho : o.Right opened fs) (hv : v.Pictures fs) {e : Effect Unit}
    (h : v.fsInit env = .ok e) : Evolves world opened fs o e.edits := by
  obtain ⟨rfl, id, rfl⟩ := hv.fsInit_eq_ok h
  exact plain ho (consistent_root id _ _) (fun x => nofun) (fun x => nofun) fun _ _ => rfl

/-- Edits that make an entry of a new inode. -/
theorem created {p : Parent} {id : InodeId} {n pn pn' : InodeInfo} {data : Option Bytes}
    (ho : o.Right opened fs) (hconsistent : (fs.created p id n data pn').Consistent)
    (happly : fs.applyAll edits = fs.created p id n data pn') (hid : fs.inode id = none)
    (hfree : fs.allocated id = false) (hpn : fs.inode p.id = some pn) (hkind : pn'.kind = pn.kind)
    (hplain : ∀ w (o : Orphans), o.applyAll w edits = o) : Evolves world opened fs o edits := by
  have hpid : p.id ≠ id := by
    rintro rfl
    rw [hid] at hpn
    cases hpn
  rw [← happly] at hconsistent
  refine plain ho hconsistent ?_ ?_ hplain <;> rw [happly]
  · exact fun x => allocated_created
  · exact fun x => kind_created (m := n) (.inl hfree) hpn hpid hkind

theorem mkdir (ho : o.Right opened fs) (hv : v.Pictures fs) (hfs : fs.Consistent) {mode : ℕ}
    (hmode : mode ≤ 0o777) {e : Effect Unit} (h : v.mkdir env path mode = .ok e) :
    Evolves world opened fs o e.edits := by
  obtain ⟨p, id, pn, hnames, hfree, hid, hallocated, hpn, hlinks, -, happly, hplain⟩ :=
    hv.mkdir_eq_ok hfs h
  obtain ⟨m, hm, hdirectory⟩ := hnames.1
  obtain rfl := Option.some.inj (hpn.symm.trans hm)
  exact created ho (hfs.created_directory hid hpn hdirectory hfree hnames.entryName rfl hmode rfl rfl
    hlinks _) happly hid hallocated hpn rfl hplain

theorem symlink (ho : o.Right opened fs) (hv : v.Pictures fs) (hfs : fs.Consistent)
    {names : List Bytes} (htarget : targetComponents target = .ok names) {e : Effect Unit}
    (h : v.symlink env target path = .ok e) : Evolves world opened fs o e.edits := by
  obtain ⟨p, id, pn, hnames, hfree, hid, hallocated, hpn, -, happly, hplain⟩ :=
    hv.symlink_eq_ok hfs h
  obtain ⟨m, hm, hdirectory⟩ := hnames.1
  obtain rfl := Option.some.inj (hpn.symm.trans hm)
  have hlength : target.length ≤ 4096 := (need_bind_eq_ok.mp htarget).1.2
  have hleaf : (fs.created p id ⟨.symlink, 0o777, 1, target.length, env.clock 0, env.clock 1⟩
      (some target) (pn.touch (env.clock 2))).Consistent :=
    hfs.created_leaf hid hpn hdirectory hfree hnames.entryName nofun (le_refl _) rfl
      (show target.length < 2 ^ 64 by omega) ⟨target, names, rfl, rfl, htarget⟩
  exact created ho hleaf happly hid hallocated hpn rfl hplain

/-- A new file where a path ends keeps a file system consistent. -/
theorem consistent_file {p : Parent} {id : InodeId} {pn : InodeInfo} {mode : ℕ}
    {modified changed now : UInt64} (hfs : fs.Consistent) (value : Bytes) (hmissing : fs.Missing path p)
    (hid : fs.inode id = none) (hpn : fs.inode p.id = some pn) (hmode : mode ≤ 0o777)
    (hsize : value.length ≤ 256 * 1024) :
    (fs.created p id ⟨.file, mode, 1, value.length, modified, changed⟩ (some value)
      (pn.touch now)).Consistent := by
  obtain ⟨⟨m, hm, hdirectory⟩, hfree, hname⟩ := hmissing.spec hfs
  obtain rfl := Option.some.inj (hpn.symm.trans hm)
  exact hfs.created_leaf hid hpn hdirectory hfree hname nofun hmode rfl
    (show value.length < 2 ^ 64 by omega) ⟨value, rfl, rfl, hsize⟩

theorem write (ho : o.Right opened fs) (hv : v.Pictures fs) (hfs : fs.Consistent)
    (hsize : value.length ≤ fileLimit) {e : Effect Unit} (h : v.write env path value = .ok e) :
    Evolves world opened fs o e.edits := by
  rcases hv.write_eq_ok hfs h with ⟨id, n, -, hn, hkind, -, hedits⟩ |
    ⟨p, id, pn, hmissing, hid, hallocated, hpn, -, happly, hplain⟩
  · have happly : fs.applyAll e.edits = fs.rewritten id
        ({ n with size := value.length }.touch (env.clock 0)) (some value) := by
      rw [hedits]
      rfl
    refine plain ho ?_ ?_ ?_ ?_
    · rw [happly]
      exact hfs.rewritten_file hn hkind hkind rfl (hfs.inode id n hn).valid.mode rfl hsize
    · rw [happly]
      exact fun x hx => hx
    · rw [happly]
      exact fun x _ => kind_rewritten hn (by rfl) x
    · rw [hedits]
      exact fun _ _ => rfl
  · exact created ho (consistent_file hfs _ hmissing hid hpn (by decide) hsize) happly hid hallocated hpn
      rfl hplain

theorem link (ho : o.Right opened fs) (hv : v.Pictures fs) (hfs : fs.Consistent) {e : Effect Unit}
    (h : v.link env source target = .ok e) : Evolves world opened fs o e.edits := by
  obtain ⟨p, id, n, pn, -, hn, hkind, hnames, hfree, hlinks, hpn, -, happly, hplain⟩ :=
    hv.link_eq_ok hfs h
  obtain ⟨m, hm, hdirectory⟩ := hnames.1
  obtain rfl := Option.some.inj (hpn.symm.trans hm)
  have hpid : p.id ≠ id := by
    rintro rfl
    obtain rfl := Option.some.inj (hn.symm.trans hpn)
    exact hkind hdirectory
  have hconsistent := hfs.created_link hn hkind hpn hdirectory hfree hnames.entryName hlinks
    (env.clock 0) (env.clock 1)
  rw [← happly] at hconsistent
  refine plain ho hconsistent ?_ ?_ hplain <;> rw [happly]
  · exact fun x => allocated_created
  · exact fun x => kind_created (m := n) (.inr ⟨hn, by rfl⟩) hpn hpid (by rfl)

/-- Edits of an inode that loses an entry, and more that keep the kinds of inodes. -/
theorem unlinked {id : InodeId} {n : InodeInfo} {old : List Edit} (ho : o.Right opened fs)
    (hv : v.Pictures fs) (hfs : fs.Consistent) (hn : fs.inode id = some n)
    (hunlink : v.unlink env world opened id n = .ok old)
    (horphans : ∀ w (o : Orphans), o.applyAll w edits = o.applyAll w old)
    (hconsistent : (fs.applyAll edits).Consistent)
    (hallocated : ∀ x, fs.allocated x = true → (fs.applyAll edits).allocated x = true)
    (hkinds : ∀ x, fs.allocated x = true → ((fs.applyAll edits).inode x).map InodeInfo.kind =
      ((fs.dropped id (n.unlinked (env.clock 3))).inode x).map InodeInfo.kind) :
    Evolves world opened fs o edits := by
  refine ⟨hconsistent, ?_, fun w hw o' => ?_⟩
  · rw [horphans]
    exact (ho.unlink hv hfs hn hunlink).keep hallocated hkinds
  · rw [horphans]
    rcases orphans_of_unlink hunlink with ⟨-, hplain⟩ | ⟨-, -, -, data, -, horphan⟩
    · exact hplain w o'
    · rw [horphan, if_neg (Ne.symm hw)]

theorem remove (ho : o.Right opened fs) (hv : v.Pictures fs) (hfs : fs.Consistent)
    {directory : Bool} {e : Effect Unit} (h : v.remove env world opened path directory = .ok e) :
    Evolves world opened fs o e.edits := by
  obtain ⟨p, id, n, pn, old, -, hentry, hn, hpn, hkind, hleaf, -, hunlink, happly, horphans⟩ :=
    hv.remove_eq_ok hfs h
  have hne : p.id ≠ id := Ne.symm (hfs.ne_of_entry hentry)
  have hlinks : ((if directory then { pn with links := pn.links - 1 } else pn).touch
      (env.clock 0)).links = if n.kind = .directory then pn.links - 1 else pn.links := by
    cases directory <;> simp [hkind, InodeInfo.touch]
  have hkeeps : ∀ {α : Type} (f : InodeInfo → α), (∀ m now, f (m.touch now) = f m) →
      (∀ links, f { pn with links := links } = f pn) →
      f ((if directory then { pn with links := pn.links - 1 } else pn).touch (env.clock 0)) =
        f pn := by
    intro α f htouch hset
    rw [htouch]
    cases directory with
    | true => exact hset _
    | false => rfl
  refine unlinked ho hv hfs hn hunlink horphans ?_ ?_ ?_ <;> rw [happly]
  · exact hfs.removed hentry hn hleaf hpn (hkeeps InodeInfo.kind (fun _ _ => rfl) fun _ => rfl)
      (hkeeps InodeInfo.mode (fun _ _ => rfl) fun _ => rfl)
      (hkeeps InodeInfo.size (fun _ _ => rfl) fun _ => rfl) hlinks
  · exact fun x hx => hx
  · exact fun x _ => kind_removed hne hpn (hkeeps InodeInfo.kind (fun _ _ => rfl) fun _ => rfl) x

theorem replaceFile (ho : o.Right opened fs) (hv : v.Pictures fs) (hfs : fs.Consistent)
    (hsize : value.length ≤ fileLimit) {e : Effect Unit}
    (h : v.replaceFile env world opened path value = .ok e) : Evolves world opened fs o e.edits := by
  obtain ⟨p, id, pn, hnames, hid, hallocated, hpn, -, ⟨hfree, happly, hplain⟩ |
    ⟨old, n, edits, hold, hn, hkind, hunlink, happly, horphans⟩⟩ := hv.replaceFile_eq_ok hfs h
  · exact created ho (consistent_file hfs _ (hnames.missing hfree) hid hpn (by decide) hsize) happly hid
      hallocated hpn rfl hplain
  · have hmode : (if n.kind = .symlink then 0o644 else n.mode) ≤ 0o777 := by
      split
      · decide
      · exact (hfs.inode old n hn).valid.mode
    have hpold : p.id ≠ old := Ne.symm (hfs.ne_of_entry hold)
    have hpid : p.id ≠ id := by
      rintro rfl
      rw [hid] at hpn
      cases hpn
    have hparent : (fs.dropped old (n.unlinked (env.clock 3))).inode p.id = some pn :=
      (Function.update_of_ne hpold _ _).trans hpn
    have hunused : (fs.dropped old (n.unlinked (env.clock 3))).allocated id = false := hallocated
    refine unlinked ho hv hfs hn hunlink horphans ?_ ?_ ?_ <;> rw [happly]
    · exact hfs.replaced hid hpn hnames.entryName hold hn hkind hmode hsize
    · intro x hx
      have hused : (fs.dropped old (n.unlinked (env.clock 3))).allocated x = true := hx
      exact allocated_created hused
    · exact fun x => kind_created (m := n) (.inl hunused) hparent hpid (by rfl)

theorem rename (ho : o.Right opened fs) (hv : v.Pictures fs) (hfs : fs.Consistent) {e : Effect Unit}
    (h : v.rename env world opened source target = .ok e) : Evolves world opened fs o e.edits := by
  obtain ⟨src, dst, id, n, hsource, htarget, hsrc, hn, -, ⟨-, hnil⟩ | ⟨sn, dn, above, old, lost, rest,
    hsn, hdn, hchain, hbelow, hlinks, hedits, happly, horphans, hcase⟩⟩ := hv.rename_eq_ok hfs h
  · rw [hnil]
    exact nothing ho hfs
  obtain ⟨m, hm, hdirectory⟩ := htarget.1
  obtain rfl := Option.some.inj (hdn.symm.trans hm)
  rcases hcase with ⟨hfree, rfl, rfl⟩ | ⟨other, on, hdst, hne, hon, hkinds, hleaf, rfl, hunlink⟩
  · have hmoved := happly fs
    rw [List.nil_append] at hedits
    rw [← hedits] at hmoved
    refine plain ho ?_ ?_ ?_ horphans <;> rw [hmoved]
    · exact hfs.moved hsrc hfree htarget.entryName hn (fun _ => hsn) hdn hdirectory hchain hbelow hlinks
    · exact fun x hx => hx
    · exact fun x _ => kind_moved hn (by rfl) hsn (by rfl) hdn (by rfl) x
  · have hmoved : fs.applyAll e.edits =
        (fs.dropped other (on.unlinked (env.clock 3))).applyAll rest := by
      rw [hedits, applyAll_append, NamespaceView.applyAll_of_unlink hunlink fun hkind =>
        holds_directory hkind (hfs.inode other on hon).content]
    rw [happly] at hmoved
    have hframe {x : InodeId} (hx : x ≠ other) :
        (fs.dropped other (on.unlinked (env.clock 3))).inode x = fs.inode x :=
      Function.update_of_ne hx _ _
    have hsother : src.id ≠ other := by
      intro heq
      rw [heq, hleaf] at hsrc
      cases hsrc
    refine unlinked ho hv hfs hon hunlink horphans ?_ ?_ ?_ <;> rw [hmoved]
    · exact hfs.moved_over hsrc hdst hne hon hleaf hn hsn hdn hchain hbelow hlinks
    · exact fun x hx => hx
    · exact fun x _ => kind_moved ((hframe (Ne.symm hne)).trans hn) (by rfl)
        ((hframe hsother).trans hsn) (by rfl)
        ((hframe (Ne.symm (hfs.ne_of_entry hdst))).trans hdn) (by rfl) x

variable {id : InodeId} {n : InodeInfo} {data : Bytes} {linked : Bool}

theorem editEffect (ho : o.Right opened fs) (hfs : fs.Consistent) (hn : fs.inode id = some n)
    (hkind : n.kind = .file) {now : UInt64} {edit : ContentEdit} {e : Effect ℕ}
    (he : editEffect now id n data edit = .ok e) : Evolves world opened fs o e.edits := by
  have hconsistent := hfs.editEffect hn hkind he
  obtain ⟨new, -, he⟩ := bind_eq_ok.mp he
  cases new with
  | none =>
    cases he
    exact nothing ho hfs
  | some value =>
    obtain ⟨-, he⟩ := need_bind_eq_ok.mp he
    cases he
    exact plain ho hconsistent (fun _ hx => hx) (fun x _ => kind_rewritten hn (by rfl) x)
      fun _ _ => rfl

theorem attributesEffect (ho : o.Right opened fs) (hfs : fs.Consistent) (hn : fs.inode id = some n)
    {a : Attributes} (hfile : a.size = none ∨ n.kind = .file) (ha : checkAttributes a = .ok ())
    {clock : ℕ → UInt64} {e : Effect Unit}
    (he : attributesEffect clock id n (found (fs.content id)) a = .ok e) :
    Evolves world opened fs o e.edits := by
  have hconsistent := hfs.attributesEffect hn hfile ha he
  unfold ForkFs.attributesEffect at he
  split at he
  · cases he
    exact nothing ho hfs
  obtain ⟨⟨n', new⟩, hupdate, he⟩ := bind_eq_ok.mp he
  cases he
  have hkind := (InodeInfo.update_eq_ok hupdate).1
  cases new with
  | none =>
    refine plain ho hconsistent (fun _ hx => hx) (fun x _ => ?_) fun _ _ => rfl
    exact kind_update (by rw [hn, Option.map_some, hkind]) x
  | some value =>
    refine plain ho hconsistent (fun _ hx => hx) (fun x _ => ?_) fun _ _ => rfl
    exact kind_rewritten hn hkind x

/-- Edits of an orphan. -/
theorem orphan {n' : InodeInfo} {value : Bytes} (ho : o.Right opened fs) (hfs : fs.Consistent)
    (hn : o.inode id = some n) (hvalid : n'.Valid true) (hlength : value.length = n'.size)
    (hlimit : n'.size ≤ 256 * 1024) (happly : fs.applyAll edits = fs)
    (horphan : o.applyAll world edits =
      ⟨Function.update o.inode id (some n'), Function.update o.content id (some value)⟩)
    (hothers : ∀ w ≠ world, ∀ o' : Orphans, o'.applyAll w edits = o') :
    Evolves world opened fs o edits := by
  have hkept (hall : opened id = true → fs.Present id) : False := by
    rw [(ho.gone id hall).1] at hn
    cases hn
  refine ⟨by rwa [happly], ?_, hothers⟩
  rw [happly, horphan]
  refine ⟨ho.file, fun x hx hnone => ?_, fun x hx => ?_⟩
  · by_cases heq : x = id
    · subst heq
      exact ⟨n', value, Function.update_self _ _ _, Function.update_self _ _ _, hvalid, hlength, hlimit⟩
    · obtain ⟨m, data', hm, hdata', hrest⟩ := ho.kept x hx hnone
      exact ⟨m, data', (Function.update_of_ne heq _ _).trans hm,
        (Function.update_of_ne heq _ _).trans hdata', hrest⟩
  · have heq : x ≠ id := by
      rintro rfl
      exact hkept hx
    exact ⟨(Function.update_of_ne heq _ _).trans (ho.gone x hx).1,
      (Function.update_of_ne heq _ _).trans (ho.gone x hx).2⟩

theorem openEffect (ho : o.Right opened fs) (hfs : fs.Consistent)
    (hfile : FileAt fs o id linked n data) {now : UInt64} {edit : ContentEdit} {e : Effect ℕ}
    (he : openEffect now linked world id n data edit = .ok e) :
    Evolves world opened fs o e.edits := by
  have hsound := ho.sound hfs hfile
  cases hfile with
  | linked hn hkind hdata => exact editEffect ho hfs hn hkind he
  | orphan hnone hn hdata =>
    obtain ⟨new, -, he⟩ := bind_eq_ok.mp he
    cases new with
    | none =>
      cases he
      exact nothing ho hfs
    | some value =>
      obtain ⟨hlimit, he⟩ := need_bind_eq_ok.mp he
      cases he
      have hvalid : ({ n with size := value.length }.touch now).Valid true :=
        hsound.valid.orphan hsound.valid.mode rfl rfl hlimit
      refine orphan ho hfs hn hvalid rfl hlimit rfl ?_ fun w hw o' => ?_
      · simp [Orphans.applyAll, Orphans.apply, Edit.openInode, Edit.openContent]
      · simp [Orphans.applyAll, Orphans.apply, Edit.openInode, Edit.openContent, Ne.symm hw]

theorem openAttributes (ho : o.Right opened fs) (hfs : fs.Consistent)
    (hfile : FileAt fs o id linked n data) {a : Attributes} (ha : checkAttributes a = .ok ())
    {clock : ℕ → UInt64} {e : Effect Unit}
    (he : openAttributes clock linked world id n data a = .ok e) :
    Evolves world opened fs o e.edits := by
  have hsound := ho.sound hfs hfile
  cases hfile with
  | linked hn hkind hdata =>
    rw [openAttributes_true] at he
    exact attributesEffect ho hfs hn (.inr hkind) ha (by rwa [hdata])
  | orphan hnone hn hdata =>
    unfold ForkFs.openAttributes at he
    split at he
    · cases he
      exact nothing ho hfs
    obtain ⟨⟨n', new⟩, hupdate, he⟩ := bind_eq_ok.mp he
    cases he
    obtain ⟨hkind, hlinks, hmode, hsize, hcontent⟩ := InodeInfo.update_eq_ok hupdate
    obtain ⟨hmodes, hsizes⟩ := checkAttributes_eq_ok ha
    have hmode' : n'.mode ≤ 0o777 := by
      rw [hmode]
      cases hgiven : a.mode with
      | none => exact hsound.valid.mode
      | some mode => exact hmodes mode hgiven
    rcases hcontent with ⟨rfl, hsame⟩ | ⟨data', size, hgiven, hdata', -, -, rfl⟩
    · have hlimit : n'.size ≤ 256 * 1024 := hsame ▸ hsound.limit
      have hcontent : Function.update o.content id (some data) = o.content :=
        Function.update_eq_self_iff.mpr hdata.symm
      refine orphan ho hfs hn (hsound.valid.orphan hmode' hkind hlinks hlimit)
        (hsound.length.trans hsame.symm) hlimit rfl ?_ fun w hw o' => ?_
      · rw [hcontent]
        simp [Orphans.applyAll, Orphans.apply, Edit.openInode]
      · simp [Orphans.applyAll, Orphans.apply, Edit.openInode, Ne.symm hw]
    · rw [hgiven, Option.getD_some] at hsize
      have hlimit : n'.size ≤ 256 * 1024 := hsize ▸ hsizes size hgiven
      refine orphan ho hfs hn (hsound.valid.orphan hmode' hkind hlinks hlimit)
        ((length_resize data' size).trans hsize.symm) hlimit rfl ?_ fun w hw o' => ?_
      · simp [Orphans.applyAll, Orphans.apply, Edit.openInode, Edit.openContent]
      · simp [Orphans.applyAll, Orphans.apply, Edit.openInode, Edit.openContent, Ne.symm hw]

/-- The file that `open` finds or creates. -/
theorem openFile {options : OpenOptions} {opening : Opening} (ho : o.Right opened fs)
    (hv : v.Pictures fs) (hfs : fs.Consistent) (hmode : options.mode ≤ 0o777)
    (h : v.openFile env path options = .ok opening) :
    Evolves world opened fs o opening.effect.edits ∧
      ∃ n, (fs.applyAll opening.effect.edits).inode opening.id = some n ∧ n.kind = .file := by
  obtain ⟨-, ⟨-, n, hn, hkind, hedits⟩ | hcreates⟩ := hv.openFile_eq_ok hfs h
  · rw [hedits]
    split
    · refine ⟨plain ho ?_ (fun _ hx => hx) (fun x _ => kind_rewritten hn (by rfl) x) fun _ _ => rfl,
        _, Function.update_self _ _ _, hkind⟩
      exact hfs.rewritten_file hn hkind hkind rfl (hfs.inode _ n hn).valid.mode rfl (Nat.zero_le _)
    · exact ⟨nothing ho hfs, n, hn, hkind⟩
  · obtain ⟨p, pn, hmissing, hpn, happly⟩ := hcreates.applied
    obtain ⟨hnone, hallocated⟩ := hcreates.fresh
    refine ⟨created ho (consistent_file hfs [] hmissing hnone hpn hmode (Nat.zero_le _)) happly hnone
      hallocated hpn rfl hcreates.plain, ?_⟩
    have hne : opening.id ≠ p.id := by
      intro heq
      rw [← heq, hnone] at hpn
      cases hpn
    rw [happly]
    exact ⟨_, (Function.update_of_ne hne _ _).trans (Function.update_self _ _ _), rfl⟩

end Evolves

variable [Digest] {c : Container} {world : Bytes} {v : NamespaceView} {edits : List Edit}
  {created : Option InodeId} {fs : Filesystem} {o : Orphans}

/-- Every operation on a World keeps it consistent and its orphans right. -/
theorem Planned.evolves (h : Planned c world v edits created)
    (ho : o.Right (c.table.isOpen world) fs) (hv : v.Pictures fs) (hfs : fs.Consistent)
    (hkeeps : v.Keeps world o) (hcounts : c.table.CountsRight) :
    Evolves world (c.table.isOpen world) fs o edits := by
  cases h with
  | fsInit env e hview h => exact .fsInit ho hv h
  | mkdir env path mode e hmode h => exact .mkdir ho hv hfs hmode h
  | write env path value e hsize h => exact .write ho hv hfs hsize h
  | replaceFile env path value e hsize h => exact .replaceFile ho hv hfs hsize h
  | editContent env path edit e h =>
    obtain ⟨id, n, data, -, hn, hkind, -, he⟩ := hv.editContent_eq_ok hfs h
    exact .editEffect ho hfs hn hkind he
  | setAttributes env path a e ha h =>
    obtain ⟨id, n, -, hn, hnil | ⟨hfile, he⟩⟩ := hv.setAttributes_eq_ok hfs h
    · rw [hnil]
      exact .nothing ho hfs
    · exact .attributesEffect ho hfs hn hfile ha he
  | symlink env target path names e htarget h => exact .symlink ho hv hfs htarget h
  | link env source target e h => exact .link ho hv hfs h
  | remove env path directory e h => exact .remove ho hv hfs h
  | rename env source target e h => exact .rename ho hv hfs h
  | editHandle env token h edit e htoken hview hworld he =>
    have hopened := hcounts.isOpen_iff.mpr ⟨token, h, htoken, hworld, hview, rfl⟩
    obtain ⟨linked, n, data, hfile⟩ := ho.exists_fileAt hfs hopened
    have hwritable : h.writable = true := (need_bind_eq_ok.mp he).1
    rw [hfile.editHandle (ho.sound hfs hfile) hv hkeeps hwritable] at he
    exact .openEffect ho hfs hfile he
  | handleSetAttributes env token h a e htoken hview hworld ha he =>
    have hopened := hcounts.isOpen_iff.mpr ⟨token, h, htoken, hworld, hview, rfl⟩
    obtain ⟨linked, n, data, hfile⟩ := ho.exists_fileAt hfs hopened
    have hsound := ho.sound hfs hfile
    have hwritable : a.size = none ∨ h.writable = true := by
      have hcopy := he
      rw [NamespaceView.handleSetAttributes, hfile.openInode hsound hv hkeeps, ok_bind] at hcopy
      exact (need_bind_eq_ok.mp hcopy).1
    rw [hfile.handleSetAttributes hsound hv hkeeps hwritable] at he
    exact .openAttributes ho hfs hfile ha he

end Evolution

end ForkFs
