import ForkFs.Namespace.Filesystem

/-!
# Path resolution

A reference semantics of paths on file systems, without the stack of the walk: the name `..` leads
to the directory that has an entry of the current one, a relative link continues from the directory
it is in, and an absolute one from the root. The walk of a view finds exactly what the reference
finds, and the directories it reports are those on the way down from the root.
-/

namespace ForkFs

open Bytes Outcome

section Reads

/-- A record that was looked up. -/
def found {α : Type} : Option α → Except String α
  | none => .error "namespace key not found"
  | some a => .ok a

@[simp] theorem found_eq_ok {α : Type} {o : Option α} {a : α} : found o = .ok a ↔ o = some a := by
  cases o <;> simp [found]

/-- All reads of a view are those of a file system. -/
structure NamespaceView.Pictures (v : NamespaceView) (fs : Filesystem) : Prop where
  /-- The root. -/
  root : v.root = match fs.root with
    | none => .error "filesystem not initialized; use fs-init"
    | some id => .ok id
  /-- Inodes. -/
  inode : ∀ id, v.inode id = found (fs.inode id)
  /-- The presence of inodes. -/
  linked : ∀ id, v.contains (inodeKey id) = .ok (fs.inode id).isSome
  /-- The presence of entries. -/
  contains : ∀ d name, v.contains (entryKey d name) = .ok (fs.entry (d, name)).isSome
  /-- Entries. -/
  child : ∀ d name, v.child d name = found (fs.entry (d, name))
  /-- Contents. -/
  content : ∀ id, v.get (contentKey id) = found (fs.content id)
  /-- An identity that counts as free was not given out here. -/
  fresh : ∀ id, v.contains (allocatedKey id) = .ok false → fs.allocated id = false
  /-- All keys, in order. -/
  records : ∃ keys, v.keys namespacePrefix = .ok keys ∧ keys.Pairwise (· < ·) ∧
    ∀ key, key ∈ keys ↔ ∃ f : Field, key = f.key ∧ (fs.record f).isSome
  /-- The entries of a directory in the order of their names. -/
  keys : ∀ d, ∃ names : List Bytes, v.keys (directoryPrefix d) = .ok (names.map (entryKey d)) ∧
    names.Pairwise (· < ·) ∧ ∀ name, name ∈ names ↔ (fs.entry (d, name)).isSome

end Reads

/-- Where a path leads. -/
inductive Target
  /-- An inode. -/
  | inode (id : InodeId)
  /-- A free name in a directory. -/
  | missing (parent : Parent)

/-- Where a walk leads, without the directories above. -/
def Destination.target : Destination → Target
  | .found id _ => .inode id
  | .missing parent => .missing parent

/-- A name that a path or a link can contain. -/
def Component (name : Bytes) : Prop :=
  name ≠ [] ∧ name.length ≤ 255 ∧ (∀ c ∈ name, 32 ≤ c ∧ c ≤ 126) ∧ 47 ∉ name

/-- The names of a link's target. A slash at its end asks for a directory. -/
def linkNames (target : Bytes) : List Bytes :=
  (pieces 47 target).filter (· ≠ []) ++ if target.getLast? = some 47 then [ascii "."] else []

/-- What the walk takes from a target. Only for a target of slashes it leaves out the last name,
since the root is a directory. -/
theorem targetComponents_eq {b : Bytes} {parts : List Bytes} (h : targetComponents b = .ok parts) :
    parts = linkNames b ∨
      (parts = [] ∧ linkNames b = [ascii "."] ∧ b.head? = some 47) := by
  rw [targetComponents, need_bind_eq_ok, need_bind_eq_ok, need_bind_eq_ok, pure_eq_ok] at h
  obtain ⟨⟨hne, -⟩, -, -, rfl⟩ := h
  rw [linkNames]
  by_cases hlast : b.getLast? = some 47
  · by_cases hnames : (pieces 47 b).filter (· ≠ []) = []
    · refine .inr ?_
      obtain ⟨c, rest, rfl⟩ := List.exists_cons_of_ne_nil hne
      have hc : c = 47 := by
        by_contra hc
        obtain ⟨piece, hpiece, hmem⟩ := exists_mem_pieces List.mem_cons_self hc
        have hin : piece ∈ (pieces 47 (c :: rest)).filter (· ≠ []) := by
          rw [List.mem_filter]
          exact ⟨hpiece, decide_eq_true (List.ne_nil_of_mem hmem)⟩
        rw [hnames] at hin
        cases hin
      rw [hnames, if_pos hlast, hc]
      simp
    · rw [if_pos ⟨hlast, hnames⟩, if_pos hlast]
      exact .inl rfl
  · rw [if_neg (fun h => hlast h.1), if_neg hlast, List.append_nil]
    exact .inl rfl

/-- The names of a valid target are components. -/
theorem component_of_linkNames {b name : Bytes} {parts : List Bytes}
    (h : targetComponents b = .ok parts) (hname : name ∈ linkNames b) : Component name := by
  rw [targetComponents, need_bind_eq_ok, need_bind_eq_ok, need_bind_eq_ok] at h
  obtain ⟨-, hbytes, hlength, -⟩ := h
  rcases List.mem_append.mp hname with hname | hname
  · obtain ⟨hpiece, hne⟩ := List.mem_filter.mp hname
    obtain ⟨hslash, hsub⟩ := mem_pieces hpiece
    exact ⟨of_decide_eq_true hne, hlength name hname, fun c hc => hbytes c (hsub c hc), hslash⟩
  · split at hname
    · rw [List.mem_singleton.mp hname]
      exact ⟨by decide, by decide, by decide +kernel, by decide⟩
    · cases hname

namespace Filesystem

variable {fs : Filesystem} {followFinal create : Bool} {r id c up : InodeId} {n : InodeInfo}
  {names : List Bytes} {name : Bytes} {target : Target} {links expanded : ℕ} {above : List InodeId}

/-- The physical parent of a directory, for the root itself. -/
def IsParent (fs : Filesystem) (id up : InodeId) : Prop :=
  (∃ name, fs.entry (up, name) = some id) ∨ (fs.root = some id ∧ up = id)

/-- A name other than the two that every directory has. -/
def Proper (name : Bytes) : Prop := name ≠ ascii "." ∧ name ≠ ascii ".."

/-- The reference semantics of names from an inode on, after a number of links and of bytes taken
from them. -/
inductive Resolves (fs : Filesystem) (followFinal create : Bool) (r : InodeId) :
    ℕ → ℕ → InodeId → List Bytes → Target → Prop
  /-- No name is left. -/
  | done {links expanded : ℕ} {id : InodeId} :
      Resolves fs followFinal create r links expanded id [] (.inode id)
  /-- The directory itself. -/
  | stay {links expanded : ℕ} {id : InodeId} {names : List Bytes} {target : Target}
      (hdirectory : fs.IsDirectory id)
      (hrest : Resolves fs followFinal create r links expanded id names target) :
      Resolves fs followFinal create r links expanded id (ascii "." :: names) target
  /-- The physical parent. -/
  | up {links expanded : ℕ} {id up : InodeId} {names : List Bytes} {target : Target}
      (hdirectory : fs.IsDirectory id) (hparent : fs.IsParent id up)
      (hrest : Resolves fs followFinal create r links expanded up names target) :
      Resolves fs followFinal create r links expanded id (ascii ".." :: names) target
  /-- An entry that is not followed. -/
  | down {links expanded : ℕ} {id c : InodeId} {name : Bytes} {names : List Bytes}
      {target : Target} {n : InodeInfo} (hdirectory : fs.IsDirectory id) (hname : Proper name)
      (hentry : fs.entry (id, name) = some c) (hn : fs.inode c = some n)
      (hstop : ¬ (n.kind = .symlink ∧ (followFinal ∨ names ≠ [])))
      (hrest : Resolves fs followFinal create r links expanded c names target) :
      Resolves fs followFinal create r links expanded id (name :: names) target
  /-- A symbolic link that is followed. -/
  | follow {links expanded : ℕ} {id c : InodeId} {name b : Bytes} {names : List Bytes}
      {target : Target} {n : InodeInfo} (hdirectory : fs.IsDirectory id) (hname : Proper name)
      (hentry : fs.entry (id, name) = some c) (hn : fs.inode c = some n)
      (hlink : n.kind = .symlink) (hfollow : followFinal ∨ names ≠ []) (hlinks : links < 40)
      (hcontent : fs.content c = some b) (hbytes : expanded + b.length ≤ 65536)
      (hrest : Resolves fs followFinal create r (links + 1) (expanded + b.length)
        (if b.head? = some 47 then r else id) (linkNames b ++ names) target) :
      Resolves fs followFinal create r links expanded id (name :: names) target
  /-- A free name where a file may be created. -/
  | missing {links expanded : ℕ} {id : InodeId} {name : Bytes} (hdirectory : fs.IsDirectory id)
      (hname : Proper name) (hentry : fs.entry (id, name) = none) (hcreate : create = true) :
      Resolves fs followFinal create r links expanded id [name] (.missing ⟨id, name⟩)

/-- The reference semantics of a path. -/
def Reaches (fs : Filesystem) (followFinal create : Bool) (names : List Bytes) (target : Target) :
    Prop :=
  ∃ r, fs.root = some r ∧ fs.Resolves followFinal create r 0 0 r names target

end Filesystem

namespace NamespaceView

/-- One name of a walk. -/
theorem walkLinks_cons (v : NamespaceView) (followFinal create : Bool) (links : ℕ) (name : Bytes)
    (pending : List Bytes) (id : InodeId) (above : List InodeId) (expanded : ℕ) :
    v.walkLinks followFinal create links (name :: pending) id above expanded = (do
      let n ← v.inode id
      need (n.kind = .directory) "path component is not a directory"
      if name = ascii "." then v.walkLinks followFinal create links pending id above expanded
      else if name = ascii ".." then
        match above with
        | [] => v.walkLinks followFinal create links pending id [] expanded
        | up :: above => v.walkLinks followFinal create links pending up above expanded
      else
        let found ← v.contains (entryKey id name)
        if found then
          let child ← v.child id name
          let n ← v.inode child
          if n.kind = .symlink ∧ (followFinal ∨ pending ≠ []) then
            match links with
            | 0 => .error "too many symbolic links"
            | links + 1 =>
              let b ← v.get (contentKey child)
              need (b.length = n.size) "symlink size mismatch"
              let parts ← targetComponents b
              need (expanded + b.length ≤ 65536) "symlink expansion limit"
              if b.head? = some 47 then
                v.walkLinks followFinal create links (parts ++ pending) (above.getLastD id) []
                  (expanded + b.length)
              else
                v.walkLinks followFinal create links (parts ++ pending) id above
                  (expanded + b.length)
          else v.walkLinks followFinal create links pending child (id :: above) expanded
        else
          need (create ∧ pending = []) "path not found"
          return .missing ⟨id, name⟩) := by
  cases links with
  | zero => rfl
  | succ links => rfl

theorem walkLinks_nil (v : NamespaceView) (followFinal create : Bool) (links : ℕ) (id : InodeId)
    (above : List InodeId) (expanded : ℕ) :
    v.walkLinks followFinal create links [] id above expanded = .ok (.found id above) := by
  cases links with
  | zero => rfl
  | succ links => rfl

end NamespaceView

namespace Filesystem

variable {fs : Filesystem} {followFinal create : Bool} {r id c up : InodeId} {n : InodeInfo}
  {names : List Bytes} {target : Target} {links expanded : ℕ} {above : List InodeId}

theorem Chain.getLastD_eq (h : fs.Chain id above) (hr : fs.root = some r) :
    above.getLastD id = r := by
  obtain ⟨r', hr', h⟩ := h
  obtain rfl := Option.some.inj (hr.symm.trans hr')
  exact Hierarchy.Chain.getLastD_eq h

theorem Chain.down (h : fs.Chain id above) {name : Bytes} (hentry : fs.entry (id, name) = some c) :
    fs.Chain c (id :: above) := by
  obtain ⟨r, hr, h⟩ := h
  exact ⟨r, hr, h.edge hentry⟩

/-- The parent of an inode on a way down. -/
theorem Chain.parent (h : fs.Chain id above) :
    fs.IsParent id (above.headD id) ∧ fs.Chain (above.headD id) above.tail := by
  obtain ⟨r, hr, h⟩ := h
  cases h with
  | root => exact ⟨.inr ⟨hr, rfl⟩, _, hr, .root⟩
  | edge hd hc => exact ⟨.inl ⟨_, hc⟩, _, hr, hd⟩

/-- The way down to where a link is followed from. -/
theorem Chain.jump (h : fs.Chain id above) (hr : fs.root = some r) (b : Bytes) :
    fs.Chain (if b.head? = some 47 then r else id) (if b.head? = some 47 then [] else above) := by
  by_cases hhead : b.head? = some 47
  · rw [if_pos hhead, if_pos hhead]
    exact ⟨r, hr, .root⟩
  · rw [if_neg hhead, if_neg hhead]
    exact h

/-- A directory has one parent. -/
theorem Consistent.isParent_unique (h : fs.Consistent) {up' : InodeId}
    (hdirectory : fs.IsDirectory id) (hup : fs.IsParent id up) (hup' : fs.IsParent id up') :
    up = up' := by
  rcases hup with ⟨name, hentry⟩ | ⟨hr, rfl⟩
  · rcases hup' with ⟨name', hentry'⟩ | ⟨hr, rfl⟩
    · exact congrArg Prod.fst (h.tree.single _ _ _ hentry hentry' hdirectory)
    · exact absurd hentry (h.tree.root_free _ hr _)
  · rcases hup' with ⟨name', hentry'⟩ | ⟨-, rfl⟩
    · exact absurd hentry' (h.tree.root_free _ hr _)
    · rfl

/-- The bytes of a symbolic link. -/
theorem Consistent.target_of_symlink (h : fs.Consistent) (hn : fs.inode id = some n)
    (hkind : n.kind = .symlink) :
    ∃ b parts, fs.content id = some b ∧ b.length = n.size ∧ targetComponents b = .ok parts := by
  have hholds := (h.inode id n hn).content
  rw [InodeInfo.Holds, hkind] at hholds
  exact hholds

/-- A free name that a path of components leads to is one that an entry can have. -/
theorem Resolves.entryName (h : fs.Resolves followFinal create r links expanded id names target)
    (hfs : fs.Consistent) (hnames : ∀ name ∈ names, Component name) {parent : Parent}
    (ht : target = .missing parent) : EntryName parent.name := by
  induction h with
  | done => cases ht
  | stay _ _ ih | up _ _ _ ih | down _ _ _ _ _ _ ih =>
    exact ih (fun name hname => hnames name (List.mem_cons_of_mem _ hname)) ht
  | follow _ _ _ hn hlink _ _ hcontent _ _ ih =>
    obtain ⟨b, parts, hb, -, hparts⟩ := hfs.target_of_symlink hn hlink
    obtain rfl := Option.some.inj (hcontent.symm.trans hb)
    refine ih (fun name hname => ?_) ht
    rcases List.mem_append.mp hname with hname | hname
    · exact component_of_linkNames hparts hname
    · exact hnames name (List.mem_cons_of_mem _ hname)
  | missing _ hname _ _ =>
    cases ht
    obtain ⟨hne, hlength, hbytes, hslash⟩ := hnames _ List.mem_cons_self
    refine ⟨?_, hslash⟩
    rw [checkComponent, need_of ⟨hne, hname.1, hname.2, hlength⟩]
    exact need_of hbytes

end Filesystem

namespace Destination

/-- What is known of the end of a walk. -/
def Within (fs : Filesystem) : Destination → Prop
  | .found id above => fs.Chain id above
  | .missing parent =>
    fs.IsDirectory parent.id ∧ (∃ above, fs.Chain parent.id above) ∧
      fs.entry (parent.id, parent.name) = none

end Destination

namespace NamespaceView.Pictures

open Filesystem

variable {v : NamespaceView} {fs : Filesystem} {followFinal create : Bool} {r id c up : InodeId}
  {n : InodeInfo} {name b : Bytes} {names parts : List Bytes} {target : Target}
  {links expanded : ℕ} {above : List InodeId} {dest : Destination}

section Steps

/-- Only directories are walked through. -/
theorem isDirectory_of_walkLinks (hv : v.Pictures fs)
    (h : v.walkLinks followFinal create links (name :: names) id above expanded = .ok dest) :
    fs.IsDirectory id := by
  rw [walkLinks_cons, bind_eq_ok] at h
  obtain ⟨n, hn, h⟩ := h
  rw [need_bind_eq_ok] at h
  rw [hv.inode, found_eq_ok] at hn
  exact ⟨n, hn, h.1⟩

theorem walkLinks_stay (hv : v.Pictures fs) (hdirectory : fs.IsDirectory id) :
    v.walkLinks followFinal create links (ascii "." :: names) id above expanded =
      v.walkLinks followFinal create links names id above expanded := by
  obtain ⟨n, hn, hkind⟩ := hdirectory
  rw [walkLinks_cons, hv.inode, hn, found, ok_bind, need_of hkind, ok_bind, if_pos rfl]

theorem walkLinks_up (hv : v.Pictures fs) (hdirectory : fs.IsDirectory id) :
    v.walkLinks followFinal create links (ascii ".." :: names) id above expanded =
      v.walkLinks followFinal create links names (above.headD id) above.tail expanded := by
  obtain ⟨n, hn, hkind⟩ := hdirectory
  have hne : ascii ".." ≠ ascii "." := by decide
  rw [walkLinks_cons, hv.inode, hn, found, ok_bind, need_of hkind, ok_bind, if_neg hne, if_pos rfl]
  cases above with
  | nil => rfl
  | cons up above => rfl

theorem walkLinks_missing (hv : v.Pictures fs) (hdirectory : fs.IsDirectory id)
    (hname : Proper name) (hentry : fs.entry (id, name) = none) :
    v.walkLinks followFinal create links (name :: names) id above expanded =
      (do
        need (create ∧ names = []) "path not found"
        return .missing ⟨id, name⟩) := by
  obtain ⟨n, hn, hkind⟩ := hdirectory
  rw [walkLinks_cons, hv.inode, hn, found, ok_bind, need_of hkind, ok_bind, if_neg hname.1,
    if_neg hname.2, hv.contains, hentry, ok_bind]
  rfl

/-- A name that is an entry. -/
theorem walkLinks_entry (hv : v.Pictures fs) (hdirectory : fs.IsDirectory id) (hname : Proper name)
    (hentry : fs.entry (id, name) = some c) (hn : fs.inode c = some n) :
    v.walkLinks followFinal create links (name :: names) id above expanded =
      if n.kind = .symlink ∧ (followFinal ∨ names ≠ []) then
        match links with
        | 0 => .error "too many symbolic links"
        | links + 1 => do
          let b ← v.get (contentKey c)
          need (b.length = n.size) "symlink size mismatch"
          let parts ← targetComponents b
          need (expanded + b.length ≤ 65536) "symlink expansion limit"
          if b.head? = some 47 then
            v.walkLinks followFinal create links (parts ++ names) (above.getLastD id) []
              (expanded + b.length)
          else
            v.walkLinks followFinal create links (parts ++ names) id above (expanded + b.length)
      else v.walkLinks followFinal create links names c (id :: above) expanded := by
  obtain ⟨m, hm, hkind⟩ := hdirectory
  rw [walkLinks_cons, hv.inode, hm, found, ok_bind, need_of hkind, ok_bind, if_neg hname.1,
    if_neg hname.2, hv.contains, hentry, ok_bind, Option.isSome_some, if_pos rfl, hv.child, hentry,
    found, ok_bind, hv.inode, hn, found, ok_bind]

theorem walkLinks_down (hv : v.Pictures fs) (hdirectory : fs.IsDirectory id) (hname : Proper name)
    (hentry : fs.entry (id, name) = some c) (hn : fs.inode c = some n)
    (hstop : ¬ (n.kind = .symlink ∧ (followFinal ∨ names ≠ []))) :
    v.walkLinks followFinal create links (name :: names) id above expanded =
      v.walkLinks followFinal create links names c (id :: above) expanded := by
  rw [hv.walkLinks_entry hdirectory hname hentry hn, if_neg hstop]

/-- The names that the walk takes from a link lead to the same place as those of the reference. -/
theorem walkLinks_linkNames (hv : v.Pictures fs) (hroot : fs.IsDirectory r)
    (hparts : targetComponents b = .ok parts) :
    v.walkLinks followFinal create links (parts ++ names) (if b.head? = some 47 then r else id)
        above expanded =
      v.walkLinks followFinal create links (linkNames b ++ names)
        (if b.head? = some 47 then r else id) above expanded := by
  rcases targetComponents_eq hparts with rfl | ⟨rfl, hdot, hhead⟩
  · rfl
  · rw [hdot, if_pos hhead]
    exact (hv.walkLinks_stay hroot).symm

/-- A link is followed from the root or from the directory it is in. -/
theorem walkLinks_follow (hv : v.Pictures fs) (hfs : fs.Consistent) (hr : fs.root = some r)
    (hchain : fs.Chain id above) (hdirectory : fs.IsDirectory id) (hname : Proper name)
    (hentry : fs.entry (id, name) = some c) (hn : fs.inode c = some n)
    (hfollow : n.kind = .symlink ∧ (followFinal ∨ names ≠ [])) (hcontent : fs.content c = some b) :
    v.walkLinks followFinal create (links + 1) (name :: names) id above expanded =
      (do
        need (expanded + b.length ≤ 65536) "symlink expansion limit"
        v.walkLinks followFinal create links (linkNames b ++ names)
          (if b.head? = some 47 then r else id) (if b.head? = some 47 then [] else above)
          (expanded + b.length)) := by
  obtain ⟨b', parts, hb', hsize, hparts⟩ := hfs.target_of_symlink hn hfollow.1
  obtain rfl := Option.some.inj (hcontent.symm.trans hb')
  rw [hv.walkLinks_entry hdirectory hname hentry hn, if_pos hfollow]
  rw [← hv.walkLinks_linkNames (hfs.tree.root_inner r hr) hparts]
  simp only [hv.content, hcontent, found, ok_bind, need_of hsize, hparts, hchain.getLastD_eq hr]
  by_cases hhead : b.head? = some 47
  · simp only [if_pos hhead]
  · simp only [if_neg hhead]

theorem walkLinks_zero (hv : v.Pictures fs) (hdirectory : fs.IsDirectory id) (hname : Proper name)
    (hentry : fs.entry (id, name) = some c) (hn : fs.inode c = some n)
    (hfollow : n.kind = .symlink ∧ (followFinal ∨ names ≠ [])) :
    v.walkLinks followFinal create 0 (name :: names) id above expanded =
      .error "too many symbolic links" := by
  rw [hv.walkLinks_entry hdirectory hname hentry hn, if_pos hfollow]

end Steps

/-- A walk that ends does so where the reference ends. -/
theorem resolves_of_walkLinks (hv : v.Pictures fs) (hfs : fs.Consistent) (hr : fs.root = some r)
    (hlinks : links ≤ 40) (hchain : fs.Chain id above)
    (h : v.walkLinks followFinal create links names id above expanded = .ok dest) :
    fs.Resolves followFinal create r (40 - links) expanded id names dest.target ∧
      dest.Within fs := by
  -- Outside on the links that are left, inside on the names up to the next link.
  induction links using Nat.strong_induction_on generalizing names id above expanded with
  | _ links ihlinks =>
    induction names generalizing id above expanded with
    | nil =>
      rw [walkLinks_nil] at h
      cases h
      exact ⟨.done, hchain⟩
    | cons name names ih =>
      have hdirectory := hv.isDirectory_of_walkLinks h
      by_cases hdot : name = ascii "."
      · subst hdot
        rw [hv.walkLinks_stay hdirectory] at h
        obtain ⟨hrest, hwithin⟩ := ih hchain h
        exact ⟨hrest.stay hdirectory, hwithin⟩
      by_cases hup : name = ascii ".."
      · subst hup
        rw [hv.walkLinks_up hdirectory] at h
        obtain ⟨hparent, hchain'⟩ := hchain.parent
        obtain ⟨hrest, hwithin⟩ := ih hchain' h
        exact ⟨hrest.up hdirectory hparent, hwithin⟩
      have hname : Proper name := ⟨hdot, hup⟩
      cases hentry : fs.entry (id, name) with
      | none =>
        rw [hv.walkLinks_missing hdirectory hname hentry, need_bind_eq_ok, pure_eq_ok] at h
        obtain ⟨⟨hcreate, rfl⟩, rfl⟩ := h
        exact ⟨.missing hdirectory hname hentry hcreate, hdirectory, ⟨above, hchain⟩, hentry⟩
      | some c =>
        obtain ⟨n, hn⟩ := hfs.exists_inode hentry
        by_cases hfollow : n.kind = .symlink ∧ (followFinal ∨ names ≠ [])
        · obtain ⟨b, -, hcontent, -, -⟩ := hfs.target_of_symlink hn hfollow.1
          cases links with
          | zero =>
            rw [hv.walkLinks_zero hdirectory hname hentry hn hfollow] at h
            cases h
          | succ links =>
            rw [hv.walkLinks_follow hfs hr hchain hdirectory hname hentry hn hfollow hcontent,
              need_bind_eq_ok] at h
            obtain ⟨hbytes, h⟩ := h
            obtain ⟨hrest, hwithin⟩ := ihlinks links links.lt_succ_self (by omega)
              (hchain.jump hr b) h
            have hcount : 40 - links = 40 - (links + 1) + 1 := by omega
            rw [hcount] at hrest
            exact ⟨hrest.follow hdirectory hname hentry hn hfollow.1 hfollow.2 (by omega) hcontent
              hbytes, hwithin⟩
        · rw [hv.walkLinks_down hdirectory hname hentry hn hfollow] at h
          obtain ⟨hrest, hwithin⟩ := ih (hchain.down hentry) h
          exact ⟨hrest.down hdirectory hname hentry hn hfollow, hwithin⟩

/-- Where the reference ends, the walk does too. -/
theorem walkLinks_of_resolves (hv : v.Pictures fs) (hfs : fs.Consistent) (hr : fs.root = some r)
    (hres : fs.Resolves followFinal create r links expanded id names target) (hlinks : links ≤ 40)
    (hchain : fs.Chain id above) :
    ∃ dest, v.walkLinks followFinal create (40 - links) names id above expanded = .ok dest ∧
      dest.target = target := by
  induction hres generalizing above with
  | done => exact ⟨_, walkLinks_nil .., rfl⟩
  | stay hdirectory _ ih =>
    rw [hv.walkLinks_stay hdirectory]
    exact ih hlinks hchain
  | up hdirectory hparent _ ih =>
    obtain ⟨hparent', hchain'⟩ := hchain.parent
    obtain rfl := hfs.isParent_unique hdirectory hparent hparent'
    rw [hv.walkLinks_up hdirectory]
    exact ih hlinks hchain'
  | down hdirectory hname hentry hn hstop _ ih =>
    rw [hv.walkLinks_down hdirectory hname hentry hn hstop]
    exact ih hlinks (hchain.down hentry)
  | @follow links _ _ _ _ _ _ _ _ hdirectory hname hentry hn hlink hfollow hmore hcontent hbytes
      hrest ih =>
    have hcount : 40 - links = 40 - (links + 1) + 1 := by omega
    rw [hcount, hv.walkLinks_follow hfs hr hchain hdirectory hname hentry hn ⟨hlink, hfollow⟩
      hcontent, need_of hbytes, ok_bind]
    exact ih hmore (hchain.jump hr _)
  | missing hdirectory hname hentry hcreate =>
    rw [hv.walkLinks_missing hdirectory hname hentry, need_of ⟨hcreate, rfl⟩, ok_bind]
    exact ⟨_, rfl, rfl⟩

theorem root_eq_ok (hv : v.Pictures fs) : v.root = .ok r ↔ fs.root = some r := by
  rw [hv.root]
  cases fs.root <;> simp

/-- The walk of a path ends where the reference does, inside the tree. -/
theorem walk_reaches (hv : v.Pictures fs) (hfs : fs.Consistent)
    (h : v.walk names followFinal create = .ok dest) :
    fs.Reaches followFinal create names dest.target ∧ dest.Within fs := by
  rw [walk, bind_eq_ok] at h
  obtain ⟨r, hr, h⟩ := h
  rw [hv.root_eq_ok] at hr
  obtain ⟨hres, hwithin⟩ := hv.resolves_of_walkLinks hfs hr le_rfl ⟨r, hr, .root⟩ h
  exact ⟨⟨r, hr, hres⟩, hwithin⟩

/-- The walk of a path ends if the reference does. -/
theorem walk_of_reaches (hv : v.Pictures fs) (hfs : fs.Consistent)
    (h : fs.Reaches followFinal create names target) :
    ∃ dest, v.walk names followFinal create = .ok dest ∧ dest.target = target := by
  obtain ⟨r, hr, hres⟩ := h
  rw [walk, hv.root_eq_ok.mpr hr, ok_bind]
  exact hv.walkLinks_of_resolves hfs hr hres (by decide) ⟨r, hr, .root⟩

end NamespaceView.Pictures

end ForkFs
