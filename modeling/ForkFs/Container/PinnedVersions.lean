import ForkFs.Container.CoherentRuns
import ForkFs.MetadataTree.Pages

/-!
# Pinned versions

An open cursor pins the version it was opened on: nothing is collected while it lives, so the
objects of the version stay, whatever else happens to the repository. A page is a part of the
sorted list of the entries of a directory of that version.
-/

namespace ForkFs

open Bytes Outcome Treap Treap.KeyTree

section Lists

/-- The entries of a directory with their attributes, in the order of their names. -/
structure Filesystem.Lists (fs : Filesystem) (d : InodeId) (entries : List DirectoryEntry) : Prop where
  /-- Every name stands once, and in order. -/
  sorted : (entries.map DirectoryEntry.name).Pairwise (· < ·)
  /-- They are the entries of the directory. -/
  mem : ∀ e, e ∈ entries ↔ fs.entry (d, e.name) = some e.id ∧ fs.inode e.id = some e.inode

variable {fs : Filesystem} {d : InodeId}

end Lists

section Pages

variable {entries : List DirectoryEntry} {d : InodeId} {k limit : ℕ}

/-- The page that starts at a position of a list. -/
def pageAt (entries : List DirectoryEntry) (k limit : ℕ) (attributes : Bool) : DirectoryPage :=
  ⟨((entries.drop k).take limit).map DirectoryEntry.name, entries.length ≤ k + limit,
    if attributes then (entries.drop k).take limit else []⟩

/-- A cursor after some entries. -/
def DirectoryCursor.moved (cursor : DirectoryCursor) (d : InodeId) (entries : List DirectoryEntry)
    (k : ℕ) : DirectoryCursor :=
  { cursor with
    after := ((entries.take k).getLast?.map fun e => entryKey d e.name).getD []
    done := decide (cursor.manifest = Hash.zero) || decide (0 < k ∧ entries.length ≤ k) }

theorem entryKey_ne_nil (d : InodeId) (name : Bytes) : entryKey d name ≠ [] :=
  List.append_ne_nil_of_left_ne_nil (List.append_ne_nil_of_left_ne_nil (by decide) _) _

theorem entryKey_lt {a b : Bytes} (d : InodeId) (h : a < b) : entryKey d a < entryKey d b := by
  rw [entryKey, entryKey]
  induction directoryPrefix d with
  | nil => exact h
  | cons c pre ih =>
    rw [List.cons_append, List.cons_append, List.cons_lt_cons_iff]
    exact .inr ⟨rfl, ih⟩

/-- What follows the last key of the first entries is the rest. -/
theorem following_moved (hsorted : (entries.map DirectoryEntry.name).Pairwise (· < ·)) :
    MetadataTree.following (((entries.take k).getLast?.map fun e => entryKey d e.name).getD [])
      (entries.map fun e => entryKey d e.name) = (entries.drop k).map fun e => entryKey d e.name := by
  have hkeys : (entries.map fun e => entryKey d e.name).Pairwise (· < ·) := by
    rw [List.pairwise_map] at hsorted ⊢
    exact hsorted.imp fun h => entryKey_lt d h
  cases hlast : (entries.take k).getLast? with
  | none =>
    have hall : MetadataTree.following [] (entries.map fun e => entryKey d e.name) =
        entries.map fun e => entryKey d e.name := List.filter_eq_self.mpr fun _ _ => by simp
    have hdrop : entries.drop k = entries := by
      have happend := List.take_append_drop k entries
      rwa [List.getLast?_eq_none_iff.mp hlast, List.nil_append] at happend
    rw [Option.map_none, Option.getD_none, hall, hdrop]
  | some e =>
    have hsplit : (entries.map fun e => entryKey d e.name) =
        ((entries.take k).map fun e => entryKey d e.name) ++
          (entries.drop k).map fun e => entryKey d e.name := by
      rw [← List.map_append, List.take_append_drop]
    rw [Option.map_some, Option.getD_some, hsplit]
    refine MetadataTree.following_last (hsplit ▸ hkeys) ?_ (entryKey_ne_nil d e.name)
    rw [List.getLast?_map, hlast]
    rfl

/-- The last key after one more page. -/
theorem getLast?_take_add (entries : List DirectoryEntry) (k limit : ℕ) :
    (entries.take (k + limit)).getLast? =
      ((entries.drop k).take limit).getLast?.or (entries.take k).getLast? := by
  rw [List.take_add, List.getLast?_append]

end Pages

section Pinned

variable [Digest] {payloads : Set Bytes} {objects objects' : ObjectStore} {m : StdMap Bytes Hash}
  {fs : Filesystem} {d : InodeId} {entries : List DirectoryEntry} {c : Container} {ns : Namespace}
  {cursor : DirectoryCursor} {k limit : ℕ} {attributes : Bool}

theorem Depicts.mono (h : Depicts objects m fs) (hext : objects.Extends objects') :
    Depicts objects' m fs := by
  refine ⟨fun f => ?_, h.only⟩
  have hrecord := h.record f
  cases hm : m[f.key]? with
  | none =>
    rw [hm] at hrecord
    exact hrecord
  | some id =>
    rw [hm] at hrecord
    obtain ⟨b, hb, hobject⟩ := Option.map_eq_some_iff.mp hrecord.symm
    rw [hb, Option.map_some, Option.map_some, hext id b hobject.symm]

/-- A cursor whose version is stored. -/
structure Container.Pins (c : Container) (cursor : DirectoryCursor) (d : InodeId) (fs : Filesystem) :
    Prop where
  /-- The version is not collected. -/
  pin : cursor.pin ∈ c.directoryPins
  /-- The version is stored, and depicts a file system. -/
  version : ∃ root tree, HoldsVersion c.store.objects cursor.manifest root tree ∧
    Depicts c.store.objects (treeMap tree) fs
  /-- The cursor is on a directory of it. -/
  pre : cursor.pre = directoryPrefix d

/-- The listed entries are the keys of a version below a directory. -/
theorem Filesystem.Lists.keys_eq {s : LevelStore} {id root : Hash} {tree : KeyTree Bytes Hash}
    (h : fs.Lists d entries) (hfs : fs.Consistent) (hversion : HoldsVersion s.objects id root tree)
    (hdepicts : Depicts s.objects (treeMap tree) fs) (hcf : CollisionFree payloads)
    (hknown : Known s payloads) :
    tree.keys.filter (directoryPrefix d <+: ·) = entries.map fun e => entryKey d e.name := by
  obtain ⟨names, hnames, hsorted, hmem⟩ := hdepicts.keys (hversion.shows hcf hknown) d
  rw [hversion.keys hcf hknown] at hnames
  have heq : names = entries.map DirectoryEntry.name := by
    refine List.Perm.eq_of_pairwise (fun a b _ _ hab hba => absurd hab (lt_asymm hba)) hsorted h.sorted ?_
    refine (List.perm_ext_iff_of_nodup (hsorted.imp fun h => h.ne) (h.sorted.imp fun h => h.ne)).mpr ?_
    intro name
    rw [hmem, List.mem_map]
    constructor
    · intro hsome
      obtain ⟨x, hx⟩ := Option.isSome_iff_exists.mp hsome
      obtain ⟨n, hn⟩ := hfs.exists_inode hx
      exact ⟨⟨name, x, n⟩, (h.mem _).mpr ⟨hx, hn⟩, rfl⟩
    · rintro ⟨e, he, rfl⟩
      rw [((h.mem e).mp he).1]
      rfl
  rw [Except.ok.inj hnames, heq, List.map_map]
  rfl

omit [Digest] in
/-- A listed entry is read with its attributes. -/
theorem Filesystem.Lists.entry_eq {v : NamespaceView} (h : fs.Lists d entries) (hv : v.Pictures fs)
    {e : DirectoryEntry} (he : e ∈ entries) :
    v.entry (directoryPrefix d) (entryKey d e.name) = .ok e := by
  obtain ⟨hentry, hinode⟩ := (h.mem e).mp he
  have hchild := hv.child d e.name
  rw [hentry] at hchild
  obtain ⟨b, hb, hid⟩ := bind_eq_ok.mp (hchild : _ = Except.ok e.id)
  rw [NamespaceView.entry, hb, ok_bind, hid, ok_bind, hv.inode, hinode, found, ok_bind, entryKey,
    List.drop_left]
  rfl

theorem HoldsVersion.ne_zero {s : LevelStore} {id root : Hash} {tree : KeyTree Bytes Hash}
    (h : HoldsVersion s.objects id root tree) (hcf : CollisionFree payloads)
    (hknown : Known s payloads) : id ≠ Hash.zero := by
  rw [← s.objects.checked_object id _ h.manifest]
  exact hcf.ne_zero _ (hknown.mem id _ h.manifest)

/-- The keys of a page and the one after it. -/
theorem Filesystem.Lists.page_eq {s : LevelStore} {id root : Hash} {tree : KeyTree Bytes Hash}
    (h : fs.Lists d entries) (hfs : fs.Consistent) (hversion : HoldsVersion s.objects id root tree)
    (hdepicts : Depicts s.objects (treeMap tree) fs) (hcf : CollisionFree payloads)
    (hknown : Known s payloads) (hlimit : 1 ≤ limit ∧ limit ≤ 1024) :
    (⟨s.catalog, .tree root⟩ : NamespaceView).page (directoryPrefix d)
      (((entries.take k).getLast?.map fun e => entryKey d e.name).getD []) (limit + 1) =
        .ok (((entries.drop k).take (limit + 1)).map fun e => entryKey d e.name) := by
  have hediting := hversion.editing hknown
  have hafter : ((entries.take k).getLast?.map fun e => entryKey d e.name).getD [] = [] ∨
      directoryPrefix d <+: ((entries.take k).getLast?.map fun e => entryKey d e.name).getD [] := by
    cases (entries.take k).getLast? with
    | none => exact .inl rfl
    | some e => exact .inr (List.prefix_append _ _)
  have hwanted (after : Bytes) : tree.keys.filter (MetadataTree.Wanted (directoryPrefix d) after ·) =
      MetadataTree.following after (tree.keys.filter (directoryPrefix d <+: ·)) := by
    rw [MetadataTree.following, List.filter_filter]
    refine List.filter_congr fun key _ => ?_
    rw [← Bool.decide_and, decide_eq_decide]
    exact and_comm
  have hbounds : 0 < limit + 1 ∧ limit + 1 ≤ 1025 := by omega
  have hpage := MetadataTree.page_treeId hcf hediting.wf hediting.holds hediting.height
    hediting.root hbounds hafter
  rw [hwanted, h.keys_eq hfs hversion hdepicts hcf hknown, following_moved h.sorted,
    ← List.map_take] at hpage
  exact hpage

omit [Digest] in
/-- A page has at most its limit exactly if it reaches the end. -/
theorem length_page_le (entries : List DirectoryEntry) (d : InodeId) (k limit : ℕ) :
    (((entries.drop k).take (limit + 1)).map fun e => entryKey d e.name).length ≤ limit ↔
      entries.length ≤ k + limit := by
  rw [List.length_map, List.length_take, List.length_drop]
  omega

omit [Digest] in
/-- The keys of a page, without the one after it. -/
theorem page_keys (entries : List DirectoryEntry) (d : InodeId) (k limit : ℕ) :
    (if decide (entries.length ≤ k + limit) = true then
        ((entries.drop k).take (limit + 1)).map fun e => entryKey d e.name
      else (((entries.drop k).take (limit + 1)).map fun e => entryKey d e.name).take limit) =
      ((entries.drop k).take limit).map fun e => entryKey d e.name := by
  rw [← List.map_take, List.take_take, min_eq_left (Nat.le_succ limit)]
  split
  · rename_i heof
    have hlength : (entries.drop k).length ≤ limit := by
      have hend := of_decide_eq_true heof
      rw [List.length_drop]
      omega
    rw [List.take_of_length_le hlength, List.take_of_length_le (hlength.trans (Nat.le_succ limit))]
  · rfl

/-- A read returns the page at the position of the cursor and moves the cursor past it. -/
theorem Container.Pins.readPage (h : c.Pins cursor d fs) (hfs : fs.Consistent)
    (hlists : fs.Lists d entries) (hcf : CollisionFree payloads) (hknown : Known c.store payloads)
    (hns : cursor.view = ns.view ∧ cursor.revision = ns.revision)
    (hlimit : 1 ≤ limit ∧ limit ≤ 1024) :
    ns.readPage c.store.catalog (cursor.moved d entries k) limit attributes =
      .ok (pageAt entries k limit attributes, cursor.moved d entries (k + limit)) := by
  obtain ⟨root, tree, hversion, hdepicts⟩ := h.version
  have hmanifest : decide (cursor.manifest = Hash.zero) = false :=
    decide_eq_false (hversion.ne_zero hcf hknown)
  have hpictures := hdepicts.pictures (hversion.shows hcf hknown) fun id n hn =>
    (hfs.inode id n hn).valid
  have hown : (cursor.moved d entries k).view = ns.view ∧
      (cursor.moved d entries k).revision = ns.revision := hns
  rw [Namespace.readPage, need_of hlimit, ok_bind, need_of hown, ok_bind]
  by_cases hdone : 0 < k ∧ entries.length ≤ k
  · have htake : entries.take (k + limit) = entries.take k := by
      rw [List.take_of_length_le hdone.2, List.take_of_length_le (by omega)]
    have hdrop : entries.drop k = [] := List.drop_eq_nil_of_le hdone.2
    have hmoved : cursor.moved d entries (k + limit) = cursor.moved d entries k := by
      have hlater : 0 < k + limit ∧ entries.length ≤ k + limit := by omega
      simp only [DirectoryCursor.moved, htake, hdone, hlater]
    have hpage : pageAt entries k limit attributes = ⟨[], true, []⟩ := by
      have heof : entries.length ≤ k + limit := by omega
      simp only [pageAt, hdrop, List.take_nil, List.map_nil, ite_self, heof, decide_true]
    have hend : (cursor.moved d entries k).done = true := by
      simp only [DirectoryCursor.moved, hdone, and_self, decide_true, Bool.or_true]
    rw [if_pos hend, hmoved, hpage]
    rfl
  · have hgoing : (cursor.moved d entries k).done = false := by
      simp only [DirectoryCursor.moved, hdone, hmanifest, decide_false, Bool.or_self]
    have hpre : (cursor.moved d entries k).pre = directoryPrefix d := h.pre
    have hload : NamespaceView.load c.store.catalog (cursor.moved d entries k).manifest true =
        .ok ⟨c.store.catalog, .tree root⟩ := hversion.load hcf hknown
    have hkeys : (⟨c.store.catalog, .tree root⟩ : NamespaceView).page (cursor.moved d entries k).pre
        (cursor.moved d entries k).after (limit + 1) =
          .ok (((entries.drop k).take (limit + 1)).map fun e => entryKey d e.name) := by
      rw [hpre]
      exact hlists.page_eq hfs hversion hdepicts hcf hknown hlimit
    have hlast : (((entries.drop k).take limit).map fun e => entryKey d e.name).getLast?.getD
        (cursor.moved d entries k).after = (cursor.moved d entries (k + limit)).after := by
      change _ = ((entries.take (k + limit)).getLast?.map _).getD []
      rw [getLast?_take_add, List.getLast?_map]
      cases ((entries.drop k).take limit).getLast? <;> rfl
    have hnames : (((entries.drop k).take limit).map fun e => entryKey d e.name).map
        (·.drop (cursor.moved d entries k).pre.length) =
          ((entries.drop k).take limit).map DirectoryEntry.name := by
      rw [List.map_map, hpre]
      exact List.map_congr_left fun e _ => List.drop_left
    have hend : (cursor.moved d entries (k + limit)).done = decide (entries.length ≤ k + limit) := by
      have hpos : 0 < k + limit := by omega
      simp only [DirectoryCursor.moved, hmanifest, hpos, true_and, Bool.false_or]
    have hread : (((entries.drop k).take limit).map fun e => entryKey d e.name).mapM
        (NamespaceView.entry ⟨c.store.catalog, .tree root⟩ (cursor.moved d entries k).pre) =
          .ok ((entries.drop k).take limit) := by
      have hall := mapM_map_of_ok (h := fun e : DirectoryEntry => entryKey d e.name) (g := id)
        fun e (he : e ∈ (entries.drop k).take limit) =>
          hlists.entry_eq hpictures (List.mem_of_mem_drop (List.mem_of_mem_take he))
      rwa [List.map_id, ← hpre] at hall
    rw [if_neg (by simp [hgoing]), hload, ok_bind, hkeys, ok_bind]
    simp only [length_page_le, page_keys, hlast, hnames, hread, ok_bind, pageAt]
    rw [← hend]
    cases attributes with
    | false => rfl
    | true => rfl

end Pinned

section Calls

variable [Digest] {c c' : Container} {ns : Namespace} {cursor : DirectoryCursor} {d : InodeId}
  {fs : Filesystem}

/-- A call that does not drop a cursor. -/
def ContainerCall.Leaves (cursor : DirectoryCursor) : ContainerCall → Prop
  | .closeDirectory other => other.pin ≠ cursor.pin
  | _ => True

theorem OneBatch.extends {s s' : LevelStore} (h : OneBatch s s') : s.objects.Extends s'.objects := by
  rcases h with rfl | ⟨expected, mutations, h⟩
  · exact ObjectStore.Extends.refl _
  · exact (LevelStore.transact_eq_ok h).extends_

theorem Commits.directoryPins_eq {world : Bytes} {v : NamespaceView} {edits : List Edit}
    {created : Option InodeId} (h : Commits c world v edits created c') :
    c'.directoryPins = c.directoryPins := by
  cases h with
  | nothing => rfl
  | batch => rfl

/-- Operations on Worlds keep the cursors. -/
theorem Performed.directoryPins_eq {op : NamespaceCall} (h : Performed ns op c c') :
    c'.directoryPins = c.directoryPins := by
  cases h with
  | updated v edits created _ hworld hv hplanned hcommit => exact hcommit.directoryPins_eq
  | wroteNext v edits created c₁ token h position hworld hv hplanned hcommit htoken hop =>
    exact hcommit.directoryPins_eq
  | opened v env path o opening token h _ hworld hmode hlimit hv hopening hfresh hhandle hcommit =>
    exact hcommit.directoryPins_eq
  | _ => rfl

theorem attains_openDirectory_pin (ns : Namespace) (path : Bytes) (c : Container) :
    Attains (ns.openDirectory path) c fun cursor c' =>
      c' = { c with directoryPins := cursor.pin :: c.directoryPins } := by
  refine (readOnly_current ns).bind fun v _ => ?_
  refine (readOnly_attempt _).bind fun id _ => ?_
  refine (readOnly_attempt _).bind fun n _ => ?_
  refine (readOnly_attempt _).bind fun _ _ => ?_
  refine readOnly_get.bind fun c₁ hc₁ => ?_
  cases hc₁
  exact (readOnly_attempt _).bind fun planned _ => rfl

/-- While a cursor lives, no call takes anything from the store. -/
theorem Container.Pins.call (h : c.Pins cursor d fs) (hsound : c.Sound) {op : ContainerCall}
    (hop : op.Leaves cursor) : (after op.method c).Pins cursor d fs := by
  obtain ⟨hpin, ⟨root, tree, hversion, hdepicts⟩, hpre⟩ := h
  have hkeep {c' : Container} (hpins : cursor.pin ∈ c'.directoryPins)
      (hext : c.store.objects.Extends c'.store.objects) : c'.Pins cursor d fs :=
    ⟨hpins, ⟨root, tree, hversion.mono hext, hdepicts.mono hext⟩, hpre⟩
  have hsame : c.Pins cursor d fs := ⟨hpin, ⟨root, tree, hversion, hdepicts⟩, hpre⟩
  cases op with
  | onView ns env op =>
    change Container.Pins (after (op.method ns env) c) cursor d fs
    rcases (op.attains hsound.table.described hsound.table.counts ns env).after with
      ⟨_, hperformed⟩ | h
    · exact hkeep (hperformed.directoryPins_eq ▸ hpin) hperformed.oneBatch.extends
    · rwa [h]
  | put key value =>
    change Container.Pins (after (Container.put key value) c) cursor d fs
    rcases (attains_put key value c).after with ⟨_, store, hkey, hstore, h⟩ | h
    · rw [h]
      exact hkeep hpin (LevelStore.transact_eq_ok hstore).extends_
    · rwa [h]
  | transact expected mutations =>
    change Container.Pins (after (Container.transact expected mutations) c) cursor d fs
    rcases (attains_userTransact expected mutations c).after with ⟨_, store, hkeys, hstore, h⟩ | h
    · rw [h]
      exact hkeep hpin (LevelStore.transact_eq_ok hstore).extends_
    · rwa [h]
  | openDirectory ns path =>
    change Container.Pins (after (discard (ns.openDirectory path)) c) cursor d fs
    rw [after_discard]
    rcases (attains_openDirectory_pin ns path c).after with ⟨other, h⟩ | h
    · rw [h]
      exact hkeep (List.mem_cons_of_mem _ hpin) (ObjectStore.Extends.refl _)
    · rwa [h]
  | closeDirectory other =>
    refine hkeep ?_ (ObjectStore.Extends.refl _)
    exact List.mem_filter.mpr ⟨hpin, decide_eq_true (Ne.symm hop)⟩
  | collectGarbage =>
    change Container.Pins (after (discard Container.collectGarbage) c) cursor d fs
    rw [after_discard]
    rcases after_collectGarbage c with h | ⟨removed, store, hhandles, hpins, hplan, h⟩
    · rwa [h]
    · rw [hpins] at hpin
      cases hpin

end Calls

end ForkFs
