import ForkFs.Container.Collection

/-!
# Unchanged views

The complete content of a view is what its reads return: the bytes of every key, the keys with
every beginning, and the map of references. A view is unchanged by whatever keeps the root it is
read through and the live objects.
-/

namespace ForkFs

open Bytes Treap Treap.KeyTree Outcome

variable [Digest] {payloads : Set Bytes} {s s' : LevelStore} {ns : Namespace}

/-- The current version of a World or revision. -/
def LevelStore.view (s : LevelStore) (ns : Namespace) : Except String NamespaceView :=
  NamespaceView.open_ s.catalog ns.view ns.revision true

/-- The bytes that a key of a World or revision resolves to. -/
def LevelStore.readKey (s : LevelStore) (ns : Namespace) (key : Bytes) : Except String Bytes := do
  let v ← s.view ns
  v.get key

/-- The keys of a World or revision with a beginning. -/
def LevelStore.listKeys (s : LevelStore) (ns : Namespace) (pre : Bytes) :
    Except String (List Bytes) := do
  let v ← s.view ns
  v.keys pre

/-- The references of a World or revision. -/
def LevelStore.referencesOf (s : LevelStore) (ns : Namespace) :
    Except String (StdMap Bytes Hash) := do
  let v ← s.view ns
  v.references

/-- A World or revision of one store has the same content as one of another store. -/
structure SameView (s : LevelStore) (ns : Namespace) (s' : LevelStore) (ns' : Namespace) : Prop where
  /-- Every key resolves to the same bytes. -/
  bytes : ∀ key, namespacePrefix <+: key → s'.readKey ns' key = s.readKey ns key
  /-- The same keys are listed. -/
  keys : ∀ pre, namespacePrefix <+: pre → s'.listKeys ns' pre = s.listKeys ns pre
  /-- The references are the same. -/
  references : s'.referencesOf ns' = s.referencesOf ns

theorem SameView.refl (s : LevelStore) (ns : Namespace) : SameView s ns s ns :=
  ⟨fun _ _ => rfl, fun _ _ => rfl, rfl⟩

theorem SameView.trans {s'' : LevelStore} {ns' ns'' : Namespace} (h : SameView s ns s' ns')
    (h' : SameView s' ns' s'' ns'') : SameView s ns s'' ns'' :=
  ⟨fun key hkey => (h'.bytes key hkey).trans (h.bytes key hkey),
    fun pre hpre => (h'.keys pre hpre).trans (h.keys pre hpre), h'.references.trans h.references⟩

theorem sameView_of_error {message : String} (h : s.view ns = .error message)
    (h' : s'.view ns = .error message) : SameView s ns s' ns := by
  refine ⟨fun key _ => ?_, fun pre _ => ?_, ?_⟩
  · rw [LevelStore.readKey, LevelStore.readKey, h, h']
  · rw [LevelStore.listKeys, LevelStore.listKeys, h, h']
  · rw [LevelStore.referencesOf, LevelStore.referencesOf, h, h']

/-- What a view that shows a map returns for a key. -/
theorem Shows.get {v : NamespaceView} {m : StdMap Bytes Hash} (h : Shows s v m) {key : Bytes}
    (hkey : namespacePrefix <+: key) :
    v.get key = match m[key]? with
      | none => .error "namespace key not found"
      | some id => s.objects.object id := by
  unfold NamespaceView.get
  rw [h.lookup key hkey, ok_bind, h.journal]
  cases m[key]? <;> rfl

/-- Views that show the same map with the same objects have the same content. -/
theorem sameView_of_shows {ns' : Namespace} {v v' : NamespaceView} {m : StdMap Bytes Hash}
    (hv : s.view ns = .ok v) (hv' : s'.view ns' = .ok v') (h : Shows s v m) (h' : Shows s' v' m)
    (hobjects : ∀ (key : Bytes) id, m[key]? = some id → s'.objects.object id = s.objects.object id) :
    SameView s ns s' ns' := by
  refine ⟨fun key hkey => ?_, fun pre hpre => ?_, ?_⟩
  · rw [LevelStore.readKey, LevelStore.readKey, hv, hv', ok_bind, ok_bind, h.get hkey, h'.get hkey]
    cases hm : m[key]? with
    | none => rfl
    | some id => exact hobjects key id hm
  · rw [LevelStore.listKeys, LevelStore.listKeys, hv, hv', ok_bind, ok_bind, h.keys pre hpre,
      h'.keys pre hpre]
  · rw [LevelStore.referencesOf, LevelStore.referencesOf, hv, hv', ok_bind, ok_bind, h.references,
      h'.references]

/-- The root that a World or revision is read through. -/
def Namespace.root (ns : Namespace) : RootName :=
  if ns.revision then .revision ns.view else .world ns.view

/-- The values of a reached version are kept. -/
theorem HoldsVersion.object_eq {objects : ObjectStore} {id root : Hash} {t : KeyTree Bytes Hash}
    (h : HoldsVersion s.objects id root t) (hkeeps : Keeps s objects) (hcf : CollisionFree payloads)
    (hknown : Known s payloads) (hreached : Reached s .manifest id) {key : Bytes} {value : Hash}
    (hvalue : (treeMap t)[key]? = some value) : objects.object value = s.objects.object value := by
  rw [getElem?_treeMap h.tree.wf, find?_eq_some_iff h.tree.wf] at hvalue
  obtain ⟨b, hb⟩ := h.values _ hvalue
  rw [hb]
  exact hkeeps.reached (h.reached_values hcf hknown hreached _ hvalue) hb

omit [Digest] in
/-- Records of the flat World are no part of the history. -/
theorem not_history_of_namespacePrefix {key rest : Bytes} (h : namespacePrefix <+: key) :
    ¬ history ++ rest <+: key := by
  rintro ⟨tail, rfl⟩
  obtain ⟨tail', h⟩ := h
  have hmark := congrArg (fun key : Bytes => ((key.drop 7).headD 0).toNat) h
  exact absurd (show 47 = 45 from hmark) (by decide)

/-- A view is unchanged by what keeps its root and the live objects. The first World is read
from its flat roots while it has no head. -/
theorem sameView_of_keeps (hs : s.Closed) (hs' : s'.Closed) (hcf : CollisionFree payloads)
    (hknown : Known s payloads) (hknown' : Known s' payloads) (hkeeps : Keeps s s'.objects)
    (hroot : s'.roots[ns.root.key]? = s.roots[ns.root.key]?)
    (hflat : ns = ⟨ascii "main", false⟩ → (RootName.world (ascii "main")).key ∉ s.roots →
      ∀ key : Bytes, namespacePrefix <+: key → s'.roots[key]? = s.roots[key]?) :
    SameView s ns s' ns := by
  obtain ⟨name, revision⟩ := ns
  by_cases hname : NamespaceView.validName name
  swap
  · exact sameView_of_error (open_invalid revision hname) (open_invalid revision hname)
  cases revision with
  | false =>
    change s'.roots[(RootName.world name).key]? = s.roots[(RootName.world name).key]? at hroot
    cases hhead : s.roots[(RootName.world name).key]? with
    | some id =>
      obtain ⟨m, root, t, ht, -⟩ := hs.leads (.world name) id hhead
      have hreached : Reached s .manifest id := .start (.world hhead)
      have ht' := ht.retained hkeeps hcf hknown hreached
      exact sameView_of_shows (open_world hname hhead ht hcf hknown)
        (open_world hname (hroot.trans hhead) ht' hcf hknown') (ht.shows hcf hknown)
        (ht'.shows hcf hknown') fun key value hvalue => ht.object_eq hkeeps hcf hknown hreached hvalue
    | none =>
      by_cases hmain : name = ascii "main"
      · subst hmain
        have hnone := StdMap.notMem_iff.mpr hhead
        have hmap : flatMap s' = flatMap s := StdMap.ext fun key => by
          rw [getElem?_flatMap, getElem?_flatMap]
          split
          · exact hflat rfl hnone key ‹_›
          · rfl
        have hshows' := shows_flat hs'
        rw [hmap] at hshows'
        refine sameView_of_shows (open_flat hnone)
          (open_flat (StdMap.notMem_iff.mpr (hroot.trans hhead))) (shows_flat hs) hshows'
          fun key value hvalue => ?_
        rw [getElem?_flatMap] at hvalue
        split at hvalue
        · rename_i hkey
          obtain ⟨b, hb⟩ := hs.named key value hvalue
          rw [hb]
          exact hkeeps value b (Or.inl ⟨key, hvalue, not_history_of_namespacePrefix hkey⟩) hb
        · cases hvalue
      · exact sameView_of_error (open_missing_world hname hmain hhead)
          (open_missing_world hname hmain (hroot.trans hhead))
  | true =>
    change s'.roots[(RootName.revision name).key]? = s.roots[(RootName.revision name).key]? at hroot
    cases hrevision : s.roots[(RootName.revision name).key]? with
    | some id =>
      obtain ⟨manifest, parent, sequence, hobject, m, root, t, ht, -⟩ :=
        Lineage.record (hs.leads (.revision name) id hrevision)
      have hstart : Reached s .revision id := .start (.revision hrevision)
      have hreached := hstart.child (.manifest hobject (descriptorManifest_descriptor _ _ _))
      have ht' := ht.retained hkeeps hcf hknown hreached
      exact sameView_of_shows (open_revision hname hrevision hobject ht hcf hknown)
        (open_revision hname (hroot.trans hrevision) (hkeeps.reached hstart hobject) ht' hcf hknown')
        (ht.shows hcf hknown) (ht'.shows hcf hknown')
        fun key value hvalue => ht.object_eq hkeeps hcf hknown hreached hvalue
    | none =>
      exact sameView_of_error (open_missing_revision hname hrevision)
        (open_missing_revision hname (hroot.trans hrevision))

end ForkFs
