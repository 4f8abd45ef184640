import ForkFs.Basic
import ForkFs.Lib.StdMap

/-!
# The object keyspace

Objects are immutable and stored under their identity. Every writer derives the key from the
payload, so the correspondence is carried by the type. Reads check it again, as the store does.
-/

namespace ForkFs

open Bytes

variable [Digest]

/-- The objects of a repository. -/
structure ObjectStore where
  /-- Payloads by identity. -/
  payloads : StdMap Hash Bytes
  /-- Each payload is stored under its own identity. -/
  checked : ∀ id b, payloads[id]? = some b → objectHash b = id

namespace ObjectStore

/-- The store without objects. -/
def empty : ObjectStore := ⟨∅, by simp⟩

/-- Read an object and check its identity. -/
def object (s : ObjectStore) (id : Hash) : Except String Bytes :=
  match s.payloads[id]? with
  | none => .error "object not indexed"
  | some b => do
    need (objectHash b = id) "LevelDB object hash mismatch"
    return b

/-- Store a payload unless an object of its identity exists. -/
def put (s : ObjectStore) (b : Bytes) : ObjectStore where
  payloads := s.payloads.insertIfNew (objectHash b) b
  checked id c hc := by
    rw [StdMap.getElem?_insertIfNew] at hc
    split at hc
    · rename_i h
      rw [h.1, Option.some.inj hc]
    · exact s.checked id c hc

/-- Store payloads in order. -/
def putAll (s : ObjectStore) (objects : List Bytes) : ObjectStore :=
  objects.foldl put s

/-- The payloads of all objects. -/
def contents (s : ObjectStore) : Set Bytes := { b | ∃ id : Hash, s.payloads[id]? = some b }

/-- Every object of the first store is an object of the second. -/
def Extends (s s' : ObjectStore) : Prop :=
  ∀ id b, s.object id = .ok b → s'.object id = .ok b

variable {s s' : ObjectStore} {id : Hash} {b : Bytes}

theorem object_eq_ok : s.object id = .ok b ↔ s.payloads[id]? = some b := by
  unfold object
  cases h : s.payloads[id]? with
  | none => simp
  | some c =>
    simp only [need_of (s.checked id c h), Outcome.ok_bind, Outcome.pure_eq_ok, Option.some.injEq]

theorem checked_object (s : ObjectStore) (id : Hash) (b : Bytes) (h : s.object id = .ok b) :
    objectHash b = id :=
  s.checked id b (object_eq_ok.mp h)

theorem mem_contents_of_object (h : s.object id = .ok b) : b ∈ s.contents :=
  ⟨id, object_eq_ok.mp h⟩

theorem mem_contents : b ∈ s.contents ↔ s.object (objectHash b) = .ok b := by
  constructor
  · intro ⟨id, h⟩
    rw [s.checked id b h]
    exact object_eq_ok.mpr h
  · exact mem_contents_of_object

theorem Extends.refl (s : ObjectStore) : s.Extends s := fun _ _ h => h

theorem Extends.trans {s'' : ObjectStore} (h : s.Extends s') (h' : s'.Extends s'') :
    s.Extends s'' :=
  fun id b hb => h' id b (h id b hb)

theorem Extends.contents_subset (h : s.Extends s') : s.contents ⊆ s'.contents :=
  fun _ hb => mem_contents.mpr (h _ _ (mem_contents.mp hb))

theorem object_put :
    (s.put b).object id =
      if id = objectHash b ∧ s.payloads[objectHash b]? = none then .ok b else s.object id := by
  have hlookup : (s.put b).payloads[id]? = _ :=
    StdMap.getElem?_insertIfNew s.payloads (objectHash b) id b
  by_cases h : id = objectHash b ∧ s.payloads[objectHash b]? = none
  · rw [if_pos h] at hlookup ⊢
    exact object_eq_ok.mpr hlookup
  · rw [if_neg h] at hlookup ⊢
    unfold object
    rw [hlookup]

theorem extends_put (s : ObjectStore) (b : Bytes) : s.Extends (s.put b) := by
  intro id c hc
  have hne : ¬ (id = objectHash b ∧ s.payloads[objectHash b]? = none) := by
    rintro ⟨rfl, hnone⟩
    rw [object_eq_ok, hnone] at hc
    cases hc
  rw [object_put, if_neg hne, hc]

theorem extends_putAll (s : ObjectStore) (objects : List Bytes) : s.Extends (s.putAll objects) := by
  induction objects generalizing s with
  | nil => exact .refl s
  | cons b objects ih => exact (extends_put s b).trans (ih _)

theorem contents_put_subset : (s.put b).contents ⊆ insert b s.contents := by
  intro c hc
  have hobject := mem_contents.mp hc
  rw [object_put] at hobject
  split at hobject
  · exact Or.inl (Except.ok.inj hobject).symm
  · exact Or.inr (mem_contents.mpr hobject)

theorem contents_putAll_subset (objects : List Bytes) :
    (s.putAll objects).contents ⊆ s.contents ∪ { b | b ∈ objects } := by
  induction objects generalizing s with
  | nil => exact fun c hc => Or.inl hc
  | cons b objects ih =>
    intro c hc
    rcases ih hc with hc | hc
    · rcases contents_put_subset hc with rfl | hc
      · exact Or.inr (by simp)
      · exact Or.inl hc
    · exact Or.inr (List.mem_cons_of_mem b hc)

/-- A payload reads back once it was put, unless it collides with an object. -/
theorem object_put_self {payloads : Set Bytes} (hcf : CollisionFree payloads)
    (hs : s.contents ⊆ payloads) (hb : b ∈ payloads) :
    (s.put b).object (objectHash b) = .ok b := by
  rw [object_put]
  cases h : s.payloads[objectHash b]? with
  | none => rw [if_pos ⟨rfl, rfl⟩]
  | some c =>
    have hc : c = b := hcf.injOn (hs ⟨_, h⟩) hb (s.checked _ c h)
    rw [if_neg (by simp), object_eq_ok, h, hc]

theorem object_putAll {payloads : Set Bytes} (hcf : CollisionFree payloads) {objects : List Bytes}
    (hs : s.contents ⊆ payloads) (hobjects : { b | b ∈ objects } ⊆ payloads) (hb : b ∈ objects) :
    (s.putAll objects).object (objectHash b) = .ok b := by
  induction objects generalizing s with
  | nil => cases hb
  | cons c objects ih =>
    have hc : c ∈ payloads := hobjects (by simp)
    have hput : (s.put c).contents ⊆ payloads :=
      contents_put_subset.trans (Set.insert_subset hc hs)
    have htail : { b | b ∈ objects } ⊆ payloads := fun x hx => hobjects (by simp_all)
    rcases List.mem_cons.mp hb with rfl | hb
    · exact extends_putAll _ objects _ _ (object_put_self hcf hs hc)
    · exact ih hput htail hb

end ObjectStore

end ForkFs
