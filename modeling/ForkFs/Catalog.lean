import ForkFs.Basic
import ForkFs.Lib.StdMap

/-!
# Roots and objects

Both storage engines offer the same reads: a map of named roots and a function that reads
immutable objects. Views of the namespace are built on these reads alone.
-/

namespace ForkFs

open Bytes

/-- The reads of a repository. -/
structure Catalog where
  /-- Whether LevelDB is the engine. -/
  leveldb : Bool
  /-- Named objects. -/
  roots : StdMap Bytes Hash
  /-- Read an object. -/
  getObject : Hash → Except String Bytes

namespace Catalog

/-- The object of a root. -/
def rootObject (j : Catalog) (key : Bytes) : Except String Hash :=
  match j.roots[key]? with
  | none => .error "object root not found"
  | some id => .ok id

/-- The payload of a root. -/
def get (j : Catalog) (key : Bytes) : Except String Bytes := do
  let id ← j.rootObject key
  j.getObject id

/-- The roots that start with `pre`, in order. -/
def keys (j : Catalog) (pre : Bytes) : List Bytes :=
  (j.roots.toList.map Prod.fst).filter (pre <+: ·)

variable {j : Catalog} {key : Bytes} {id : Hash}

theorem rootObject_eq_ok : j.rootObject key = .ok id ↔ j.roots[key]? = some id := by
  unfold rootObject
  cases j.roots[key]? <;> simp

theorem mem_keys {pre : Bytes} : key ∈ j.keys pre ↔ key ∈ j.roots ∧ pre <+: key := by
  rw [keys, List.mem_filter, StdMap.mem_map_toList, decide_eq_true_eq]

end Catalog

end ForkFs
