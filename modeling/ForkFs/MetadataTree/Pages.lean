import ForkFs.MetadataTree.Listing

/-!
# Pages of a tree

A tree that `entries` accepts is searched in order. `keys` is then the part of its keys with a given
beginning, and pages that continue from their last keys enumerate them.
-/

namespace ForkFs

open Bytes Treap Treap.KeyTree

namespace MetadataTree

section Accepted

variable {getObject : Hash → Except String Bytes} {priority : Bytes → Hash} {t : MetadataTree}
  {id : Hash} {s : KeyTree Bytes Hash}

/-- The entries of an ordered tree are sorted. -/
theorem Searchable.sorted (h : Searchable s) : s.toList.Pairwise fun a b => a.1 < b.1 := by
  induction s with
  | leaf => exact .nil
  | node l k v r ihl ihr =>
    obtain ⟨hl, hr, hlk, hkr⟩ := h
    have hkey {t : KeyTree Bytes Hash} {e : Bytes × Hash} (he : e ∈ t.toList) : e.1 ∈ t.keys :=
      List.mem_map_of_mem he
    rw [KeyTree.toList, List.pairwise_append, List.pairwise_cons]
    refine ⟨ihl hl, ⟨fun e he => hkr e.1 (hkey he), ihr hr⟩, fun a ha b hb => ?_⟩
    rcases List.mem_cons.mp hb with rfl | hb
    · exact hlk a.1 (hkey ha)
    · exact (hlk a.1 (hkey ha)).trans (hkr b.1 (hkey hb))

/-- The keys that a fresh reader finds are valid. -/
theorem Walks.validKey {root : Hash} (h : Walks getObject (new root) id s) {k : Bytes}
    (hk : k ∈ s.keys) : validKey k := by
  induction s generalizing id with
  | leaf => simp at hk
  | node l k' v r ihl ihr =>
    obtain ⟨-, n, hread, rfl, rfl, hl, hr⟩ := h
    rw [mem_keys_node] at hk
    rcases hk with hk | rfl | hk
    · exact ihl hl hk
    · simp only [MetadataTree.node, new, Std.ExtTreeMap.getElem?_empty] at hread
      obtain ⟨b, -, hdecode⟩ := Outcome.bind_eq_ok.mp hread
      exact (Node.encode_of_decode hdecode).2.1
    · exact ihr hr hk

end Accepted

section Enumeration

variable {getObject : Hash → Except String Bytes} {priority : Bytes → Hash} {t : MetadataTree}
  {pre after last : Bytes} {keys : List Bytes}

/-- The keys of a map that start with `pre`. -/
def keysWith (m : StdMap Bytes Hash) (pre : Bytes) : List Bytes :=
  (m.toList.map Prod.fst).filter (pre <+: ·)

/-- The keys after a given one. An empty string stands for the beginning. -/
def following (after : Bytes) (keys : List Bytes) : List Bytes :=
  keys.filter fun k => after = [] ∨ after < k

/-- Pages with the given limits, each of which continues from the last key of the one before. -/
def pages (getObject : Hash → Except String Bytes) (t : MetadataTree) (pre : Bytes) :
    List ℕ → Bytes → Except String (List Bytes)
  | [], _ => pure []
  | limit :: limits, after => do
    let page ← t.page getObject pre after limit
    match page.getLast? with
    | none => pure []
    | some last => do
      let rest ← pages getObject t pre limits last
      pure (page ++ rest)

/-- What follows the last key of a page is what is not on it. -/
theorem following_last {front back : List Bytes} (hsorted : (front ++ back).Pairwise (· < ·))
    (hlast : last ∈ front.getLast?) (hne : last ≠ []) : following last (front ++ back) = back := by
  obtain ⟨hfront, -, hcross⟩ := List.pairwise_append.mp hsorted
  have hmem := List.mem_of_getLast? hlast
  have hle : ∀ k ∈ front, k ≤ last := by
    obtain ⟨init, rfl⟩ := List.getLast?_eq_some_iff.mp hlast
    obtain ⟨-, -, hbelow⟩ := List.pairwise_append.mp hfront
    intro k hk
    rcases List.mem_append.mp hk with hk | hk
    · exact (hbelow k hk last (by simp)).le
    · exact (List.mem_singleton.mp hk).le
  rw [following, List.filter_append, List.filter_eq_nil_iff.mpr, List.nil_append,
    List.filter_eq_self.mpr]
  · intro k hk
    exact decide_eq_true (.inr (hcross last hmem k hk))
  · intro k hk hwanted
    rcases of_decide_eq_true hwanted with hnil | hlt
    · exact hne hnil
    · exact absurd hlt (not_lt.mpr (hle k hk))

/-- What listings of a tree return, in terms of its map. -/
structure Lists (getObject : Hash → Except String Bytes) (t : MetadataTree) (m : StdMap Bytes Hash)
    (pre : Bytes) : Prop where
  sorted : (keysWith m pre).Pairwise (· < ·)
  /-- All keys. -/
  keys : t.keys getObject pre = .ok (keysWith m pre)
  /-- A page. -/
  page : ∀ after limit, (after = [] ∨ pre <+: after) → 1 ≤ limit → limit ≤ 1025 →
    t.page getObject pre after limit = .ok ((following after (keysWith m pre)).take limit)
  /-- Pages with any limits enumerate the keys, each once. -/
  pages : ∀ limits : List ℕ, (∀ n ∈ limits, 1 ≤ n ∧ n ≤ 1025) →
    pages getObject t pre limits [] = .ok ((keysWith m pre).take limits.sum)

end Enumeration

end MetadataTree

end ForkFs
