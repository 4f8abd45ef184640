import Mathlib.Data.Prod.Lex
import Mathlib.Data.List.Basic
import Mathlib.Order.Lattice

/-!
# Treaps over an arbitrary priority function

A search tree on keys that is at the same time a heap on `rank`, the pair of a key's
priority and the key itself. Comparing ranks breaks priority ties by key, so ranks are
injective for every priority function and a treap is determined by its entries.

Insertion rebuilds the search path and rotates a child above its parent when it ranks
higher. Deletion merges the two subtrees of the removed node. Both are compared with the
in-order entry list, on which rotations and merges act trivially.
-/

namespace Treap

/-- A binary tree that carries a key and a value in every node. -/
inductive KeyTree (K V : Type*) where
  | leaf : KeyTree K V
  | node (left : KeyTree K V) (key : K) (value : V) (right : KeyTree K V) : KeyTree K V

namespace KeyTree

variable {K V : Type*}

/-- In-order entries. -/
def toList : KeyTree K V → List (K × V)
  | leaf => []
  | node l k v r => l.toList ++ (k, v) :: r.toList

/-- In-order keys. -/
def keys (t : KeyTree K V) : List K := t.toList.map Prod.fst

/-- Number of nodes on the longest path from the root. -/
def height : KeyTree K V → ℕ
  | leaf => 0
  | node l _ _ r => 1 + max l.height r.height

@[simp] theorem toList_leaf : (leaf : KeyTree K V).toList = [] := rfl

@[simp] theorem toList_node (l r : KeyTree K V) (k : K) (v : V) :
    (node l k v r).toList = l.toList ++ (k, v) :: r.toList := rfl

@[simp] theorem keys_leaf : (leaf : KeyTree K V).keys = [] := rfl

@[simp] theorem mem_keys_node {l r : KeyTree K V} {k x : K} {v : V} :
    x ∈ (node l k v r).keys ↔ x ∈ l.keys ∨ x = k ∨ x ∈ r.keys := by
  simp [keys]

theorem mem_keys_of_mem {t : KeyTree K V} {e : K × V} (h : e ∈ t.toList) : e.1 ∈ t.keys :=
  List.mem_map_of_mem h

theorem mem_keys_iff {t : KeyTree K V} {k : K} : k ∈ t.keys ↔ ∃ v, (k, v) ∈ t.toList := by
  simp [keys]

end KeyTree

open KeyTree

section Rank

variable {K P : Type*} [LinearOrder K] [LinearOrder P] (priority : K → P)

/-- Priority first, then the key. -/
def rank (k : K) : P ×ₗ K := toLex (priority k, k)

/-- `a` belongs above `b`. -/
def Higher (a b : K) : Prop := rank priority b < rank priority a

instance (a b : K) : Decidable (Higher priority a b) :=
  inferInstanceAs (Decidable (rank priority b < rank priority a))

variable {priority}

theorem Higher.trans {a b c : K} (hab : Higher priority a b) (hbc : Higher priority b c) :
    Higher priority a c :=
  lt_trans hbc hab

theorem Higher.asymm {a b : K} (h : Higher priority a b) : ¬ Higher priority b a :=
  lt_asymm h

/-- Ranks of distinct keys are comparable whatever the priorities are. -/
theorem higher_of_not_higher {a b : K} (hne : a ≠ b) (h : ¬ Higher priority a b) :
    Higher priority b a := by
  refine lt_of_le_of_ne (not_lt.mp h) fun heq => hne ?_
  exact congrArg (fun p => (ofLex p).2) heq

/-- The rank comparison written on priorities, as an implementation spells it. -/
theorem higher_iff {a b : K} :
    Higher priority a b ↔
      if priority a = priority b then b < a else priority b < priority a := by
  unfold Higher rank
  rw [Prod.Lex.toLex_lt_toLex]
  split
  next heq => simp [heq]
  next hne => simp [Ne.symm hne]

end Rank

section Operations

variable {K V P : Type*} [LinearOrder K] [LinearOrder P] (priority : K → P)

/-- Put `l` to the left of an entry, rotating its root above the entry if it ranks higher. -/
def linkLeft (l : KeyTree K V) (k : K) (v : V) (r : KeyTree K V) : KeyTree K V :=
  match l with
  | leaf => node leaf k v r
  | node ll lk lv lr =>
    if Higher priority lk k then node ll lk lv (node lr k v r)
    else node (node ll lk lv lr) k v r

/-- Put `r` to the right of an entry, rotating its root above the entry if it ranks higher. -/
def linkRight (l : KeyTree K V) (k : K) (v : V) (r : KeyTree K V) : KeyTree K V :=
  match r with
  | leaf => node l k v leaf
  | node rl rk rv rr =>
    if Higher priority rk k then node (node l k v rl) rk rv rr
    else node l k v (node rl rk rv rr)

/-- Join two treaps of which the first holds the smaller keys. -/
def merge : KeyTree K V → KeyTree K V → KeyTree K V
  | leaf, r => r
  | node ll lk lv lr, leaf => node ll lk lv lr
  | node ll lk lv lr, node rl rk rv rr =>
    if Higher priority lk rk then node ll lk lv (merge lr (node rl rk rv rr))
    else node (merge (node ll lk lv lr) rl) rk rv rr

/-- Bind a key to a value, or remove it. -/
def set (t : KeyTree K V) (k : K) (o : Option V) : KeyTree K V :=
  match t with
  | leaf =>
    match o with
    | none => leaf
    | some v => node leaf k v leaf
  | node l x y r =>
    if k = x then
      match o with
      | none => merge priority l r
      | some v => node l x v r
    else if k < x then linkLeft priority (set l k o) x y r
    else linkRight priority l x y (set r k o)

/-- The value bound to a key, by search. -/
def find? (t : KeyTree K V) (k : K) : Option V :=
  match t with
  | leaf => none
  | node l x y r => if k = x then some y else if k < x then find? l k else find? r k

/-- Search order and heap order, each against every descendant. -/
def Wf : KeyTree K V → Prop
  | leaf => True
  | node l k _ r =>
    Wf l ∧ Wf r ∧ (∀ x ∈ l.keys, x < k ∧ Higher priority k x) ∧
      ∀ x ∈ r.keys, k < x ∧ Higher priority k x

variable {priority}

theorem set_node (l r : KeyTree K V) (x k : K) (y : V) (o : Option V) :
    set priority (node l x y r) k o =
      if k = x then
        match o with
        | none => merge priority l r
        | some v => node l x v r
      else if k < x then linkLeft priority (set priority l k o) x y r
      else linkRight priority l x y (set priority r k o) := by
  rw [set.eq_def]

@[simp] theorem wf_leaf : Wf priority (leaf : KeyTree K V) := trivial

theorem wf_node {l r : KeyTree K V} {k : K} {v : V} :
    Wf priority (node l k v r) ↔
      Wf priority l ∧ Wf priority r ∧ (∀ x ∈ l.keys, x < k ∧ Higher priority k x) ∧
        ∀ x ∈ r.keys, k < x ∧ Higher priority k x :=
  Iff.rfl

/-- The entries of a treap are strictly sorted by key. -/
theorem Wf.sorted {t : KeyTree K V} (h : Wf priority t) :
    t.toList.Pairwise fun a b => a.1 < b.1 := by
  induction t with
  | leaf => exact List.Pairwise.nil
  | node l k v r ihl ihr =>
    obtain ⟨hl, hr, hlk, hkr⟩ := h
    rw [toList_node, List.pairwise_append, List.pairwise_cons]
    refine ⟨ihl hl, ⟨fun b hb => (hkr _ (mem_keys_of_mem hb)).1, ihr hr⟩, fun a ha b hb => ?_⟩
    have hak := (hlk _ (mem_keys_of_mem ha)).1
    rcases List.mem_cons.mp hb with rfl | hb
    · exact hak
    · exact hak.trans (hkr _ (mem_keys_of_mem hb)).1

/-- Search finds exactly the entries. -/
theorem find?_eq_some_iff {t : KeyTree K V} (h : Wf priority t) {k : K} {v : V} :
    find? t k = some v ↔ (k, v) ∈ t.toList := by
  induction t with
  | leaf => simp [find?]
  | node l x y r ihl ihr =>
    obtain ⟨hl, hr, hlx, hxr⟩ := h
    have hnotl : x ≤ k → (k, v) ∉ l.toList := fun hle hmem =>
      absurd (hlx _ (mem_keys_of_mem hmem)).1 (not_lt.mpr hle)
    have hnotr : k ≤ x → (k, v) ∉ r.toList := fun hle hmem =>
      absurd (hxr _ (mem_keys_of_mem hmem)).1 (not_lt.mpr hle)
    rw [find?, toList_node, List.mem_append, List.mem_cons]
    split_ifs with heq hlt
    · subst heq
      simp [hnotl le_rfl, hnotr le_rfl, eq_comm]
    · rw [ihl hl]
      simp [heq, hnotr hlt.le]
    · rw [ihr hr]
      simp [heq, hnotl (not_lt.mp hlt)]

/-- A key without an entry is not found. -/
theorem find?_eq_none_iff {t : KeyTree K V} (h : Wf priority t) {k : K} :
    find? t k = none ↔ k ∉ t.keys := by
  rw [mem_keys_iff, Option.eq_none_iff_forall_ne_some]
  simp only [ne_eq, find?_eq_some_iff h, not_exists]

@[simp] theorem toList_linkLeft (l r : KeyTree K V) (k : K) (v : V) :
    (linkLeft priority l k v r).toList = l.toList ++ (k, v) :: r.toList := by
  cases l with
  | leaf => rfl
  | node ll lk lv lr =>
    rw [linkLeft]
    split <;> simp

@[simp] theorem toList_linkRight (l r : KeyTree K V) (k : K) (v : V) :
    (linkRight priority l k v r).toList = l.toList ++ (k, v) :: r.toList := by
  cases r with
  | leaf => rfl
  | node rl rk rv rr =>
    rw [linkRight]
    split <;> simp

@[simp] theorem toList_merge (l r : KeyTree K V) :
    (merge priority l r).toList = l.toList ++ r.toList := by
  induction l, r using merge.induct priority with
  | case1 r => simp [merge]
  | case2 ll lk lv lr => simp [merge]
  | case3 ll lk lv lr rl rk rv rr h ih =>
    rw [merge, if_pos h, toList_node, ih]
    simp
  | case4 ll lk lv lr rl rk rv rr h ih =>
    rw [merge, if_neg h, toList_node, ih]
    simp

theorem mem_keys_merge {l r : KeyTree K V} {x : K} :
    x ∈ (merge priority l r).keys ↔ x ∈ l.keys ∨ x ∈ r.keys := by
  simp [keys]

/-- Merging keeps both orders when every key on the left is smaller. -/
theorem Wf.merge {l r : KeyTree K V} (hl : Wf priority l) (hr : Wf priority r)
    (hlt : ∀ x ∈ l.keys, ∀ y ∈ r.keys, x < y) : Wf priority (merge priority l r) := by
  induction l, r using merge.induct priority with
  | case1 r => simpa [Treap.merge] using hr
  | case2 ll lk lv lr => simpa [Treap.merge] using hl
  | case3 ll lk lv lr rl rk rv rr h ih =>
    obtain ⟨hll, hlr, hlllk, hlklr⟩ := hl
    have hrr := hr.2.2
    rw [Treap.merge, if_pos h]
    refine ⟨hll, ih hlr hr fun x hx y hy => hlt x (by simp [hx]) y hy, hlllk, fun x hx => ?_⟩
    rcases mem_keys_merge.mp hx with hx | hx
    · exact hlklr x hx
    · refine ⟨hlt lk (by simp) x hx, ?_⟩
      rcases mem_keys_node.mp hx with hx | rfl | hx
      · exact h.trans (hrr.1 x hx).2
      · exact h
      · exact h.trans (hrr.2 x hx).2
  | case4 ll lk lv lr rl rk rv rr h ih =>
    obtain ⟨hrl, hrr, hrlrk, hrkrr⟩ := hr
    have hll := hl.2.2
    have hlkrk : lk < rk := hlt lk (by simp) rk (by simp)
    have hhigher := higher_of_not_higher hlkrk.ne h
    rw [Treap.merge, if_neg h]
    refine ⟨ih hl hrl fun x hx y hy => hlt x hx y (by simp [hy]), hrr, fun x hx => ?_, hrkrr⟩
    rcases mem_keys_merge.mp hx with hx | hx
    · refine ⟨hlt x hx rk (by simp), ?_⟩
      rcases mem_keys_node.mp hx with hx | rfl | hx
      · exact hhigher.trans (hll.1 x hx).2
      · exact hhigher
      · exact hhigher.trans (hll.2 x hx).2
    · exact hrlrk x hx

/-- Editing a treap edits its entries at one key. -/
theorem mem_toList_set {t : KeyTree K V} (h : Wf priority t) {k : K} {o : Option V} {e : K × V} :
    e ∈ (set priority t k o).toList ↔
      (e.1 = k ∧ o = some e.2) ∨ (e.1 ≠ k ∧ e ∈ t.toList) := by
  obtain ⟨x, y⟩ := e
  induction t with
  | leaf => cases o <;> simp [set, eq_comm]
  | node l a b r ihl ihr =>
    obtain ⟨hl, hr, hla, har⟩ := h
    have hnel : ∀ {z : K}, a ≤ z → (z, y) ∉ l.toList := fun hle hmem =>
      absurd (hla _ (mem_keys_of_mem hmem)).1 (not_lt.mpr hle)
    have hner : ∀ {z : K}, z ≤ a → (z, y) ∉ r.toList := fun hle hmem =>
      absurd (har _ (mem_keys_of_mem hmem)).1 (not_lt.mpr hle)
    rw [set_node]
    split_ifs with heq hlt
    · subst heq
      have hkl : ∀ {z : K}, (z, y) ∈ l.toList → z ≠ k := fun hmem heq =>
        hnel heq.ge hmem
      have hkr : ∀ {z : K}, (z, y) ∈ r.toList → z ≠ k := fun hmem heq =>
        hner heq.le hmem
      cases o with
      | none =>
        simp only [toList_merge, toList_node, List.mem_append, List.mem_cons, Prod.mk.injEq]
        grind
      | some v =>
        simp only [toList_node, List.mem_append, List.mem_cons, Prod.mk.injEq]
        grind
    · simp only [toList_linkLeft, toList_node, List.mem_append, List.mem_cons, ihl hl,
        Prod.mk.injEq]
      have hkr : (x, y) ∈ r.toList → x ≠ k := fun hmem heq => hner (heq ▸ hlt.le) hmem
      grind
    · simp only [toList_linkRight, toList_node, List.mem_append, List.mem_cons, ihr hr,
        Prod.mk.injEq]
      have hkl : (x, y) ∈ l.toList → x ≠ k := fun hmem heq =>
        hnel (heq ▸ not_lt.mp hlt) hmem
      grind

theorem mem_keys_of_mem_keys_set {t : KeyTree K V} (h : Wf priority t) {k x : K} {o : Option V}
    (hx : x ∈ (set priority t k o).keys) : x = k ∨ x ∈ t.keys := by
  obtain ⟨v, hv⟩ := mem_keys_iff.mp hx
  rcases (mem_toList_set h).mp hv with ⟨rfl, -⟩ | ⟨-, hmem⟩
  · exact Or.inl rfl
  · exact Or.inr (mem_keys_of_mem hmem)

/-- Linking a left subtree of which only the new key `k` may outrank the entry. -/
theorem Wf.linkLeft {l r : KeyTree K V} {a k : K} {b : V} (hl : Wf priority l) (hr : Wf priority r)
    (hla : ∀ x ∈ l.keys, x < a ∧ (x = k ∨ Higher priority a x))
    (har : ∀ x ∈ r.keys, a < x ∧ Higher priority a x) :
    Wf priority (linkLeft priority l a b r) := by
  cases l with
  | leaf => exact ⟨trivial, hr, by simp, har⟩
  | node ll lk lv lr =>
    obtain ⟨hll, hlr, hlllk, hlklr⟩ := hl
    rw [Treap.linkLeft]
    split
    next h =>
      -- The rotated root outranks the entry, so it is `k` and its descendants do not.
      have hlk : lk = k := by
        rcases (hla lk (by simp)).2 with rfl | hlow
        · rfl
        · exact absurd h hlow.asymm
      have hlow : ∀ x ∈ lr.keys, x < a ∧ Higher priority a x := fun x hx => by
        obtain ⟨hxa, hxk | hlow⟩ := hla x (by simp [hx])
        · exact absurd (hlklr x hx).1 (by simp [hxk, hlk])
        · exact ⟨hxa, hlow⟩
      have hlka : lk < a := (hla lk (by simp)).1
      refine ⟨hll, ⟨hlr, hr, hlow, har⟩, hlllk, fun x hx => ?_⟩
      rcases mem_keys_node.mp hx with hx | rfl | hx
      · exact hlklr x hx
      · exact ⟨hlka, h⟩
      · exact ⟨hlka.trans (har x hx).1, h.trans (har x hx).2⟩
    next h =>
      have hroot := higher_of_not_higher (hla lk (by simp)).1.ne h
      refine ⟨⟨hll, hlr, hlllk, hlklr⟩, hr, fun x hx => ⟨(hla x hx).1, ?_⟩, har⟩
      rcases mem_keys_node.mp hx with hx | rfl | hx
      · exact hroot.trans (hlllk x hx).2
      · exact hroot
      · exact hroot.trans (hlklr x hx).2

/-- Linking a right subtree of which only the new key `k` may outrank the entry. -/
theorem Wf.linkRight {l r : KeyTree K V} {a k : K} {b : V} (hl : Wf priority l)
    (hr : Wf priority r) (hla : ∀ x ∈ l.keys, x < a ∧ Higher priority a x)
    (har : ∀ x ∈ r.keys, a < x ∧ (x = k ∨ Higher priority a x)) :
    Wf priority (linkRight priority l a b r) := by
  cases r with
  | leaf => exact ⟨hl, trivial, hla, by simp⟩
  | node rl rk rv rr =>
    obtain ⟨hrl, hrr, hrlrk, hrkrr⟩ := hr
    rw [Treap.linkRight]
    split
    next h =>
      have hrk : rk = k := by
        rcases (har rk (by simp)).2 with rfl | hlow
        · rfl
        · exact absurd h hlow.asymm
      have hlow : ∀ x ∈ rl.keys, a < x ∧ Higher priority a x := fun x hx => by
        obtain ⟨hax, hxk | hlow⟩ := har x (by simp [hx])
        · exact absurd (hrlrk x hx).1 (by simp [hxk, hrk])
        · exact ⟨hax, hlow⟩
      have hark : a < rk := (har rk (by simp)).1
      refine ⟨⟨hl, hrl, hla, hlow⟩, hrr, fun x hx => ?_, hrkrr⟩
      rcases mem_keys_node.mp hx with hx | rfl | hx
      · exact ⟨(hla x hx).1.trans hark, h.trans (hla x hx).2⟩
      · exact ⟨hark, h⟩
      · exact hrlrk x hx
    next h =>
      have hroot := higher_of_not_higher (har rk (by simp)).1.ne' h
      refine ⟨hl, ⟨hrl, hrr, hrlrk, hrkrr⟩, hla, fun x hx => ⟨(har x hx).1, ?_⟩⟩
      rcases mem_keys_node.mp hx with hx | rfl | hx
      · exact hroot.trans (hrlrk x hx).2
      · exact hroot
      · exact hroot.trans (hrkrr x hx).2

/-- Editing keeps both orders. -/
theorem Wf.set {t : KeyTree K V} (h : Wf priority t) (k : K) (o : Option V) :
    Wf priority (set priority t k o) := by
  induction t with
  | leaf => cases o <;> simp [Treap.set, wf_node]
  | node l a b r ihl ihr =>
    obtain ⟨hl, hr, hla, har⟩ := h
    rw [set_node]
    split_ifs with heq hlt
    · cases o with
      | none => exact hl.merge hr fun x hx y hy => (hla x hx).1.trans (har y hy).1
      | some v => exact ⟨hl, hr, hla, har⟩
    · refine (ihl hl).linkLeft hr (k := k) (fun x hx => ?_) har
      rcases mem_keys_of_mem_keys_set hl hx with rfl | hx
      · exact ⟨hlt, Or.inl rfl⟩
      · exact ⟨(hla x hx).1, Or.inr (hla x hx).2⟩
    · refine hl.linkRight (ihr hr) (k := k) hla fun x hx => ?_
      rcases mem_keys_of_mem_keys_set hr hx with rfl | hx
      · exact ⟨lt_of_le_of_ne (not_lt.mp hlt) (Ne.symm heq), Or.inl rfl⟩
      · exact ⟨(har x hx).1, Or.inr (har x hx).2⟩

/-- A treap is determined by its entries. -/
theorem Wf.ext {s t : KeyTree K V} (hs : Wf priority s) (ht : Wf priority t)
    (h : ∀ e, e ∈ s.toList ↔ e ∈ t.toList) : s = t := by
  induction s generalizing t with
  | leaf =>
    cases t with
    | leaf => rfl
    | node l k v r => simpa using h (k, v)
  | node l k v r ihl ihr =>
    cases t with
    | leaf => simpa using h (k, v)
    | node l' k' v' r' =>
      have hkeys : ∀ x, x ∈ (node l k v r).keys ↔ x ∈ (node l' k' v' r').keys := fun x => by
        simp only [mem_keys_iff, h]
      obtain ⟨hl, hr, hlk, hkr⟩ := hs
      obtain ⟨hl', hr', hlk', hkr'⟩ := ht
      -- Each root outranks every other key of the same key set, so the roots agree.
      have top : ∀ {a : K} {l₀ r₀ : KeyTree K V} {w : V},
          (∀ x ∈ l₀.keys, x < a ∧ Higher priority a x) →
          (∀ x ∈ r₀.keys, a < x ∧ Higher priority a x) →
          ∀ x ∈ (node l₀ a w r₀).keys, x = a ∨ Higher priority a x := by
        intro a l₀ r₀ w hlow hhigh x hx
        rcases mem_keys_node.mp hx with hx | rfl | hx
        · exact Or.inr (hlow x hx).2
        · exact Or.inl rfl
        · exact Or.inr (hhigh x hx).2
      have hkk : k = k' := by
        rcases top (w := v') hlk' hkr' k ((hkeys k).mp (by simp)) with heq | hlow
        · exact heq
        · rcases top (w := v) hlk hkr k' ((hkeys k').mpr (by simp)) with heq | hlow'
          · exact heq.symm
          · exact absurd hlow hlow'.asymm
      subst hkk
      have hleft : ∀ e, e ∈ l.toList ↔ e ∈ l'.toList := fun e => by
        have he := h e
        simp only [toList_node, List.mem_append, List.mem_cons] at he
        constructor
        · intro hmem
          have hlt := (hlk _ (mem_keys_of_mem hmem)).1
          rcases he.mp (Or.inl hmem) with hm | rfl | hm
          · exact hm
          · exact absurd hlt (lt_irrefl _)
          · exact absurd hlt (lt_asymm (hkr' _ (mem_keys_of_mem hm)).1)
        · intro hmem
          have hlt := (hlk' _ (mem_keys_of_mem hmem)).1
          rcases he.mpr (Or.inl hmem) with hm | rfl | hm
          · exact hm
          · exact absurd hlt (lt_irrefl _)
          · exact absurd hlt (lt_asymm (hkr _ (mem_keys_of_mem hm)).1)
      have hright : ∀ e, e ∈ r.toList ↔ e ∈ r'.toList := fun e => by
        have he := h e
        simp only [toList_node, List.mem_append, List.mem_cons] at he
        constructor
        · intro hmem
          have hlt := (hkr _ (mem_keys_of_mem hmem)).1
          rcases he.mp (Or.inr (Or.inr hmem)) with hm | rfl | hm
          · exact absurd hlt (lt_asymm (hlk' _ (mem_keys_of_mem hm)).1)
          · exact absurd hlt (lt_irrefl _)
          · exact hm
        · intro hmem
          have hlt := (hkr' _ (mem_keys_of_mem hmem)).1
          rcases he.mpr (Or.inr (Or.inr hmem)) with hm | rfl | hm
          · exact absurd hlt (lt_asymm (hlk _ (mem_keys_of_mem hm)).1)
          · exact absurd hlt (lt_irrefl _)
          · exact hm
      have hvalue : v = v' := by
        have hmem := (h (k, v)).mp (by simp)
        simp only [toList_node, List.mem_append, List.mem_cons, Prod.mk.injEq, true_and] at hmem
        rcases hmem with hm | hv | hm
        · exact absurd (hlk' _ (mem_keys_of_mem hm)).1 (lt_irrefl _)
        · exact hv
        · exact absurd (hkr' _ (mem_keys_of_mem hm)).1 (lt_irrefl _)
      rw [ihl hl hl' hleft, ihr hr hr' hright, hvalue]

/-- Binding a key to the value it already has changes nothing. -/
theorem Wf.set_some_of_mem {t : KeyTree K V} (h : Wf priority t) {k : K} {v : V}
    (hmem : (k, v) ∈ t.toList) : Treap.set priority t k (some v) = t := by
  refine (h.set k (some v)).ext h fun e => ?_
  rw [mem_toList_set h]
  constructor
  · rintro (⟨hk, hv⟩ | ⟨-, he⟩)
    · cases hv
      rwa [← hk] at hmem
    · exact he
  · intro he
    by_cases hk : e.1 = k
    · have hfind := (find?_eq_some_iff h).mpr he
      rw [hk, (find?_eq_some_iff h).mpr hmem] at hfind
      exact Or.inl ⟨hk, hfind⟩
    · exact Or.inr ⟨hk, he⟩

/-- Deleting an absent key changes nothing. -/
theorem Wf.set_none_of_notMem {t : KeyTree K V} (h : Wf priority t) {k : K} (hk : k ∉ t.keys) :
    Treap.set priority t k none = t := by
  refine (h.set k none).ext h fun e => ?_
  rw [mem_toList_set h]
  constructor
  · rintro (⟨-, hv⟩ | ⟨-, he⟩)
    · cases hv
    · exact he
  · exact fun he => Or.inr ⟨fun heq => hk (heq ▸ mem_keys_of_mem he), he⟩

/-- Search in an edited treap. -/
theorem Wf.find?_set {t : KeyTree K V} (h : Wf priority t) (k x : K) (o : Option V) :
    find? (Treap.set priority t k o) x = if x = k then o else find? t x := by
  apply Option.ext
  intro v
  rw [find?_eq_some_iff (h.set k o), mem_toList_set h]
  by_cases hx : x = k
  · simp [hx]
  · simp [hx, find?_eq_some_iff h]

end Operations

end Treap
