import ForkFs.MetadataTree.Reads

/-!
# Listing keys

`keys` and `page` walk a tree in order and skip the subtrees that cannot hold a key with the
wanted beginning. What they return is the sorted list of keys, filtered and cut. Only the order of
the keys matters for this, and that no identity on the way stands for two nodes.
-/

namespace ForkFs

open Bytes Treap Treap.KeyTree

namespace MetadataTree

section Bounds

variable {pre key : Bytes}

/-- A string is at most its extensions. -/
theorem le_of_isPrefix (h : pre <+: key) : pre ≤ key := by
  obtain ⟨rest, rfl⟩ := h
  refine not_lt.mp ?_
  induction pre with
  | nil => exact List.not_lt_nil rest
  | cons c pre ih =>
    rw [List.cons_append, List.cons_lt_cons_iff]
    rintro (hlt | ⟨-, hlt⟩)
    · exact lt_irrefl c hlt
    · exact ih hlt

/-- A greater byte after a common beginning decides. -/
theorem append_lt_append {c d : UInt8} (h : c < d) (pre rest rest' : Bytes) :
    pre ++ c :: rest < pre ++ d :: rest' := by
  induction pre with
  | nil => exact List.cons_lt_cons_iff.mpr (Or.inl h)
  | cons x pre ih => exact List.cons_lt_cons_iff.mpr (Or.inr ⟨rfl, ih⟩)

theorem lt_add_one_of_ne {c : UInt8} (h : c ≠ 255) : c < c + 1 := by
  rw [UInt8.lt_iff_toNat_lt, UInt8.toNat_add]
  have hlt := c.toNat_lt
  have hne : c.toNat ≠ 255 := fun heq => h (UInt8.toNat_inj.mp heq)
  have hone : (1 : UInt8).toNat = 1 := rfl
  omega

/-- The upper bound of a string is above its extensions. -/
theorem lt_upperBound (h : pre <+: key) {bound : Bytes} (hbound : bound ∈ upperBound pre) :
    key < bound := by
  unfold upperBound at hbound
  split at hbound
  · cases hbound
  · rename_i c rest hdrop
    cases hbound
    have hc : c ≠ 255 := by
      have hhead := List.head?_dropWhile_not (fun x : UInt8 => decide (x = 255)) pre.reverse
      rw [hdrop] at hhead
      simpa using hhead
    -- The string ends in `c` and the bytes that were dropped.
    obtain ⟨dropped, hsplit⟩ : ∃ dropped, pre.reverse = dropped ++ c :: rest :=
      ⟨_, by rw [← hdrop, List.takeWhile_append_dropWhile]⟩
    have hpre : pre = rest.reverse ++ c :: dropped.reverse := by
      rw [← List.reverse_reverse pre, hsplit]
      simp
    obtain ⟨tail, rfl⟩ := h
    rw [hpre, List.reverse_cons, List.append_assoc, List.cons_append]
    exact append_lt_append (lt_add_one_of_ne hc) _ _ []

/-- No key below a bound has the beginning. -/
theorem filter_eq_nil_of_lt {keys : List Bytes} (h : ∀ k ∈ keys, k < pre) :
    keys.filter (pre <+: ·) = [] :=
  List.filter_eq_nil_iff.mpr fun k hk hpre =>
    absurd (h k hk) (not_lt.mpr (le_of_isPrefix (of_decide_eq_true hpre)))

/-- No key from the upper bound on has the beginning. -/
theorem filter_eq_nil_of_le {keys : List Bytes} {bound : Bytes} (hbound : bound ∈ upperBound pre)
    (h : ∀ k ∈ keys, bound ≤ k) : keys.filter (pre <+: ·) = [] :=
  List.filter_eq_nil_iff.mpr fun k hk hpre =>
    absurd (lt_upperBound (of_decide_eq_true hpre) hbound) (not_lt.mpr (h k hk))

end Bounds

section Pages

variable {pre after : Bytes} {limit : ℕ}

/-- A key that a page is about. -/
def Wanted (pre after key : Bytes) : Prop := pre <+: key ∧ (after = [] ∨ after < key)

instance (pre after key : Bytes) : Decidable (Wanted pre after key) :=
  inferInstanceAs (Decidable (_ ∧ _))

/-- A page filled up from a list. -/
def fill (limit : ℕ) (result keys : List Bytes) : List Bytes :=
  result ++ keys.take (limit - result.length)

theorem fill_nil (limit : ℕ) (result : List Bytes) : fill limit result [] = result := by simp [fill]

theorem fill_of_full {result : List Bytes} (h : result.length = limit) (keys : List Bytes) :
    fill limit result keys = result := by simp [fill, h]

theorem length_fill_le {result : List Bytes} (h : result.length ≤ limit) (keys : List Bytes) :
    (fill limit result keys).length ≤ limit := by
  simp only [fill, List.length_append, List.length_take]
  omega

/-- Filling from one list and then from another is filling from both. -/
theorem fill_fill (result keys keys' : List Bytes) :
    fill limit (fill limit result keys) keys' = fill limit result (keys ++ keys') := by
  simp only [fill, List.length_append, List.length_take, List.take_append, List.append_assoc]
  congr 2
  congr 1
  omega

theorem fill_singleton {result : List Bytes} (h : result.length < limit) (key : Bytes) :
    fill limit result [key] = result ++ [key] := by
  rw [fill, List.take_of_length_le]
  simp only [List.length_singleton]
  omega

/-- No key up to the lower end of a page is wanted. -/
theorem filter_wanted_of_lt {keys : List Bytes} {k : Bytes} (h : ∀ x ∈ keys, x < k)
    (hk : ¬ (if after = [] then pre else after) < k) :
    keys.filter (Wanted pre after ·) = [] := by
  refine List.filter_eq_nil_iff.mpr fun x hx hwanted => ?_
  obtain ⟨hpre, hafter⟩ := of_decide_eq_true hwanted
  have hlt := (h x hx).trans_le (not_lt.mp hk)
  split at hlt
  · exact absurd hlt (not_lt.mpr (le_of_isPrefix hpre))
  · rename_i hne
    exact absurd hlt (hafter.resolve_left hne).asymm

/-- No key from the upper bound on is wanted. -/
theorem filter_wanted_of_le {keys : List Bytes} {bound : Bytes} (hbound : bound ∈ upperBound pre)
    (h : ∀ k ∈ keys, bound ≤ k) : keys.filter (Wanted pre after ·) = [] := by
  refine List.filter_eq_nil_iff.mpr fun k hk hwanted => ?_
  exact absurd (lt_upperBound (of_decide_eq_true hwanted).1 hbound) (not_lt.mpr (h k hk))

end Pages

section Walks

variable {getObject : Hash → Except String Bytes} {t : MetadataTree} {id : Hash}
  {s : KeyTree Bytes Hash}

/-- The keys of a tree are in order. -/
def Searchable : KeyTree Bytes Hash → Prop
  | .leaf => True
  | .node l k _ r => Searchable l ∧ Searchable r ∧ (∀ x ∈ l.keys, x < k) ∧ ∀ x ∈ r.keys, k < x

/-- The tree that reads find below an identity. -/
def Walks (getObject : Hash → Except String Bytes) (t : MetadataTree) :
    Hash → KeyTree Bytes Hash → Prop
  | id, .leaf => id = Hash.zero
  | id, .node l k v r => id ≠ Hash.zero ∧ ∃ n, t.node getObject id = .ok n ∧ n.key = k ∧
      n.value = v ∧ Walks getObject t n.left l ∧ Walks getObject t n.right r

/-- The walk of `keys` finds the keys with the beginning, in order. -/
theorem keysFrom_walks (hsearch : Searchable s) (hwalks : Walks getObject t id s) (pre : Bytes)
    {fuel : ℕ} (hfuel : s.height ≤ fuel) :
    keysFrom getObject t pre (upperBound pre) fuel id = .ok (s.keys.filter (pre <+: ·)) := by
  induction s generalizing fuel id with
  | leaf =>
    have hzero : id = Hash.zero := hwalks
    rw [keysFrom.eq_def, if_pos hzero]
    rfl
  | node l k v r ihl ihr =>
    rw [KeyTree.height] at hfuel
    obtain ⟨fuel, rfl⟩ : ∃ n, fuel = n + 1 := ⟨fuel - 1, by omega⟩
    obtain ⟨hid, n, hread, rfl, rfl, hl, hr⟩ := hwalks
    obtain ⟨hsl, hsr, hlk, hkr⟩ := hsearch
    have hkeys : (KeyTree.node l n.key n.value r).keys.filter (pre <+: ·) =
        l.keys.filter (pre <+: ·) ++ (if pre <+: n.key then [n.key] else []) ++
          r.keys.filter (pre <+: ·) := by
      simp only [KeyTree.keys, KeyTree.toList, List.map_append, List.map_cons, List.filter_append,
        List.filter_cons, decide_eq_true_eq, List.append_assoc]
      split <;> rfl
    -- The right subtree is visited unless the key reaches the upper bound.
    have hright (left : List Bytes) : (if ∀ bound ∈ upperBound pre, n.key < bound then do
          let right ← keysFrom getObject t pre (upperBound pre) fuel n.right
          pure (left ++ (if pre <+: n.key then [n.key] else []) ++ right)
        else do
          let right ← pure []
          pure (left ++ (if pre <+: n.key then [n.key] else []) ++ right)) =
        (.ok (left ++ (if pre <+: n.key then [n.key] else []) ++ r.keys.filter (pre <+: ·)) :
          Except String (List Bytes)) := by
      split
      · rw [ihr hsr hr (by omega)]
        rfl
      · rename_i hall
        push Not at hall
        obtain ⟨bound, hbound, hle⟩ := hall
        rw [filter_eq_nil_of_le hbound fun x hx => hle.trans (hkr x hx).le]
        rfl
    rw [keysFrom, if_neg hid, hread, Outcome.ok_bind, hkeys]
    dsimp only
    by_cases hle : pre ≤ n.key
    · rw [if_pos hle, ihl hsl hl (by omega)]
      exact hright _
    · rw [if_neg hle, filter_eq_nil_of_lt fun x hx => (hlk x hx).trans (not_le.mp hle)]
      exact hright []

/-- The walk of `page` fills the page with the wanted keys, in order. -/
theorem pageFrom_walks {pre after : Bytes} {limit : ℕ} (hsearch : Searchable s)
    (hwalks : Walks getObject t id s) {fuel : ℕ} (hfuel : s.height ≤ fuel) {result : List Bytes}
    (hresult : result.length ≤ limit) :
    pageFrom getObject t pre after (upperBound pre) limit fuel id result =
      .ok (fill limit result (s.keys.filter (Wanted pre after ·))) := by
  induction s generalizing fuel result id with
  | leaf =>
    have hzero : id = Hash.zero := hwalks
    rw [pageFrom.eq_def, if_pos (Or.inl hzero)]
    exact congrArg Except.ok (fill_nil limit result).symm
  | node l k v r ihl ihr =>
    rw [KeyTree.height] at hfuel
    obtain ⟨fuel, rfl⟩ : ∃ n, fuel = n + 1 := ⟨fuel - 1, by omega⟩
    obtain ⟨hid, n, hread, rfl, rfl, hl, hr⟩ := hwalks
    obtain ⟨hsl, hsr, hlk, hkr⟩ := hsearch
    have hkeys : (KeyTree.node l n.key n.value r).keys.filter (Wanted pre after ·) =
        l.keys.filter (Wanted pre after ·) ++ ((if Wanted pre after n.key then [n.key] else []) ++
          r.keys.filter (Wanted pre after ·)) := by
      simp only [KeyTree.keys, KeyTree.toList, List.map_append, List.map_cons, List.filter_append,
        List.filter_cons, decide_eq_true_eq]
      split <;> rfl
    by_cases hfull : result.length = limit
    · rw [pageFrom.eq_def, if_pos (Or.inr hfull), fill_of_full hfull]
    -- What follows the left subtree: the key itself, then the right subtree.
    have hrest (page : List Bytes) (hpage : page.length ≤ limit) :
        (if page.length = limit then (pure page : Except String (List Bytes))
        else if (if pre <+: n.key ∧ (after = [] ∨ after < n.key) then page ++ [n.key]
              else page).length < limit ∧ ∀ bound ∈ upperBound pre, n.key < bound then
          pageFrom getObject t pre after (upperBound pre) limit fuel n.right
            (if pre <+: n.key ∧ (after = [] ∨ after < n.key) then page ++ [n.key] else page)
        else pure (if pre <+: n.key ∧ (after = [] ∨ after < n.key) then page ++ [n.key] else page)) =
        .ok (fill limit page ((if Wanted pre after n.key then [n.key] else []) ++
          r.keys.filter (Wanted pre after ·))) := by
      by_cases hpagefull : page.length = limit
      · rw [if_pos hpagefull, fill_of_full hpagefull]
        rfl
      rw [if_neg hpagefull, ← fill_fill]
      have hown : (if pre <+: n.key ∧ (after = [] ∨ after < n.key) then page ++ [n.key] else page) =
          fill limit page (if Wanted pre after n.key then [n.key] else []) := by
        by_cases hwanted : Wanted pre after n.key
        · rw [if_pos hwanted, fill_singleton (by omega)]
          exact if_pos hwanted
        · rw [if_neg hwanted, fill_nil]
          exact if_neg hwanted
      rw [hown]
      have hle := length_fill_le hpage (if Wanted pre after n.key then [n.key] else [])
      generalize fill limit page (if Wanted pre after n.key then [n.key] else []) = filled at hle
      split
      · exact ihr hsr hr (by omega) hle
      · rename_i hstop
        by_cases hlt : filled.length < limit
        · have hall : ¬ ∀ bound ∈ upperBound pre, n.key < bound := fun h => hstop ⟨hlt, h⟩
          push Not at hall
          obtain ⟨bound, hbound, hle⟩ := hall
          rw [filter_wanted_of_le hbound fun x hx => hle.trans (hkr x hx).le, fill_nil]
          rfl
        · rw [fill_of_full (by omega)]
          rfl
    rw [pageFrom, if_neg (not_or.mpr ⟨hid, hfull⟩), hread, Outcome.ok_bind, hkeys, ← fill_fill]
    dsimp only
    by_cases hlower : (if after = [] then pre else after) < n.key
    · rw [if_pos hlower, ihl hsl hl (by omega) hresult]
      exact hrest _ (length_fill_le hresult _)
    · rw [if_neg hlower, filter_wanted_of_lt hlk hlower, fill_nil]
      exact hrest result hresult

end Walks

section Held

variable [Digest] {getObject : Hash → Except String Bytes} {priority : Bytes → Hash}
  {payloads : Set Bytes} {t : MetadataTree} {s : KeyTree Bytes Hash} {after : Bytes} {limit : ℕ}

omit [Digest] in
theorem searchable_of_wf (hwf : Wf priority s) : Searchable s := by
  induction s with
  | leaf => trivial
  | node l k v r ihl ihr =>
    obtain ⟨hl, hr, hlk, hkr⟩ := hwf
    exact ⟨ihl hl, ihr hr, fun x hx => (hlk x hx).1, fun x hx => (hkr x hx).1⟩

/-- A held tree is found below its identity. -/
theorem Holds.walks (hcf : CollisionFree payloads) (hs : Holds getObject payloads t s) :
    Walks getObject t (treeId s) s := by
  induction s with
  | leaf => exact treeId_leaf
  | node l k v r ihl ihr =>
    exact ⟨treeId_ne_zero hcf hs, _, hs.1.read, rfl, rfl, ihl hs.2.1, ihr hs.2.2⟩

theorem keys_treeId (hcf : CollisionFree payloads) (hwf : Wf priority s)
    (hs : Holds getObject payloads t s) (hheight : s.height ≤ 256) (hroot : t.root = treeId s)
    (pre : Bytes) : t.keys getObject pre = .ok (s.keys.filter (pre <+: ·)) := by
  rw [keys, hroot, keysFrom_walks (searchable_of_wf hwf) (hs.walks hcf) pre hheight]

/-- A page is the first `limit` wanted keys. -/
theorem page_treeId {pre : Bytes} (hcf : CollisionFree payloads) (hwf : Wf priority s)
    (hs : Holds getObject payloads t s) (hheight : s.height ≤ 256) (hroot : t.root = treeId s)
    (hlimit : 0 < limit ∧ limit ≤ 1025) (hafter : after = [] ∨ pre <+: after) :
    t.page getObject pre after limit =
      .ok ((s.keys.filter (Wanted pre after ·)).take limit) := by
  rw [page, need_of ⟨hlimit.1, hlimit.2, hafter⟩, Outcome.ok_bind, hroot,
    pageFrom_walks (searchable_of_wf hwf) (hs.walks hcf) hheight (by simp)]
  simp [fill]

end Held

end MetadataTree

end ForkFs
