import Mathlib.Data.Set.Card
import Mathlib.Logic.Function.Basic

/-!
# Named edges below a root

A partial function from a node and a name to a node is a graph of named edges. A chain is a way
down from the root. Where every inner node has a single edge into it, and the root has none, the
inner nodes form a tree: chains to them are unique. New edges, deleted edges to leaves and edges
that move keep the tree. The number of arguments with a property of their value follows an
update of the function at one argument.
-/

namespace Hierarchy

section Chains

variable {N M : Type*} {root x c d : N} {edge edge' : N × M → Option N} {above xs ys : List N}

/-- A node with the nodes on a way down to it, the root last. -/
inductive Chain (root : N) (edge : N × M → Option N) : N → List N → Prop
  /-- The root. -/
  | root : Chain root edge root []
  /-- A node below another one. -/
  | edge {d c : N} {name : M} {above : List N} (hd : Chain root edge d above)
      (hc : edge (d, name) = some c) : Chain root edge c (d :: above)

namespace Chain

theorem root_mem (h : Chain root edge x xs) : root ∈ x :: xs := by
  induction h with
  | root => exact List.mem_cons_self
  | edge _ _ ih => exact List.mem_cons_of_mem _ ih

theorem getLastD_eq (h : Chain root edge x xs) : xs.getLastD x = root := by
  induction h with
  | root => rfl
  | @edge d c name above hd hc ih =>
    cases above with
    | nil => exact ih
    | cons e above =>
      rw [List.getLastD_cons] at ih
      rw [List.getLastD_cons, List.getLastD_cons]
      exact ih

/-- A way down passes through each of its nodes. -/
theorem split (h : Chain root edge x xs) (hc : c ∈ x :: xs) :
    ∃ ys zs, xs = ys ++ zs ∧ Chain c edge x ys ∧ Chain root edge c zs := by
  induction h with
  | root =>
    obtain rfl : c = root := by simpa using hc
    exact ⟨[], [], rfl, .root, .root⟩
  | @edge d x name above hd hx ih =>
    rcases List.mem_cons.mp hc with rfl | hmem
    · exact ⟨[], d :: above, rfl, .root, hd.edge hx⟩
    · obtain ⟨ys, zs, rfl, hbelow, habove⟩ := ih hmem
      exact ⟨d :: ys, zs, rfl, hbelow.edge hx, habove⟩

/-- Everything above a node has an edge out of it. -/
theorem source_of_mem {P : N → Prop} (h : Chain root edge x xs)
    (hsource : ∀ p c, edge p = some c → P p.1) (hd : d ∈ xs) : P d := by
  induction h with
  | root => cases hd
  | edge _ hc ih =>
    rcases List.mem_cons.mp hd with rfl | hd
    · exact hsource _ _ hc
    · exact ih hd

/-- A way down stays one if edges are added. -/
theorem mono (h : Chain root edge x xs) (hkeep : ∀ p c, edge p = some c → edge' p = some c) :
    Chain root edge' x xs := by
  induction h with
  | root => exact .root
  | edge _ hc ih => exact ih.edge (hkeep _ _ hc)

/-- A way down that does not visit a node stays one if the edges into the others are kept. -/
theorem avoid (h : Chain root edge x xs) (hc : c ∉ x :: xs)
    (hkeep : ∀ p y, y ≠ c → edge p = some y → edge' p = some y) : Chain root edge' x xs := by
  induction h with
  | root => exact .root
  | @edge d x name above hd hx ih =>
    rw [List.mem_cons, not_or] at hc
    exact (ih hc.2).edge (hkeep _ _ (Ne.symm hc.1) hx)

/-- If an edge is moved to a node that is not below it, everything stays below the root. -/
theorem move {p : N × M} {name : M} (h : Chain root edge x xs) (hp : edge p = some c)
    (hd : Chain root edge d ys) (hc : c ∉ d :: ys) (hnew : edge' (d, name) = some c)
    (hkeep : ∀ q y, q ≠ p → edge q = some y → edge' q = some y) : ∃ zs, Chain root edge' x zs := by
  induction h with
  | root => exact ⟨[], .root⟩
  | @edge e x name' above he hx ih =>
    by_cases heq : (e, name') = p
    · subst heq
      obtain rfl : c = x := Option.some.inj (hp.symm.trans hx)
      have hway : Chain root edge' d ys := by
        refine hd.avoid hc fun q y hy hq => hkeep q y ?_ hq
        rintro rfl
        exact hy (Option.some.inj (hq.symm.trans hx))
      exact ⟨d :: ys, hway.edge hnew⟩
    · obtain ⟨zs, hzs⟩ := ih
      exact ⟨e :: zs, hzs.edge (hkeep _ _ heq hx)⟩

end Chain

end Chains

section Trees

variable {N M : Type*} {root : Option N} {r x c d : N} {edge : N × M → Option N}
  {present inner present' inner' : N → Prop} {a b : N × M} {above above' : List N}

/-- The inner nodes form a tree with leaves that may have several edges into them. -/
structure Tree (root : Option N) (edge : N × M → Option N) (present inner : N → Prop) : Prop where
  /-- There are finitely many edges. -/
  finite : { p | (edge p).isSome }.Finite
  /-- Edges leave inner nodes. -/
  source : ∀ p c, edge p = some c → inner p.1
  /-- They lead to nodes. -/
  target : ∀ p c, edge p = some c → present c
  /-- Inner nodes are nodes. -/
  inner_present : ∀ x, inner x → present x
  /-- The root is an inner node. -/
  root_inner : ∀ r, root = some r → inner r
  /-- No edge leads to the root. -/
  root_free : ∀ r, root = some r → ∀ p, edge p ≠ some r
  /-- One edge leads to each other inner node. -/
  single : ∀ p q c, edge p = some c → edge q = some c → inner c → p = q
  /-- Every node is below the root. -/
  reachable : ∀ x, present x → ∃ r above, root = some r ∧ Chain r edge x above

namespace Tree

theorem inner_of_mem (h : Tree root edge present inner) (hx : Chain r edge x above)
    (hd : d ∈ above) : inner d :=
  hx.source_of_mem h.source hd

/-- The way down to an inner node is unique. -/
theorem unique (h : Tree root edge present inner) (hr : root = some r) (hinner : inner x)
    (hx : Chain r edge x above) (hx' : Chain r edge x above') : above = above' := by
  induction hx generalizing above' with
  | root =>
    cases hx' with
    | root => rfl
    | edge _ hc => exact absurd hc (h.root_free _ hr _)
  | @edge d x name above hd hx ih =>
    cases hx' with
    | root => exact absurd hx (h.root_free _ hr _)
    | @edge d' _ name' above' hd' hx' =>
      obtain rfl : d = d' := congrArg Prod.fst (h.single _ _ _ hx hx' hinner)
      rw [ih (h.source _ _ hx) hd']

/-- No way down visits a node twice. -/
theorem nodup (h : Tree root edge present inner) (hr : root = some r) (hx : Chain r edge x above) :
    (x :: above).Nodup := by
  induction hx with
  | root => simp
  | @edge d x name above hd hx ih =>
    refine List.nodup_cons.mpr ⟨fun hmem => ?_, ih⟩
    -- A node above itself would have two ways down of different lengths.
    have hinner := h.inner_of_mem (hd.edge hx) hmem
    obtain ⟨ys, zs, habove, -, hshort⟩ := hd.split hmem
    have heq := h.unique hr hinner hshort (hd.edge hx)
    have hlength := congrArg List.length habove
    rw [heq, List.length_append, List.length_cons] at hlength
    omega

variable [DecidableEq N] [DecidableEq M]

/-- A new edge, to a new node or to one that is not inner. -/
theorem bind (h : Tree root edge present inner) (ha : inner a.1) (hfree : edge a = none)
    (hroot : root ≠ some c) (hunnamed : inner' c → ∀ p, edge p ≠ some c)
    (hpresent : ∀ x, present' x ↔ present x ∨ x = c) (hinner : ∀ x, x ≠ c → (inner' x ↔ inner x))
    (hkeep : inner c → inner' c) :
    Tree root (Function.update edge a (some c)) present' inner' := by
  have hmono : ∀ p y, edge p = some y → Function.update edge a (some c) p = some y := by
    intro p y hp
    rw [Function.update_of_ne, hp]
    rintro rfl
    rw [hfree] at hp
    cases hp
  have hcases : ∀ p y, Function.update edge a (some c) p = some y →
      edge p = some y ∨ p = a ∧ y = c := by
    intro p y hp
    by_cases hpa : p = a
    · rw [hpa, Function.update_self] at hp
      exact .inr ⟨hpa, (Option.some.inj hp).symm⟩
    · rw [Function.update_of_ne hpa] at hp
      exact .inl hp
  have hgrow : ∀ x, inner x → inner' x := by
    intro x hx
    by_cases hxc : x = c
    · rw [hxc] at hx ⊢
      exact hkeep hx
    · exact (hinner x hxc).mpr hx
  constructor
  case finite =>
    refine (h.finite.insert a).subset fun p hp => ?_
    obtain ⟨y, hy⟩ := Option.isSome_iff_exists.mp hp
    rcases hcases p y hy with hp | ⟨rfl, -⟩
    · exact .inr (by simp [hp])
    · exact .inl rfl
  case source =>
    intro p y hp
    rcases hcases p y hp with hp | ⟨rfl, -⟩
    · exact hgrow _ (h.source p y hp)
    · exact hgrow _ ha
  case target =>
    intro p y hp
    rcases hcases p y hp with hp | ⟨-, rfl⟩
    · exact (hpresent y).mpr (.inl (h.target p y hp))
    · exact (hpresent y).mpr (.inr rfl)
  case inner_present =>
    intro x hx
    rw [hpresent]
    by_cases hxc : x = c
    · exact .inr hxc
    · exact .inl (h.inner_present x ((hinner x hxc).mp hx))
  case root_inner => exact fun r hr => hgrow r (h.root_inner r hr)
  case root_free =>
    intro r hr p hp
    rcases hcases p r hp with hp | ⟨-, rfl⟩
    · exact h.root_free r hr p hp
    · exact hroot hr
  case single =>
    intro p q y hp hq hy
    by_cases hyc : y = c
    · -- The new edge is the only one to its target.
      have honly : ∀ p, Function.update edge a (some c) p = some y → p = a := by
        intro p hp
        rcases hcases p y hp with hp | ⟨hpa, -⟩
        · exact absurd hp (hyc ▸ hunnamed (hyc ▸ hy) p)
        · exact hpa
      rw [honly p hp, honly q hq]
    · have hold : ∀ p, Function.update edge a (some c) p = some y → edge p = some y :=
        fun p hp => (hcases p y hp).resolve_right fun heq => hyc heq.2
      exact h.single p q y (hold p hp) (hold q hq) ((hinner y hyc).mp hy)
  case reachable =>
    intro x hx
    rcases (hpresent x).mp hx with hx | rfl
    · obtain ⟨r, above, hr, hchain⟩ := h.reachable x hx
      exact ⟨r, above, hr, hchain.mono hmono⟩
    · obtain ⟨r, above, hr, hchain⟩ := h.reachable a.1 (h.inner_present _ ha)
      have hedge : Function.update edge a (some x) (a.1, a.2) = some x := Function.update_self ..
      exact ⟨r, a.1 :: above, hr, (hchain.mono hmono).edge hedge⟩

/-- An edge to a leaf less. A leaf without other edges into it goes. -/
theorem unbind (h : Tree root edge present inner) (ha : edge a = some c)
    (hleaf : ∀ m, edge (c, m) = none) (hpresent : ∀ x, x ≠ c → (present' x ↔ present x))
    (hlast : present' c ↔ ∃ q, q ≠ a ∧ edge q = some c)
    (hinner : ∀ x, inner' x ↔ inner x ∧ x ≠ c) :
    Tree root (Function.update edge a none) present' inner' := by
  have hcases : ∀ p y, Function.update edge a none p = some y → p ≠ a ∧ edge p = some y := by
    intro p y hp
    by_cases hpa : p = a
    · rw [hpa, Function.update_self] at hp
      cases hp
    · rw [Function.update_of_ne hpa] at hp
      exact ⟨hpa, hp⟩
  have hkeep : ∀ p y, p ≠ a → edge p = some y → Function.update edge a none p = some y := by
    intro p y hpa hp
    rw [Function.update_of_ne hpa, hp]
  have hne : ∀ p y, edge p = some y → p.1 ≠ c := by
    rintro ⟨d, m⟩ y hp rfl
    rw [hleaf m] at hp
    cases hp
  -- Ways down pass through the leaf only at their end.
  have hway : ∀ {r x above}, Chain r edge x above → x ≠ c →
      Chain r (Function.update edge a none) x above := by
    intro r x above hx hxc
    refine hx.avoid (c := c) ?_ fun p y hy hp => hkeep p y ?_ hp
    · rw [List.mem_cons, not_or]
      refine ⟨Ne.symm hxc, fun hmem => ?_⟩
      exact hx.source_of_mem (P := fun d => d ≠ c) hne hmem rfl
    · rintro rfl
      exact hy (Option.some.inj (hp.symm.trans ha))
  constructor
  case finite =>
    refine h.finite.subset fun p hp => ?_
    obtain ⟨y, hy⟩ := Option.isSome_iff_exists.mp hp
    simp [(hcases p y hy).2]
  case source =>
    intro p y hp
    obtain ⟨-, hp⟩ := hcases p y hp
    exact (hinner p.1).mpr ⟨h.source p y hp, hne p y hp⟩
  case target =>
    intro p y hp
    obtain ⟨hpa, hp⟩ := hcases p y hp
    by_cases hyc : y = c
    · rw [hyc] at hp ⊢
      exact hlast.mpr ⟨p, hpa, hp⟩
    · exact (hpresent y hyc).mpr (h.target p y hp)
  case inner_present =>
    intro x hx
    obtain ⟨hx, hxc⟩ := (hinner x).mp hx
    exact (hpresent x hxc).mpr (h.inner_present x hx)
  case root_inner =>
    intro r hr
    refine (hinner r).mpr ⟨h.root_inner r hr, ?_⟩
    rintro rfl
    exact h.root_free r hr a ha
  case root_free => exact fun r hr p hp => h.root_free r hr p (hcases p r hp).2
  case single =>
    intro p q y hp hq hy
    exact h.single p q y (hcases p y hp).2 (hcases q y hq).2 ((hinner y).mp hy).1
  case reachable =>
    intro x hx
    by_cases hxc : x = c
    · rw [hxc] at hx ⊢
      obtain ⟨q, hqa, hq⟩ := hlast.mp hx
      obtain ⟨r, above, hr, hchain⟩ := h.reachable q.1 (h.inner_present _ (h.source q c hq))
      have hedge : Function.update edge a none (q.1, q.2) = some c := hkeep q c hqa hq
      exact ⟨r, q.1 :: above, hr, (hway hchain (hne q c hq)).edge hedge⟩
    · obtain ⟨r, above, hr, hchain⟩ := h.reachable x ((hpresent x hxc).mp hx)
      exact ⟨r, above, hr, hway hchain hxc⟩

/-- An edge that moves to a node which is not below it. -/
theorem rebind (h : Tree root edge present inner) (ha : edge a = some c) (hb : edge b = none)
    (hinner : inner b.1)
    (hbelow : ∀ r above, root = some r → Chain r edge b.1 above → c ∉ b.1 :: above) :
    Tree root (Function.update (Function.update edge a none) b (some c)) present inner := by
  have hab : a ≠ b := by
    rintro rfl
    rw [ha] at hb
    cases hb
  have hcases : ∀ p y, Function.update (Function.update edge a none) b (some c) p = some y →
      p ≠ a ∧ edge p = some y ∨ p = b ∧ y = c := by
    intro p y hp
    by_cases hpb : p = b
    · rw [hpb, Function.update_self] at hp
      exact .inr ⟨hpb, (Option.some.inj hp).symm⟩
    · rw [Function.update_of_ne hpb] at hp
      by_cases hpa : p = a
      · rw [hpa, Function.update_self] at hp
        cases hp
      · rw [Function.update_of_ne hpa] at hp
        exact .inl ⟨hpa, hp⟩
  have hkeep : ∀ p y, p ≠ a → edge p = some y →
      Function.update (Function.update edge a none) b (some c) p = some y := by
    intro p y hpa hp
    have hpb : p ≠ b := by
      rintro rfl
      rw [hp] at hb
      cases hb
    rw [Function.update_of_ne hpb, Function.update_of_ne hpa, hp]
  constructor
  case finite =>
    refine (h.finite.insert b).subset fun p hp => ?_
    obtain ⟨y, hy⟩ := Option.isSome_iff_exists.mp hp
    rcases hcases p y hy with ⟨-, hp⟩ | ⟨rfl, -⟩
    · exact .inr (by simp [hp])
    · exact .inl rfl
  case source =>
    intro p y hp
    rcases hcases p y hp with ⟨-, hp⟩ | ⟨rfl, -⟩
    · exact h.source p y hp
    · exact hinner
  case target =>
    intro p y hp
    rcases hcases p y hp with ⟨-, hp⟩ | ⟨-, rfl⟩
    · exact h.target p y hp
    · exact h.target a y ha
  case inner_present => exact h.inner_present
  case root_inner => exact h.root_inner
  case root_free =>
    intro r hr p hp
    rcases hcases p r hp with ⟨-, hp⟩ | ⟨-, rfl⟩
    · exact h.root_free r hr p hp
    · exact h.root_free r hr a ha
  case single =>
    intro p q y hp hq hy
    by_cases hyc : y = c
    · have honly : ∀ p, Function.update (Function.update edge a none) b (some c) p = some y →
          p = b := by
        intro p hp
        rcases hcases p y hp with ⟨hpa, hp⟩ | ⟨hpb, -⟩
        · exact absurd (h.single p a y hp (hyc ▸ ha) hy) hpa
        · exact hpb
      rw [honly p hp, honly q hq]
    · have hold : ∀ p, Function.update (Function.update edge a none) b (some c) p = some y →
          edge p = some y :=
        fun p hp => ((hcases p y hp).resolve_right fun heq => hyc heq.2).2
      exact h.single p q y (hold p hp) (hold q hq) hy
  case reachable =>
    intro x hx
    obtain ⟨r, above, hr, hchain⟩ := h.reachable x hx
    obtain ⟨r', above', hr', hchain'⟩ := h.reachable b.1 (h.inner_present _ hinner)
    obtain rfl : r = r' := Option.some.inj (hr.symm.trans hr')
    have hnew : Function.update (Function.update edge a none) b (some c) (b.1, b.2) = some c :=
      Function.update_self ..
    obtain ⟨zs, hzs⟩ := hchain.move ha hchain' (hbelow r above' hr hchain') hnew hkeep
    exact ⟨r, zs, hr, hzs⟩

end Tree

end Trees

section Counting

variable {α β : Type*} [DecidableEq α] {f : α → Option β} {P : α → Option β → Prop} {a : α}
  {o : Option β}

theorem setOf_update_of_pos (h : P a o) :
    { x | P x (Function.update f a o x) } = insert a { x | P x (f x) } := by
  ext x
  by_cases hx : x = a
  · subst hx
    simp [h]
  · simp [hx]

theorem setOf_update_of_neg (h : ¬ P a o) :
    { x | P x (Function.update f a o x) } = { x | P x (f x) } \ {a} := by
  ext x
  by_cases hx : x = a
  · subst hx
    simp [h]
  · simp [hx]

/-- How the number of arguments with a property follows an update. -/
theorem ncard_update [Decidable (P a (f a))] [Decidable (P a o)]
    (hfinite : { x | P x (f x) }.Finite) :
    { x | P x (Function.update f a o x) }.ncard + (if P a (f a) then 1 else 0) =
      { x | P x (f x) }.ncard + (if P a o then 1 else 0) := by
  by_cases hnew : P a o
  · rw [setOf_update_of_pos hnew, if_pos hnew]
    by_cases hold : P a (f a)
    · have hmem : a ∈ { x | P x (f x) } := hold
      rw [if_pos hold, Set.insert_eq_of_mem hmem]
    · have hmem : a ∉ { x | P x (f x) } := hold
      rw [if_neg hold, Set.ncard_insert_of_notMem hmem hfinite]
  · rw [setOf_update_of_neg hnew, if_neg hnew]
    by_cases hold : P a (f a)
    · have hmem : a ∈ { x | P x (f x) } := hold
      rw [if_pos hold, Set.ncard_sdiff_singleton_add_one hmem hfinite]
      rfl
    · have hmem : a ∉ { x | P x (f x) } := hold
      rw [if_neg hold, Set.sdiff_singleton_eq_self hmem]

end Counting

end Hierarchy
