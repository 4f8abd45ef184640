import ForkFs.Lib.StdMap
import ForkFs.Lib.Treap
import ForkFs.MetadataTree.Node
import Mathlib.Data.Set.Card
import Mathlib.Data.Set.Finite.List

/-!
# The copy-on-write metadata tree

An editor reads nodes through its object store and keeps the nodes it made in `cache`, with
their payloads in `pending` until they are published. Edits are iterative: they record a
path, replace its last node and rebuild upwards. Reads recurse to a depth of 256.

`cache` holds only nodes made by the editor. Nodes that the source also remembers after
reading them, and the memoised heights, are reproduced by reading the immutable objects again.
The priority of a key is a parameter; `metadataPriority` is the one in use.
-/

namespace ForkFs

open Bytes

instance finiteByte : Finite UInt8 := Finite.of_injective UInt8.toFin fun _ _ => UInt8.toFin_inj.mp

instance : Finite Hash := (List.finite_length_eq UInt8 32).to_subtype

/-- Content-derived priority of a key. -/
def metadataPriority [Digest] (key : Bytes) : Hash :=
  objectHash (ascii "forkfs.metadata.priority.v1" ++ key)

/-- An edit of the tree: keys with the value to bind, or none to delete. -/
abbrev TreeChanges := StdMap Bytes (Option Hash)

/-- One editor of a persistent tree. -/
structure MetadataTree where
  /-- The identity of the current root, zero for the empty tree. -/
  root : Hash
  /-- Nodes made by this editor. -/
  cache : StdMap Hash Node
  /-- Payloads of those nodes in the order of their creation. -/
  pending : List Bytes

/-- A node on an edit path with the direction in which the path continues. -/
structure Step where
  /-- The node as it was read. -/
  node : Node
  /-- Whether the path continues to the left. -/
  left : Bool

/-- The node of a step with a new child where the path continues. -/
def Step.withChild (step : Step) (child : Hash) : Node :=
  if step.left then { step.node with left := child } else { step.node with right := child }

namespace MetadataTree

/-- A fresh editor at a root. -/
def new (root : Hash) : MetadataTree := ⟨root, ∅, []⟩

/-- A manifest and the new objects its tree needs. -/
structure Plan where
  /-- The manifest payload. -/
  manifest : Bytes
  /-- Node payloads, children before their parent. -/
  objects : List Bytes

/-- The format tag of a tree manifest. -/
def manifestMagic : Bytes := ascii "FFTREE01"

/-- The manifest of a root. -/
def manifest (root : Hash) : Bytes := manifestMagic ++ root.val

variable (getObject : Hash → Except String Bytes) (priority : Bytes → Hash)

/-- Read a node, from the editor's own nodes first. -/
def node (t : MetadataTree) (id : Hash) : Except String Node :=
  match t.cache[id]? with
  | some n => .ok n
  | none => getObject id >>= Node.decode

/-- Whether a node belongs above another. -/
def higher (a b : Node) : Prop :=
  if priority a.key = priority b.key then b.key < a.key else priority b.key < priority a.key

instance (a b : Node) : Decidable (higher priority a b) :=
  inferInstanceAs (Decidable (if priority a.key = priority b.key then b.key < a.key
    else priority b.key < priority a.key))

/-- Follow a search path to the key or to the end of the tree, most recent step first. -/
def descend (t : MetadataTree) (key : Bytes) (current : Hash) (visited : Finset Hash)
    (path : List Step) : Except String (Option Node × List Step) :=
  if current = Hash.zero then .ok (none, path)
  else if current ∈ visited then .error "metadata tree cycle"
  else
    match t.node getObject current with
    | .error e => .error e
    | .ok n =>
      if key = n.key then .ok (some n, path)
      else if key < n.key then
        descend t key n.left (insert current visited) (⟨n, true⟩ :: path)
      else descend t key n.right (insert current visited) (⟨n, false⟩ :: path)
termination_by { id : Hash | id ∉ visited }.ncard
decreasing_by
  all_goals
    refine Set.ncard_lt_ncard ⟨fun id hid hmem => hid (Finset.mem_insert_of_mem hmem), ?_⟩
    exact fun hsub => hsub (a := current) (by assumption) (Finset.mem_insert_self _ _)

/-- Follow the two spines that `merge` interleaves, until one of them ends. -/
def mergePath (t : MetadataTree) (left right : Hash) (visited : Finset Hash)
    (path : List Step) : Except String (Hash × List Step) :=
  if left = Hash.zero ∨ right = Hash.zero then
    .ok (if left = Hash.zero then right else left, path)
  else
    match t.node getObject left, t.node getObject right with
    | .error e, _ => .error e
    | .ok _, .error e => .error e
    | .ok a, .ok b =>
      if higher priority a b then
        if left ∈ visited then .error "metadata tree cycle"
        else mergePath t a.right right (insert left visited) (⟨a, false⟩ :: path)
      else if right ∈ visited then .error "metadata tree cycle"
      else mergePath t left b.left (insert right visited) (⟨b, true⟩ :: path)
termination_by { id : Hash | id ∉ visited }.ncard
decreasing_by
  · refine Set.ncard_lt_ncard ⟨fun id hid hmem => hid (Finset.mem_insert_of_mem hmem), ?_⟩
    exact fun hsub => hsub (a := left) (by assumption) (Finset.mem_insert_self _ _)
  · refine Set.ncard_lt_ncard ⟨fun id hid hmem => hid (Finset.mem_insert_of_mem hmem), ?_⟩
    exact fun hsub => hsub (a := right) (by assumption) (Finset.mem_insert_self _ _)

section Edits

variable [Digest]

/-- Store a new node in the editor. -/
def make (n : Node) : EStateM String MetadataTree Hash := fun t =>
  if n.Valid then
    .ok (objectHash n.encode)
      { t with
        cache := t.cache.insert (objectHash n.encode) n
        pending := t.pending ++ [n.encode] }
  else .error "invalid metadata node" t

/-- Copy the merged spine upwards with the joined child in place. -/
def mergeUp : List Step → Hash → EStateM String MetadataTree Hash
  | [], result => pure result
  | step :: path, result => do
    let result ← make (step.withChild result)
    mergeUp path result

/-- Join two subtrees. -/
def merge (left right : Hash) : EStateM String MetadataTree Hash := fun t =>
  match mergePath getObject priority t left right ∅ [] with
  | .error e => .error e t
  | .ok (result, path) => mergeUp path result t

/-- Put `top` above its parent `n`. -/
def rotate (left : Bool) (n top : Node) : EStateM String MetadataTree Hash :=
  if left then do
    let right ← make { n with left := top.right }
    make { top with right := right }
  else do
    let left ← make { n with right := top.left }
    make { top with left := left }

/-- Copy one node of a path with its new child, which is rotated above if it ranks higher. -/
def raise (step : Step) (child : Hash) : EStateM String MetadataTree Hash := fun t =>
  if child = Hash.zero then make (step.withChild child) t
  else
    match t.node getObject child with
    | .error e => .error e t
    | .ok top =>
      if higher priority top (step.withChild child) then
        rotate step.left (step.withChild child) top t
      else make (step.withChild child) t

/-- Copy the path upwards. -/
def rebuild : List Step → Hash → EStateM String MetadataTree Hash
  | [], result => pure result
  | step :: path, result => do
    let result ← raise getObject priority step result
    rebuild path result

/-- Bind or delete one key below a root and return the new root. -/
def set (root : Hash) (key : Bytes) (value : Option Hash) :
    EStateM String MetadataTree Hash := fun t =>
  match descend getObject t key root ∅ [] with
  | .error e => .error e t
  | .ok (none, path) =>
    match value with
    | none => .ok root t
    | some v =>
      (do
        let result ← make ⟨key, v, Hash.zero, Hash.zero⟩
        rebuild getObject priority path result) t
  | .ok (some n, path) =>
    match value with
    | none =>
      (do
        let result ← merge getObject priority n.left n.right
        rebuild getObject priority path result) t
    | some v =>
      if n.value = v then .ok root t
      else
        (do
          let result ← make { n with value := v }
          rebuild getObject priority path result) t

end Edits

section Reads

/-- Search for a key, at most `fuel` nodes deep. -/
def lookupFrom (t : MetadataTree) (key : Bytes) (fuel : ℕ) (id : Hash) :
    Except String (Option Hash) :=
  if id = Hash.zero then .ok none
  else
    match fuel with
    | 0 => .error "metadata tree depth limit"
    | fuel + 1 => do
      let n ← t.node getObject id
      if key = n.key then return some n.value
      else if key < n.key then lookupFrom t key fuel n.left
      else lookupFrom t key fuel n.right

/-- The value bound to a key. -/
def lookup (t : MetadataTree) (key : Bytes) : Except String (Option Hash) :=
  lookupFrom getObject t key 256 t.root

/-- The height of a subtree, at most `fuel`. -/
def heightFrom (t : MetadataTree) (fuel : ℕ) (id : Hash) : Except String ℕ :=
  if id = Hash.zero then .ok 0
  else
    match fuel with
    | 0 => .error "metadata tree depth limit"
    | fuel + 1 => do
      let n ← t.node getObject id
      let left ← heightFrom t fuel n.left
      let right ← heightFrom t fuel n.right
      return 1 + max left right

/-- The height of a tree within the depth limit. -/
def height (t : MetadataTree) (root : Hash) : Except String ℕ :=
  heightFrom getObject t 256 root

/-- The least string above every extension of `pre`, if there is one. -/
def upperBound (pre : Bytes) : Option Bytes :=
  match pre.reverse.dropWhile (· = 255) with
  | [] => none
  | c :: rest => some ((c + 1) :: rest).reverse

/-- In-order keys that start with `pre`, pruning subtrees that cannot hold one. -/
def keysFrom (t : MetadataTree) (pre : Bytes) (upper : Option Bytes) (fuel : ℕ) (id : Hash) :
    Except String (List Bytes) :=
  if id = Hash.zero then .ok []
  else
    match fuel with
    | 0 => .error "metadata tree depth limit"
    | fuel + 1 => do
      let n ← t.node getObject id
      let left ← if pre ≤ n.key then keysFrom t pre upper fuel n.left else pure []
      let own := if pre <+: n.key then [n.key] else []
      let right ←
        if ∀ bound ∈ upper, n.key < bound then keysFrom t pre upper fuel n.right else pure []
      return left ++ own ++ right

/-- All keys that start with `pre`. -/
def keys (t : MetadataTree) (pre : Bytes) : Except String (List Bytes) :=
  keysFrom getObject t pre (upperBound pre) 256 t.root

/-- Extend a page with the keys of a subtree until it holds `limit` keys. -/
def pageFrom (t : MetadataTree) (pre after : Bytes) (upper : Option Bytes) (limit fuel : ℕ)
    (id : Hash) (result : List Bytes) : Except String (List Bytes) :=
  if id = Hash.zero ∨ result.length = limit then .ok result
  else
    match fuel with
    | 0 => .error "metadata tree depth limit"
    | fuel + 1 => do
      let n ← t.node getObject id
      let lower := if after = [] then pre else after
      let result ←
        if lower < n.key then pageFrom t pre after upper limit fuel n.left result
        else pure result
      if result.length = limit then return result
      let result :=
        if pre <+: n.key ∧ (after = [] ∨ after < n.key) then result ++ [n.key] else result
      if result.length < limit ∧ ∀ bound ∈ upper, n.key < bound then
        pageFrom t pre after upper limit fuel n.right result
      else return result

/-- The first `limit` keys that start with `pre` and follow `after`. -/
def page (t : MetadataTree) (pre after : Bytes) (limit : ℕ) : Except String (List Bytes) := do
  need (0 < limit ∧ limit ≤ 1025 ∧ (after = [] ∨ pre <+: after)) "invalid metadata page request"
  pageFrom getObject t pre after (upperBound pre) limit 256 t.root []

/-- Fail if a child belongs above its parent. -/
def checkChild (t : MetadataTree) (n : Node) (id : Hash) : Except String Unit :=
  if id = Hash.zero then .ok ()
  else do
    let child ← t.node getObject id
    need (¬ higher priority child n) "metadata tree heap mismatch"

/-- Collect the entries of a subtree whose keys lie strictly between two bounds. -/
def entriesFrom (t : MetadataTree) (fuel : ℕ) (id : Hash) (lo hi : Option Bytes)
    (visited : Finset Hash) (result : StdMap Bytes Hash) :
    Except String (Finset Hash × StdMap Bytes Hash) :=
  if id = Hash.zero then .ok (visited, result)
  else
    match fuel with
    | 0 => .error "metadata tree cycle/depth"
    | fuel + 1 => do
      need (id ∉ visited) "metadata tree cycle/depth"
      let n ← t.node getObject id
      need ((∀ bound ∈ lo, bound < n.key) ∧ ∀ bound ∈ hi, n.key < bound)
        "metadata tree ordering mismatch"
      checkChild getObject priority t n n.left
      checkChild getObject priority t n n.right
      let (visited, result) ←
        entriesFrom t fuel n.left lo (some n.key) (insert id visited) result
      entriesFrom t fuel n.right (some n.key) hi visited (result.insertIfNew n.key n.value)

/-- The whole map, with the tree's order, heap and depth checked. -/
def entries (t : MetadataTree) : Except String (StdMap Bytes Hash) := do
  let (_, result) ← entriesFrom getObject priority t 256 t.root none none ∅ ∅
  return result

end Reads

/-- The pending payload of an identity. `std::map::emplace` keeps the first payload that was
created with it. -/
def findPending [Digest] (t : MetadataTree) (id : Hash) : Option Bytes :=
  t.pending.find? fun payload => objectHash payload = id

/-- Payloads of the pending nodes below an identity, children first. A candidate is at most
256 high when this runs, so the fuel that `apply` passes is never exhausted. -/
def collect [Digest] (t : MetadataTree) : ℕ → Hash → Finset Hash × List Bytes →
    Except String (Finset Hash × List Bytes)
  | 0, _, found => .ok found
  | fuel + 1, id, (visited, objects) =>
    match t.findPending id with
    | none => .ok (visited, objects)
    | some payload =>
      if id ∈ visited then .ok (visited, objects)
      else do
        let n ← t.node getObject id
        let found ← collect t fuel n.left (insert id visited, objects)
        let (visited, objects) ← collect t fuel n.right found
        return (visited, objects ++ [payload])

/-- The checks of one change, made before anything is edited. -/
def checkChange (change : Bytes × Option Hash) : Except String Unit := do
  need (validKey change.1) "invalid metadata change key"
  need (change.2 ≠ some Hash.zero) "zero metadata value reference"
  need (change.1 ≠ namespaceRoot ∨ change.2.isSome) "cannot delete namespace root"

/-- Fail unless the changed tree keeps a namespace root. -/
def checkRoot (t : MetadataTree) (changes : TreeChanges) : Except String Unit :=
  if namespaceRoot ∈ changes then .ok ()
  else do
    let found ← t.lookup getObject namespaceRoot
    need found.isSome "metadata tree missing namespace root"

/-- Edit the tree in key order. -/
def setAll [Digest] : List (Bytes × Option Hash) → Hash → EStateM String MetadataTree Hash
  | [], candidate => pure candidate
  | change :: changes, candidate => do
    let candidate ← set getObject priority candidate change.1 change.2
    setAll changes candidate

/-- Validate the height of an edited tree. -/
def checkHeight (t : MetadataTree) (candidate : Hash) : Except String Unit :=
  if candidate = t.root then .ok ()
  else do
    let _ ← t.height getObject candidate
    return ()

/-- Apply a batch of changes and plan its publication. -/
def apply [Digest] (changes : TreeChanges) : EStateM String MetadataTree Plan := fun t =>
  (do
    attempt (changes.toList.forM checkChange)
    attempt (t.checkRoot getObject changes)
    let candidate ← setAll getObject priority changes.toList t.root
    let edited ← EStateM.get
    attempt (edited.checkHeight getObject candidate)
    let (_, objects) ← attempt (edited.collect getObject 257 candidate (∅, []))
    EStateM.set { edited with root := candidate }
    return Plan.mk (manifest candidate) objects) t

end MetadataTree

end ForkFs
