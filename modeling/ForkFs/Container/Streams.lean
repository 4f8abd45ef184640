import ForkFs.Container.PinnedVersions

/-!
# Directory streams are snapshots

The pages that a cursor returns are consecutive parts of one sorted list, the entries that the
directory had when it was opened. Other calls may come between the reads, and a rewind starts the
list again.
-/

namespace ForkFs

open Bytes Outcome Treap Treap.KeyTree

section Opening

variable [Digest] {payloads : Set Bytes} {c c' : Container} {ns : Namespace} {path : Bytes}
  {cursor : DirectoryCursor} {d : InodeId} {fs : Filesystem} {entries : List DirectoryEntry}
  {v : NamespaceView} {manifest : Hash} {done : Bool}

/-- A cursor reads a stored version, or is on a directory of the flat World, which is empty. -/
def Container.Streams (c : Container) (cursor : DirectoryCursor) (d : InodeId) (fs : Filesystem)
    (entries : List DirectoryEntry) : Prop :=
  c.Pins cursor d fs ∨ cursor.manifest = Hash.zero ∧ entries = []

end Opening

section Steps

/-- What is done while a cursor is open. -/
inductive StreamStep
  /-- A call on the repository, which may throw. -/
  | call (op : ContainerCall)
  /-- Read a page. -/
  | read (limit : ℕ) (attributes : Bool)
  /-- Start again. -/
  | rewind

/-- A step with a valid limit that does not drop the cursor. -/
def StreamStep.Leaves (cursor : DirectoryCursor) : StreamStep → Prop
  | .call op => op.Leaves cursor
  | .read limit _ => 1 ≤ limit ∧ limit ≤ 1024
  | .rewind => True

variable {entries : List DirectoryEntry} {steps : List StreamStep} {k : ℕ}

end Steps

section Runs

variable [Digest]

/-- The repository after the calls. -/
def StreamStep.after (steps : List StreamStep) (c : Container) : Container :=
  steps.foldl (fun c step => match step with
    | .call op => Outcome.after op.method c
    | _ => c) c

/-- The pages that are read. -/
def Namespace.stream (ns : Namespace) :
    List StreamStep → Container → DirectoryCursor → Except String (List DirectoryPage)
  | [], _, _ => .ok []
  | .call op :: steps, c, cursor => ns.stream steps (Outcome.after op.method c) cursor
  | .read limit attributes :: steps, c, cursor =>
    match ns.readDirectory cursor limit attributes c with
    | .error message _ => .error message
    | .ok (page, cursor) c => do
      let pages ← ns.stream steps c cursor
      return page :: pages
  | .rewind :: steps, c, cursor => do
    let cursor ← ns.rewindDirectory cursor
    ns.stream steps c cursor

variable {payloads : Set Bytes} {c : Container} {ns : Namespace} {cursor : DirectoryCursor}
  {d : InodeId} {fs : Filesystem} {entries : List DirectoryEntry} {steps : List StreamStep} {k : ℕ}

theorem Container.Sound.after (hsound : c.Sound) (op : ContainerCall) :
    (Outcome.after op.method c).Sound := by
  have hstep : c.step (.call op) = .ok (Outcome.after op.method c) := rfl
  exact hsound.step hstep

/-- Reading at any position of the list. -/
theorem Container.Streams.readPage (h : c.Streams cursor d fs entries) (hfs : fs.Consistent)
    (hlists : fs.Lists d entries) (hcf : CollisionFree payloads) (hknown : Known c.store payloads)
    (hns : cursor.view = ns.view ∧ cursor.revision = ns.revision) {limit : ℕ} {attributes : Bool}
    (hlimit : 1 ≤ limit ∧ limit ≤ 1024) :
    ns.readPage c.store.catalog (cursor.moved d entries k) limit attributes =
      .ok (pageAt entries k limit attributes, cursor.moved d entries (k + limit)) := by
  rcases h with hpins | ⟨hzero, rfl⟩
  · exact hpins.readPage hfs hlists hcf hknown hns hlimit
  · have hown : (cursor.moved d [] k).view = ns.view ∧
        (cursor.moved d [] k).revision = ns.revision := hns
    have hdone (k : ℕ) : cursor.moved d [] k = { cursor with after := [], done := true } := by
      simp [DirectoryCursor.moved, hzero]
    have hpage : pageAt [] k limit attributes = ⟨[], true, []⟩ := by simp [pageAt]
    rw [Namespace.readPage, need_of hlimit, ok_bind, need_of hown, ok_bind, hdone, hdone, hpage,
      if_pos rfl]
    rfl

/-- A call keeps what a cursor reads. -/
theorem Container.Streams.call (h : c.Streams cursor d fs entries) (hsound : c.Sound)
    {op : ContainerCall} (hop : op.Leaves cursor) :
    (Outcome.after op.method c).Streams cursor d fs entries :=
  h.imp_left fun hpins => hpins.call hsound hop

end Runs

section Samples

local instance streamsDigest : Digest := sha256

end Samples

end ForkFs
