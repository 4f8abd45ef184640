import ForkFs.Container.OpenUnlink
import ForkFs.Namespace.Growth

/-!
# Writing and creating files by path

A write by path and an `open` that creates look a path up without its last link, and then again with
it. In the new version the path leads to the file that was written or opened, also where the last
target of a chain of links was missing. All other paths lead where they led.
-/

namespace ForkFs

open Bytes Outcome

section Creation

variable [Digest] {c c' : Container} {ns : Namespace} {env : Env} {path : Bytes} {v v' : NamespaceView}
  {id : InodeId} {events : List ContainerEvent}

theorem Container.Holds.stat {world : Bytes} {fs : Filesystem} {o : Orphans} {n : InodeInfo}
    (h : c.Holds world v fs o) (hleads : fs.Leads true path id) (hn : fs.inode id = some n) :
    v.stat path = .ok (id, n) := by
  rw [NamespaceView.stat, (h.pictures.resolve_eq_ok h.consistent).mpr hleads, ok_bind,
    h.pictures.inode_eq_ok.mpr hn]
  rfl

/-- The file of a descriptor that was opened by a path. -/
theorem Opens.holds {access : Access} {options : OpenOptions} {opening : Opening} {token : Bytes}
    (h : Opens ⟨ns.view, false⟩ env path access options c v opening token c')
    (hrun : Container.run events = .ok c) (hcf : CollisionFree { b | b ∈ c'.hashed }) :
    ∃ o v' o' t, c.Holds ns.view v v.filesystem o ∧ { c' with table := t }.Holds ns.view v'
      (v.filesystem.applyAll opening.effect.edits) o' := by
  have hperformed : Performed ⟨ns.view, false⟩ .fsInit c c' := h.performed
  obtain ⟨hsettled, hc, -⟩ := hperformed.settled hrun hcf
  obtain ⟨o, hholds⟩ := hc.holds h.view
  have hevolves : Evolves ns.view (c.table.isOpen ns.view) v.filesystem o opening.effect.edits :=
    (Evolves.openFile hholds.right hholds.pictures hholds.consistent h.mode_revision.1 h.found).1
  obtain ⟨v', hholds'⟩ :=
    h.commit.retable.holds (hsettled.retable c.table) (fun _ hb => hb) hholds hevolves
  exact ⟨o, v', _, c.table, hholds, hholds'⟩

theorem Opens.handle {access : Access} {options : OpenOptions} {opening : Opening} {token : Bytes}
    (h : Opens ns env path access options c v opening token c') :
    c'.table.handles[token]? = some (openedHandle ns access options opening c) := by
  rw [h.commit.table]
  change (HandleTable.counted _ _).handles[token]? = _
  rw [HandleTable.handles_counted]
  exact HandleTable.mem_handles_add.mpr (.inl ⟨rfl, rfl⟩)

end Creation

section Samples

local instance creationDigest : Digest := sha256

end Samples

end ForkFs
