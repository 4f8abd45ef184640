import ForkFs.Container.Collect
import ForkFs.Container.Directories
import ForkFs.Container.Handles

/-!
# Calls and runs

The interface of an open repository as data, and the states that sequences of calls lead to. A
call that throws leaves the state its method left. A process may end at any time; since every
method commits at most one batch, which is atomic, it then ends between two calls or between
two batches of a recovery.
-/

namespace ForkFs

variable [Digest]

/-- The operations on a World or revision. -/
inductive NamespaceCall
  | fsInit
  | mkdir (path : Bytes) (mode : ℕ)
  | write (path value : Bytes)
  | replaceFile (path value : Bytes)
  | writeAt (path : Bytes) (offset : ℕ) (value : Bytes)
  | append (path value : Bytes)
  | truncate (path : Bytes) (size : ℕ)
  | setAttributes (path : Bytes) (a : Attributes)
  | symlink (target path : Bytes)
  | link (source target : Bytes)
  | remove (path : Bytes) (directory : Bool)
  | rename (source target : Bytes)
  | snapshot (name : Bytes)
  | fork (revision world : Bytes)
  | openHandle (path : Bytes) (access : Access) (o : OpenOptions)
  | dup (token : Bytes)
  | close (token : Bytes)
  | tryLockRange (token : Bytes) (mode : Option LockMode) (start length : ℕ)
  | seek (token : Bytes) (offset : ℤ) (origin : SeekOrigin)
  | handleStat (token : Bytes)
  | handleRead (token : Bytes) (offset count : ℕ)
  | handleReadNext (token : Bytes) (count : ℕ)
  | handleWrite (token : Bytes) (offset : ℕ) (value : Bytes)
  | handleAppend (token value : Bytes)
  | handleTruncate (token : Bytes) (size : ℕ)
  | handleWriteNext (token value : Bytes)
  | handleSetAttributes (token : Bytes) (a : Attributes)

/-- The method of an operation, without its result. -/
def NamespaceCall.method (ns : Namespace) (env : Env) : NamespaceCall → Method Unit
  | .fsInit => ns.fsInit env
  | .mkdir path mode => ns.mkdir env path mode
  | .write path value => ns.write env path value
  | .replaceFile path value => ns.replaceFile env path value
  | .writeAt path offset value => ns.writeAt env path offset value
  | .append path value => discard (ns.append env path value)
  | .truncate path size => ns.truncate env path size
  | .setAttributes path a => ns.setAttributes env path a
  | .symlink target path => ns.symlink env target path
  | .link source target => ns.link env source target
  | .remove path directory => ns.remove env path directory
  | .rename source target => ns.rename env source target
  | .snapshot name => discard (ns.snapshot name)
  | .fork revision world => ns.fork revision world
  | .openHandle path access o => discard (ns.openHandle env path access o)
  | .dup token => discard (ns.dup env token)
  | .close token => ns.close token
  | .tryLockRange token mode start length => discard (ns.tryLockRange token mode start length)
  | .seek token offset origin => discard (ns.seek token offset origin)
  | .handleStat token => discard (ns.handleStat token)
  | .handleRead token offset count => discard (ns.handleRead token offset count)
  | .handleReadNext token count => discard (ns.handleReadNext token count)
  | .handleWrite token offset value => ns.handleWrite env token offset value
  | .handleAppend token value => discard (ns.handleAppend env token value)
  | .handleTruncate token size => ns.handleTruncate env token size
  | .handleWriteNext token value => discard (ns.handleWriteNext env token value)
  | .handleSetAttributes token a => ns.handleSetAttributes env token a

/-- The calls on an open repository. -/
inductive ContainerCall
  /-- An operation on a World or revision. -/
  | onView (ns : Namespace) (env : Env) (op : NamespaceCall)
  /-- Store a value of the user. -/
  | put (key value : Bytes)
  /-- A transaction of the user. -/
  | transact (expected : ℕ) (mutations : List Mutation)
  /-- Open a directory stream. -/
  | openDirectory (ns : Namespace) (path : Bytes)
  /-- Drop a directory stream. -/
  | closeDirectory (cursor : DirectoryCursor)
  /-- Collect garbage. -/
  | collectGarbage

/-- The method of a call, without its result. -/
def ContainerCall.method : ContainerCall → Method Unit
  | .onView ns env op => op.method ns env
  | .put key value => Container.put key value
  | .transact expected mutations => Container.transact expected mutations
  | .openDirectory ns path => discard (ns.openDirectory path)
  | .closeDirectory cursor => Container.closeDirectory cursor
  | .collectGarbage => discard Container.collectGarbage

/-- What happens to a repository. -/
inductive ContainerEvent
  /-- A call, which may throw. -/
  | call (op : ContainerCall)
  /-- The process ends and the repository is opened again, after some interrupted attempts. -/
  | restart (interrupted : List ℕ)

namespace Container

/-- The state after an event. A repository that cannot be opened ends the run. -/
def step (c : Container) : ContainerEvent → Except String Container
  | .call op => .ok (Outcome.after op.method c)
  | .restart interrupted => c.restart interrupted

/-- The state after a sequence of events on a new repository. -/
def run (events : List ContainerEvent) : Except String Container := events.foldlM step create

/-- Induction over runs: what holds of a new repository and is kept by every event holds
throughout. -/
theorem run_induction {P : Container → Prop} (hcreate : P create)
    (hstep : ∀ c event c', P c → c.step event = .ok c' → P c') {events : List ContainerEvent} {c : Container}
    (h : run events = .ok c) : P c := by
  have hfold : ∀ (events : List ContainerEvent) (c₀ : Container), P c₀ → events.foldlM step c₀ = .ok c → P c := by
    intro events
    induction events with
    | nil =>
      intro c₀ h₀ h
      cases h
      exact h₀
    | cons event events ih =>
      intro c₀ h₀ h
      rw [List.foldlM_cons] at h
      obtain ⟨c₁, h₁, hrest⟩ := Outcome.bind_eq_ok.mp h
      exact ih c₁ (hstep c₀ event c₁ h₀ h₁) hrest
  exact hfold events create hcreate h

/-- Only a restart can end a run. -/
theorem run_calls (calls : List ContainerCall) : ∃ c, run (calls.map .call) = .ok c := by
  have hfold : ∀ (calls : List ContainerCall) (c₀ : Container), ∃ c,
      (calls.map ContainerEvent.call).foldlM step c₀ = .ok c := by
    intro calls
    induction calls with
    | nil => exact fun c₀ => ⟨c₀, rfl⟩
    | cons op calls ih => exact fun c₀ => ih (Outcome.after op.method c₀)
  exact hfold calls create

end Container

end ForkFs
