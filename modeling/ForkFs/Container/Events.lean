import ForkFs.Container.Effects
import Mathlib.Logic.Relation

/-!
# The effects of events

`Container.Happened` lists what an event can do to a repository: an operation on a World or
revision, a transaction of the user, a change of directory pins, a collection, or a restart,
which deletes roots of orphans in batches.
-/

namespace ForkFs

open Bytes Outcome

variable [Digest] {c c' : Container}

section Calls

theorem attains_put (key value : Bytes) (c : Container) :
    Attains (Container.put key value) c fun _ c' => ∃ store, ¬ Container.reserved key ∧
      c.store.transact c.store.sequence [.assign key (some value)] = .ok store ∧
      c' = { c with store := store, hashed := c.hashed ++ [value] } := by
  refine (readOnly_attempt _).bind fun _ hkey => ?_
  refine (attains_transact _ _ c).imp ?_
  rintro - c' ⟨store, hstore, rfl⟩
  exact ⟨store, need_eq_ok.mp (attempt_eq_ok.mp hkey).1, hstore, by simp⟩

theorem attains_userTransact (expected : ℕ) (mutations : List Mutation) (c : Container) :
    Attains (Container.transact expected mutations) c fun _ c' => ∃ store,
      (∀ m ∈ mutations, ¬ Container.reserved m.key) ∧
      c.store.transact expected mutations = .ok store ∧
      c' = { c with
        store := store, hashed := c.hashed ++ mutations.filterMap Mutation.value } := by
  refine (readOnly_attempt _).bind fun _ hkeys => ?_
  refine readOnly_get.bind fun c₁ hc₁ => ?_
  cases hc₁
  refine (readOnly_attempt _).bind fun store hstore => ?_
  exact ⟨store, need_eq_ok.mp (attempt_eq_ok.mp hkeys).1, (attempt_eq_ok.mp hstore).1, rfl⟩

theorem attains_openDirectory (ns : Namespace) (path : Bytes) (c : Container) :
    Attains (ns.openDirectory path) c fun _ c' => ∃ pins, c' = { c with directoryPins := pins } := by
  refine (readOnly_current ns).bind fun v _ => ?_
  refine (readOnly_attempt _).bind fun id _ => ?_
  refine (readOnly_attempt _).bind fun n _ => ?_
  refine (readOnly_attempt _).bind fun _ _ => ?_
  refine readOnly_get.bind fun c₁ hc₁ => ?_
  cases hc₁
  refine (readOnly_attempt _).bind fun planned _ => ?_
  exact ⟨_, rfl⟩

/-- A collection keeps everything but the store, also when the check after it fails. -/
theorem after_collectGarbage (c : Container) :
    after Container.collectGarbage c = c ∨ ∃ removed store,
      c.table.handles.size = 0 ∧ c.directoryPins = [] ∧
      Container.planCollect c.store = .ok (removed, store) ∧
      after Container.collectGarbage c = { c with store := store } := by
  unfold Container.collectGarbage
  rcases readOnly_get.after_bind c with ⟨c₁, hget, h⟩ | h
  swap
  · exact Or.inl h
  cases hget
  rw [h]
  rcases (readOnly_attempt _).after_bind c with ⟨_, hhandles, h⟩ | h
  swap
  · exact Or.inl h
  rw [h]
  rcases (readOnly_attempt _).after_bind c with ⟨_, hpins, h⟩ | h
  swap
  · exact Or.inl h
  rw [h]
  rcases (readOnly_attempt (Container.planCollect c.store)).after_bind c with
    ⟨⟨removed, store⟩, hplan, h⟩ | h
  swap
  · exact Or.inl h
  rw [h]
  refine Or.inr ⟨removed, store, need_eq_ok.mp (attempt_eq_ok.mp hhandles).1,
    need_eq_ok.mp (attempt_eq_ok.mp hpins).1, (attempt_eq_ok.mp hplan).1, ?_⟩
  have hset : (set { c with store := store } : Method PUnit) c = .ok ⟨⟩ { c with store := store } := rfl
  rw [after_bind_of_ok hset]
  have hverify : ReadOnly (attempt store.verify >>= fun _ => pure removed : Method ℕ) :=
    (readOnly_attempt _).bind_readOnly fun _ _ => attains_pure rfl
  exact hverify.after_eq _

end Calls

section Recovery

/-- One batch of a recovery. -/
def Container.Drops (c c' : Container) : Prop :=
  ∃ (keys : List Bytes) (store : LevelStore),
    (∀ key ∈ keys, orphans <+: key ∧ Container.checkOrphan key = .ok ()) ∧
    c.store.transact c.store.sequence (keys.map fun key => .assign key none) = .ok store ∧
    c' = { c with store := store }

/-- The batches of a recovery. -/
abbrev Container.DropsAll : Container → Container → Prop := Relation.ReflTransGen Container.Drops

/-- Deleting the roots of orphans is a sequence of such batches. -/
theorem dropsAll_deleteAll {keys : List Bytes} (hkeys : ∀ key ∈ keys, orphans <+: key)
    (batch : List Bytes)
    (hbatch : ∀ key ∈ batch, orphans <+: key ∧ Container.checkOrphan key = .ok ()) (c : Container) :
    c.DropsAll (after (Container.deleteAll keys (batch.map fun key => .assign key none)) c) := by
  have hdrop (batch : List Bytes)
      (hbatch : ∀ key ∈ batch, orphans <+: key ∧ Container.checkOrphan key = .ok ())
      (c : Container) :
      c.DropsAll (after (transact ⟨batch.map fun key => .assign key none, []⟩ none) c) := by
    rcases (attains_transact ⟨batch.map fun key => .assign key none, []⟩ none c).after with
      ⟨_, store, hstore, h⟩ | h
    · refine .single ⟨batch, store, hbatch, hstore, ?_⟩
      rw [h]
      simp
    · rw [h]
  induction keys generalizing batch c with
  | nil =>
    unfold Container.deleteAll
    split
    · exact .refl
    · exact hdrop batch hbatch c
  | cons key keys ih =>
    have hkeys' : ∀ x ∈ keys, orphans <+: x := fun x hx => hkeys x (List.mem_cons_of_mem _ hx)
    unfold Container.deleteAll
    rcases (readOnly_attempt (Container.checkOrphan key)).after_bind c with ⟨_, hcheck, h⟩ | h
    swap
    · rw [h]
    rw [h]
    have hnext : ∀ x ∈ batch ++ [key], orphans <+: x ∧ Container.checkOrphan x = .ok () := by
      intro x hx
      rcases List.mem_append.mp hx with hx | hx
      · exact hbatch x hx
      · rw [List.mem_singleton.mp hx]
        exact ⟨hkeys key (by simp), (attempt_eq_ok.mp hcheck).1⟩
    have hmap : (batch.map fun key => Mutation.assign key none) ++ [.assign key none] =
        (batch ++ [key]).map fun key => .assign key none := by simp
    dsimp only
    rw [hmap]
    split
    · -- The batch is full: what follows starts from the state after it, also if it fails.
      have hfirst := hdrop (batch ++ [key]) hnext c
      cases hrun : transact ⟨(batch ++ [key]).map fun key => .assign key none, []⟩ none c with
      | ok u c₁ =>
        rw [after_of_ok hrun] at hfirst
        rw [after_bind_of_ok hrun]
        exact hfirst.trans (ih hkeys' [] (by simp) c₁)
      | error message c₁ =>
        rw [after_of_error hrun] at hfirst
        rwa [after_bind_of_error hrun]
    · exact ih hkeys' (batch ++ [key]) hnext c

/-- A recovery changes the store only. -/
theorem dropsAll_frame (h : c.DropsAll c') : ∃ store, c' = { c with store := store } := by
  induction h with
  | refl => exact ⟨c.store, rfl⟩
  | tail _ hdrops ih =>
    obtain ⟨store₁, rfl⟩ := ih
    obtain ⟨keys, store, -, -, rfl⟩ := hdrops
    exact ⟨store, rfl⟩

theorem dropsAll_recoverOrphans (c : Container) :
    c.DropsAll (after Container.recoverOrphans c) := by
  unfold Container.recoverOrphans
  rcases readOnly_get.after_bind c with ⟨c₁, hget, h⟩ | h
  swap
  · rw [h]
  cases hget
  rw [h]
  exact dropsAll_deleteAll (fun key hkey => (Catalog.mem_keys.mp hkey).2) [] (by simp) c

/-- Interrupted openings delete roots of orphans, too. -/
theorem dropsAll_interruptedOpen (interrupted : List ℕ) (c : Container) :
    c.exit.DropsAll (interrupted.foldl Container.interruptedOpen c.exit) := by
  have hfold : ∀ (interrupted : List ℕ) (c₀ : Container), c₀.exit = c₀ →
      c₀.DropsAll (interrupted.foldl Container.interruptedOpen c₀) := by
    intro interrupted
    induction interrupted with
    | nil => exact fun _ _ => .refl
    | cons batches interrupted ih =>
      intro c₀ hexit
      have hfirst : c₀.DropsAll (c₀.interruptedOpen batches) := by
        unfold Container.interruptedOpen
        rw [hexit]
        refine dropsAll_deleteAll (fun key hkey => ?_) [] (by simp) c₀
        exact (Catalog.mem_keys.mp (List.mem_of_mem_take hkey)).2
      refine hfirst.trans (ih _ ?_)
      obtain ⟨store, hstore⟩ := dropsAll_frame hfirst
      rw [hstore]
      exact congrArg (fun x : Container => { x with store := store }) hexit
  exact hfold interrupted c.exit rfl

end Recovery

section Events

/-- What an event can do to a repository. -/
inductive Container.Happened (c : Container) : ContainerEvent → Container → Prop
  /-- An operation on a World or revision. -/
  | performed (ns : Namespace) (env : Env) (op : NamespaceCall) (c' : Container)
      (h : Performed ns op c c') : Happened c (.call (.onView ns env op)) c'
  /-- A call that throws. -/
  | refused (op : ContainerCall) : Happened c (.call op) c
  /-- A transaction on keys of the user. -/
  | user (op : ContainerCall) (expected : ℕ) (mutations : List Mutation) (store : LevelStore)
      (hkeys : ∀ m ∈ mutations, ¬ Container.reserved m.key)
      (hstore : c.store.transact expected mutations = .ok store) :
      Happened c (.call op) { c with
        store := store, hashed := c.hashed ++ mutations.filterMap Mutation.value }
  /-- A directory stream is opened or dropped. -/
  | pinned (op : ContainerCall) (pins : List ℕ) :
      Happened c (.call op) { c with directoryPins := pins }
  /-- A collection. -/
  | collected (removed : ℕ) (store : LevelStore) (hhandles : c.table.handles.size = 0)
      (hpins : c.directoryPins = []) (hplan : Container.planCollect c.store = .ok (removed, store)) :
      Happened c (.call .collectGarbage) { c with store := store }
  /-- A restart. -/
  | restarted (interrupted : List ℕ) (c' : Container) (hdrops : c.exit.DropsAll c') :
      Happened c (.restart interrupted) c'

variable {event : ContainerEvent}

/-- A restart deletes roots of orphans. -/
theorem dropsAll_restart {interrupted : List ℕ} (h : c.restart interrupted = .ok c') :
    c.exit.DropsAll c' := by
  have hrecover := dropsAll_recoverOrphans (interrupted.foldl Container.interruptedOpen c.exit)
  unfold Container.restart at h
  split at h
  · rename_i heq
    rw [after_of_ok heq] at hrecover
    cases h
    exact (dropsAll_interruptedOpen interrupted c).trans hrecover
  · cases h

/-- Every event has one of these effects. -/
theorem Container.step_happened (hd : c.table.Described) (hcounts : c.table.CountsRight)
    (h : c.step event = .ok c') : c.Happened event c' := by
  cases event with
  | restart interrupted => exact .restarted interrupted c' (dropsAll_restart h)
  | call op =>
    cases h
    cases op with
    | onView ns env op =>
      change c.Happened _ (after (op.method ns env) c)
      rcases (op.attains hd hcounts ns env).after with ⟨_, hperformed⟩ | hsame
      · exact .performed ns env op _ hperformed
      · rw [hsame]
        exact .refused _
    | put key value =>
      change c.Happened _ (after (Container.put key value) c)
      rcases (attains_put key value c).after with ⟨_, store, hkey, hstore, h⟩ | h <;> rw [h]
      · refine .user _ c.store.sequence [.assign key (some value)] store (fun m hm => ?_) hstore
        rw [List.mem_singleton.mp hm]
        exact hkey
      · exact .refused _
    | transact expected mutations =>
      change c.Happened _ (after (Container.transact expected mutations) c)
      rcases (attains_userTransact expected mutations c).after with
        ⟨_, store, hkeys, hstore, h⟩ | h <;> rw [h]
      · exact .user _ expected mutations store hkeys hstore
      · exact .refused _
    | openDirectory ns path =>
      change c.Happened _ (after (discard (ns.openDirectory path)) c)
      rw [after_discard]
      rcases (attains_openDirectory ns path c).after with ⟨_, pins, h⟩ | h <;> rw [h]
      · exact .pinned _ pins
      · exact .refused _
    | closeDirectory cursor => exact .pinned _ _
    | collectGarbage =>
      change c.Happened _ (after (discard Container.collectGarbage) c)
      rw [after_discard]
      rcases after_collectGarbage c with h | ⟨removed, store, hhandles, hpins, hplan, h⟩ <;> rw [h]
      · exact .refused _
      · exact .collected removed store hhandles hpins hplan

end Events

end ForkFs
