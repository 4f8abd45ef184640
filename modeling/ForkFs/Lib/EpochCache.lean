import ForkFs.Lib.StdMap

/-!
# Caches validated by an epoch

Readers of a store keep what they read in a shared cache that holds facts of one epoch. A read
takes the epoch, looks its key up, reads the store without any lock, and installs the value only if
the epoch has not changed meanwhile. What a value stands for is a parameter: a relation between an
epoch, a key and a value that also holds for every earlier epoch.
-/

/-- Facts of one epoch. -/
structure EpochCache (K V : Type*) [LinearOrder K] where
  /-- The epoch of the facts. -/
  epoch : ℕ
  /-- The values read in this epoch. -/
  facts : StdMap K V

/-- The progress of one read. -/
inductive CachedRead (K V : Type*)
  /-- There is none. -/
  | idle
  /-- The cache had no value in the epoch of the read. -/
  | missed (key : K) (epoch : ℕ)
  /-- The store was read. -/
  | fetched (key : K) (epoch : ℕ) (value : V)
  /-- The value was returned. -/
  | done (key : K) (epoch : ℕ) (value : V)

namespace CachedRead

variable {K V : Type*}

/-- Read the store. -/
def fetch (store : K → V) : CachedRead K V → CachedRead K V
  | missed key epoch => fetched key epoch (store key)
  | read => read

/-- A read of a key that started in an epoch. -/
def Of (key : K) (epoch : ℕ) : CachedRead K V → Prop
  | idle => False
  | missed k e => k = key ∧ e = epoch
  | fetched k e _ => k = key ∧ e = epoch
  | done k e _ => k = key ∧ e = epoch

/-- Values in the hands of a read are those of its epoch. -/
def Valid (stands : ℕ → K → V → Prop) : CachedRead K V → Prop
  | idle => True
  | missed _ _ => True
  | fetched key epoch value => stands epoch key value
  | done key epoch value => stands epoch key value

variable {read : CachedRead K V} {key : K} {epoch : ℕ} {stands stands' : ℕ → K → V → Prop}

theorem Of.eq_epoch {key' : K} {epoch' : ℕ} (h : read.Of key epoch) (h' : read.Of key' epoch') :
    epoch' = epoch := by
  cases read with
  | idle => exact h.elim
  | missed k e => exact h'.2.symm.trans h.2
  | fetched k e v => exact h'.2.symm.trans h.2
  | done k e v => exact h'.2.symm.trans h.2

theorem of_fetch (store : K → V) : (read.fetch store).Of key epoch ↔ read.Of key epoch := by
  cases read with
  | idle => exact Iff.rfl
  | missed k e => exact Iff.rfl
  | fetched k e v => exact Iff.rfl
  | done k e v => exact Iff.rfl

theorem Valid.mono (h : read.Valid stands)
    (himp : ∀ epoch key value, stands epoch key value → stands' epoch key value) :
    read.Valid stands' := by
  cases read with
  | idle => trivial
  | missed k e => trivial
  | fetched k e v => exact himp _ _ _ h
  | done k e v => exact himp _ _ _ h

/-- Reading the store yields a value of every epoch so far. -/
theorem Valid.fetch (h : read.Valid stands) {store : K → V}
    (hstore : ∀ epoch key, read.Of key epoch → stands epoch key (store key)) :
    (read.fetch store).Valid stands := by
  cases read with
  | idle => trivial
  | missed k e => exact hstore e k ⟨rfl, rfl⟩
  | fetched k e v => exact h
  | done k e v => exact h

end CachedRead

namespace EpochCache

variable {K V : Type*} [LinearOrder K]

/-- The cache in the current epoch. -/
def refresh (c : EpochCache K V) (current : ℕ) : EpochCache K V :=
  if c.epoch = current then c else ⟨current, ∅⟩

/-- Start a read. -/
def start (c : EpochCache K V) (current : ℕ) (key : K) : EpochCache K V × CachedRead K V :=
  (c.refresh current,
    match (c.refresh current).facts[key]? with
    | some value => .done key current value
    | none => .missed key current)

/-- Return what was read, and keep it if the epoch is still that of the read. -/
def install (c : EpochCache K V) (capacity : ℕ) (admits : K → V → Prop)
    [∀ key value, Decidable (admits key value)] (current : ℕ) :
    CachedRead K V → EpochCache K V × CachedRead K V
  | .fetched key epoch value =>
    (if admits key value ∧ current = epoch ∧ c.epoch = epoch then
        ⟨c.epoch, (if capacity ≤ c.facts.size then ∅ else c.facts).insert key value⟩
      else c,
      .done key epoch value)
  | read => (c, read)

/-- Every fact is a value of the epoch. -/
def Valid (stands : ℕ → K → V → Prop) (c : EpochCache K V) : Prop :=
  ∀ (key : K) value, c.facts[key]? = some value → stands c.epoch key value

variable {c : EpochCache K V} {stands stands' : ℕ → K → V → Prop} {current capacity epoch : ℕ}
  {key : K} {admits : K → V → Prop} [∀ key value, Decidable (admits key value)]
  {read : CachedRead K V}

theorem Valid.mono (h : c.Valid stands)
    (himp : ∀ epoch key value, stands epoch key value → stands' epoch key value) :
    c.Valid stands' :=
  fun key value hvalue => himp _ _ _ (h key value hvalue)

theorem epoch_refresh (c : EpochCache K V) (current : ℕ) : (c.refresh current).epoch = current := by
  unfold refresh
  split
  · assumption
  · rfl

theorem Valid.refresh (h : c.Valid stands) (current : ℕ) : (c.refresh current).Valid stands := by
  unfold EpochCache.refresh
  split
  · exact h
  · intro key value hvalue
    simp at hvalue

theorem of_start (c : EpochCache K V) (current : ℕ) (key : K) :
    (c.start current key).2.Of key current := by
  unfold start
  dsimp only
  split
  · exact ⟨rfl, rfl⟩
  · exact ⟨rfl, rfl⟩

theorem Valid.start (h : c.Valid stands) (current : ℕ) (key : K) :
    (c.start current key).1.Valid stands ∧ (c.start current key).2.Valid stands := by
  refine ⟨h.refresh current, ?_⟩
  unfold EpochCache.start
  dsimp only
  split
  · rename_i value hvalue
    have hstands := h.refresh current key value hvalue
    rwa [epoch_refresh] at hstands
  · trivial

theorem of_install :
    (c.install capacity admits current read).2.Of key epoch ↔ read.Of key epoch := by
  cases read with
  | idle => exact Iff.rfl
  | missed k e => exact Iff.rfl
  | fetched k e v => exact Iff.rfl
  | done k e v => exact Iff.rfl

/-- An installed value was read in the epoch of the cache. -/
theorem Valid.install (h : c.Valid stands) (hread : read.Valid stands) :
    (c.install capacity admits current read).1.Valid stands ∧
      (c.install capacity admits current read).2.Valid stands := by
  cases read with
  | idle => exact ⟨h, hread⟩
  | missed k e => exact ⟨h, hread⟩
  | done k e v => exact ⟨h, hread⟩
  | fetched k e v =>
    refine ⟨?_, hread⟩
    unfold EpochCache.install
    dsimp only
    split
    · rename_i hkeep
      intro key value hvalue
      dsimp only at hvalue
      rw [StdMap.getElem?_insert] at hvalue
      split at hvalue
      · rename_i hkey
        cases hvalue
        rw [hkey, hkeep.2.2]
        exact hread
      · split at hvalue
        · simp at hvalue
        · exact h key value hvalue
    · exact h

end EpochCache
