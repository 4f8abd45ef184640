import ForkFs.Lib.Bytes
import ForkFs.Lib.Outcome
import ForkFs.Lib.Scan
import ForkFs.Lib.StdMap
import ForkFs.Lib.Sha256
import Mathlib.Data.Set.Function

/-!
# Object identities and checked failures

Objects are named by SHA-256 digests, which the daemon takes from the platform's library.
The digest is therefore a parameter. Nothing is assumed of it globally: a result that
depends on distinct identities assumes `CollisionFree` for the payloads it is about.
-/

namespace ForkFs

open Bytes

/-- A 32-byte digest or object identity. -/
abbrev Hash := { b : Bytes // b.length = 32 }

namespace Hash

instance transCmp : Std.TransCmp (@compare Hash LinearOrder.toOrd) := StdMap.instTransCmp

/-- The all-zero identity, which stands for the absence of a reference. -/
def zero : Hash := ⟨List.replicate 32 0, by simp⟩

/-- The first 32 bytes of a string, as copied into a zero-initialised array. -/
def ofBytes (b : Bytes) : Hash := ⟨(b ++ List.replicate 32 0).take 32, by simp⟩

theorem ofBytes_val (h : Hash) : ofBytes h.val = h := by
  obtain ⟨b, hb⟩ := h
  simp [ofBytes, ← hb]

theorem val_ofBytes {b : Bytes} (h : b.length = 32) : (ofBytes b).val = b := by
  simp [ofBytes, ← h]

end Hash

/-- The digest of the platform's cryptographic library. -/
class Digest where
  /-- SHA-256 of a byte string. -/
  digest : Bytes → Hash

export Digest (digest)

/-- SHA-256 as the digest. -/
@[reducible] def sha256 : Digest := ⟨fun b => ⟨Sha256.sha256 b, Sha256.length_sha256 b⟩⟩

section Hashing

variable [Digest]

/-- A digest separated by a tag. -/
def tagged (tag : String) (b : Bytes) : Hash := digest (ascii tag ++ b)

/-- The identity of an object: the domain, DATA type 4, schema 0, length and payload. -/
def objectHash (value : Bytes) : Hash :=
  digest (ascii "forkfs.object.v0" ++ (store 4 2 ++ (store 0 2 ++ (store value.length 8 ++ value))))

/-- On the payloads involved, identities are distinct and none is the zero identity. -/
structure CollisionFree (payloads : Set Bytes) : Prop where
  /-- Equal identities name equal payloads. -/
  injOn : Set.InjOn objectHash payloads
  /-- The zero identity names no payload. -/
  ne_zero : ∀ b ∈ payloads, objectHash b ≠ Hash.zero

theorem CollisionFree.mono {s t : Set Bytes} (h : CollisionFree t) (hst : s ⊆ t) :
    CollisionFree s :=
  ⟨h.injOn.mono hst, fun b hb => h.ne_zero b (hst hb)⟩

/-- The listed payloads have distinct nonzero identities. -/
def NoCollisions (l : List Bytes) : Prop :=
  (∀ a ∈ l, ∀ b ∈ l, objectHash a = objectHash b → a = b) ∧ ∀ a ∈ l, objectHash a ≠ Hash.zero

instance (l : List Bytes) : Decidable (NoCollisions l) := inferInstanceAs (Decidable (_ ∧ _))

theorem NoCollisions.collisionFree {l : List Bytes} (h : NoCollisions l) :
    CollisionFree { b | b ∈ l } :=
  ⟨fun a ha b hb => h.1 a ha b hb, h.2⟩

end Hashing

/-- A change of one root in a transaction. -/
structure Mutation where
  /-- The root. -/
  key : Bytes
  /-- A value to store and name. Without a value or reference the root is deleted. -/
  value : Option Bytes
  /-- An object that is already stored. -/
  reference : Option Hash := none

/-- Throw unless a condition holds. -/
def need (ok : Prop) [Decidable ok] (message : String) : Except String Unit :=
  if ok then .ok () else .error message

@[simp] theorem need_eq_ok {ok : Prop} [Decidable ok] {message : String} {u : Unit} :
    need ok message = .ok u ↔ ok := by
  unfold need
  split <;> simp [*]

theorem need_of {ok : Prop} [Decidable ok] {message : String} (h : ok) :
    need ok message = .ok () :=
  if_pos h

theorem need_of_not {ok : Prop} [Decidable ok] {message : String} (h : ¬ ok) :
    need ok message = .error message :=
  if_neg h

/-- What follows a check runs exactly if the check passes. -/
theorem need_bind_eq_ok {α : Type} {ok : Prop} [Decidable ok] {message : String}
    {f : Unit → Except String α} {a : α} :
    (need ok message >>= f) = .ok a ↔ ok ∧ f () = .ok a := by
  rw [Outcome.bind_eq_ok]
  constructor
  · rintro ⟨_, hok, h⟩
    exact ⟨need_eq_ok.mp hok, h⟩
  · exact fun ⟨hok, h⟩ => ⟨(), need_of hok, h⟩

theorem lift_need (ok : Prop) [Decidable ok] (message : String) :
    Scan.lift (need ok message) = Scan.demand ok message := by
  unfold need Scan.demand
  split <;> rfl

/-- Run a computation that leaves the state alone. -/
def attempt {σ α : Type} (x : Except String α) : EStateM String σ α := fun s =>
  match x with
  | .ok a => .ok a s
  | .error e => .error e s

theorem attempt_eq_ok {σ α : Type} {x : Except String α} {s s' : σ} {a : α} :
    attempt x s = .ok a s' ↔ x = .ok a ∧ s = s' := by
  unfold attempt
  cases x <;> simp

theorem attempt_bind_of_ok {σ α β : Type} {x : Except String α} {f : α → EStateM String σ β} {s : σ}
    {a : α} (h : x = .ok a) : (attempt x >>= f) s = f a s :=
  Outcome.bind_of_ok (attempt_eq_ok.mpr ⟨h, rfl⟩)

theorem attempt_bind_of_error {σ α β : Type} {x : Except String α} {f : α → EStateM String σ β}
    {s : σ} {message : String} (h : x = .error message) :
    (attempt x >>= f) s = .error message s := by
  rw [h]
  rfl

theorem readOnly_attempt {σ α : Type} (x : Except String α) :
    Outcome.ReadOnly (attempt x : EStateM String σ α) := by
  intro s
  unfold Outcome.Attains attempt
  cases x <;> rfl

end ForkFs
