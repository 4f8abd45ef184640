import ForkFs.Lib.Bytes

/-!
# SHA-256

The hash function on byte strings, with words as natural numbers below `2 ^ 32`. It is written
so that the kernel can evaluate it on short inputs.
-/

namespace Sha256

open Bytes

/-- Eight words of chaining state. -/
structure State where
  a : ℕ
  b : ℕ
  c : ℕ
  d : ℕ
  e : ℕ
  f : ℕ
  g : ℕ
  h : ℕ

/-- The chaining state before the first block. -/
def State.start : State :=
  ⟨0x6a09e667, 0xbb67ae85, 0x3c6ef372, 0xa54ff53a, 0x510e527f, 0x9b05688c, 0x1f83d9ab, 0x5be0cd19⟩

/-- The round constants. -/
def constants : List ℕ := [
  0x428a2f98, 0x71374491, 0xb5c0fbcf, 0xe9b5dba5, 0x3956c25b, 0x59f111f1,
  0x923f82a4, 0xab1c5ed5, 0xd807aa98, 0x12835b01, 0x243185be, 0x550c7dc3,
  0x72be5d74, 0x80deb1fe, 0x9bdc06a7, 0xc19bf174, 0xe49b69c1, 0xefbe4786,
  0x0fc19dc6, 0x240ca1cc, 0x2de92c6f, 0x4a7484aa, 0x5cb0a9dc, 0x76f988da,
  0x983e5152, 0xa831c66d, 0xb00327c8, 0xbf597fc7, 0xc6e00bf3, 0xd5a79147,
  0x06ca6351, 0x14292967, 0x27b70a85, 0x2e1b2138, 0x4d2c6dfc, 0x53380d13,
  0x650a7354, 0x766a0abb, 0x81c2c92e, 0x92722c85, 0xa2bfe8a1, 0xa81a664b,
  0xc24b8b70, 0xc76c51a3, 0xd192e819, 0xd6990624, 0xf40e3585, 0x106aa070,
  0x19a4c116, 0x1e376c08, 0x2748774c, 0x34b0bcb5, 0x391c0cb3, 0x4ed8aa4a,
  0x5b9cca4f, 0x682e6ff3, 0x748f82ee, 0x78a5636f, 0x84c87814, 0x8cc70208,
  0x90befffa, 0xa4506ceb, 0xbef9a3f7, 0xc67178f2]

/-- Rotate a word to the right. -/
def rotr (x n : ℕ) : ℕ := (x >>> n) ||| ((x <<< (32 - n)) % 2 ^ 32)

/-- The next word of the message schedule, from the earlier words, most recent first. -/
def nextWord (w : List ℕ) : ℕ :=
  let x := w.getD 14 0
  let y := w.getD 1 0
  (w.getD 15 0 + (rotr x 7 ^^^ rotr x 18 ^^^ x >>> 3) + w.getD 6 0 +
    (rotr y 17 ^^^ rotr y 19 ^^^ y >>> 10)) % 2 ^ 32

/-- Extend a message schedule by `n` words. -/
def extend : ℕ → List ℕ → List ℕ
  | 0, w => w
  | n + 1, w => extend n (nextWord w :: w)

/-- One round. -/
def round (s : State) (k w : ℕ) : State :=
  let t₁ := s.h + (rotr s.e 6 ^^^ rotr s.e 11 ^^^ rotr s.e 25) +
    ((s.e &&& s.f) ^^^ ((2 ^ 32 - 1 - s.e) &&& s.g)) + k + w
  let t₂ := (rotr s.a 2 ^^^ rotr s.a 13 ^^^ rotr s.a 22) +
    ((s.a &&& s.b) ^^^ (s.a &&& s.c) ^^^ (s.b &&& s.c))
  ⟨(t₁ + t₂) % 2 ^ 32, s.a, s.b, s.c, (s.d + t₁) % 2 ^ 32, s.e, s.f, s.g⟩

/-- All rounds of a block. -/
def rounds : List ℕ → List ℕ → State → State
  | k :: ks, w :: ws, s => rounds ks ws (round s k w)
  | _, _, s => s

/-- A big-endian number. -/
def word (b : Bytes) : ℕ := b.foldl (fun n c => n * 256 + c.toNat) 0

/-- The four big-endian bytes of a word. -/
def wordBytes (n : ℕ) : Bytes :=
  [UInt8.ofNat (n / 2 ^ 24), UInt8.ofNat (n / 2 ^ 16), UInt8.ofNat (n / 2 ^ 8), UInt8.ofNat n]

/-- Absorb one block of sixteen words. -/
def compress (s : State) (block : Bytes) : State :=
  let w := (List.range 16).map fun i => word (slice block (4 * i) 4)
  let r := rounds constants (extend 48 w.reverse).reverse s
  ⟨(s.a + r.a) % 2 ^ 32, (s.b + r.b) % 2 ^ 32, (s.c + r.c) % 2 ^ 32, (s.d + r.d) % 2 ^ 32,
    (s.e + r.e) % 2 ^ 32, (s.f + r.f) % 2 ^ 32, (s.g + r.g) % 2 ^ 32, (s.h + r.h) % 2 ^ 32⟩

/-- Absorb `n` blocks. -/
def absorb : ℕ → Bytes → State → State
  | 0, _, s => s
  | n + 1, b, s => absorb n (b.drop 64) (compress s (b.take 64))

/-- The message with its padding. -/
def pad (b : Bytes) : Bytes :=
  b ++ 0x80 :: List.replicate ((119 - b.length % 64) % 64) 0 ++
    (store (b.length * 8) 8).reverse

/-- The bytes of a chaining state. -/
def State.bytes (s : State) : Bytes :=
  wordBytes s.a ++ wordBytes s.b ++ wordBytes s.c ++ wordBytes s.d ++ wordBytes s.e ++
    wordBytes s.f ++ wordBytes s.g ++ wordBytes s.h

/-- The hash of a byte string. -/
def sha256 (b : Bytes) : Bytes := (absorb ((b.length + 72) / 64) (pad b) State.start).bytes

theorem length_sha256 (b : Bytes) : (sha256 b).length = 32 := rfl

example : (sha256 (ascii "abc")).map UInt8.toNat = [
    0xba, 0x78, 0x16, 0xbf, 0x8f, 0x01, 0xcf, 0xea, 0x41, 0x41, 0x40, 0xde, 0x5d, 0xae, 0x22, 0x23,
    0xb0, 0x03, 0x61, 0xa3, 0x96, 0x17, 0x7a, 0x9c, 0xb4, 0x10, 0xff, 0x61, 0xf2, 0x00, 0x15,
    0xad] := by
  decide +kernel

end Sha256
