import DiskNexus.Lib.Binary

/-!
# SHA-256

The digest function of FIPS 180-4, over byte strings, and the type of its digests.
-/

namespace Sha256

open Binary

/-- A 32-byte digest. -/
abbrev Hash := { bytes : Bytes // bytes.length = 32 }

instance : LawfulBEq Hash := inferInstance

/-- A digest of 32 equal bytes. -/
def Hash.fill (b : UInt8) : Hash := ⟨List.replicate 32 b, List.length_replicate⟩

/-- The all-zero digest. -/
def Hash.zero : Hash := ⟨List.replicate 32 0, List.length_replicate⟩

/-- The round constants. -/
def roundConstants : List UInt32 :=
  [0x428a2f98, 0x71374491, 0xb5c0fbcf, 0xe9b5dba5, 0x3956c25b, 0x59f111f1, 0x923f82a4, 0xab1c5ed5,
    0xd807aa98, 0x12835b01, 0x243185be, 0x550c7dc3, 0x72be5d74, 0x80deb1fe, 0x9bdc06a7, 0xc19bf174,
    0xe49b69c1, 0xefbe4786, 0x0fc19dc6, 0x240ca1cc, 0x2de92c6f, 0x4a7484aa, 0x5cb0a9dc, 0x76f988da,
    0x983e5152, 0xa831c66d, 0xb00327c8, 0xbf597fc7, 0xc6e00bf3, 0xd5a79147, 0x06ca6351, 0x14292967,
    0x27b70a85, 0x2e1b2138, 0x4d2c6dfc, 0x53380d13, 0x650a7354, 0x766a0abb, 0x81c2c92e, 0x92722c85,
    0xa2bfe8a1, 0xa81a664b, 0xc24b8b70, 0xc76c51a3, 0xd192e819, 0xd6990624, 0xf40e3585, 0x106aa070,
    0x19a4c116, 0x1e376c08, 0x2748774c, 0x34b0bcb5, 0x391c0cb3, 0x4ed8aa4a, 0x5b9cca4f, 0x682e6ff3,
    0x748f82ee, 0x78a5636f, 0x84c87814, 0x8cc70208, 0x90befffa, 0xa4506ceb, 0xbef9a3f7, 0xc67178f2]

/-- The eight working variables. -/
structure State where
  a : UInt32
  b : UInt32
  c : UInt32
  d : UInt32
  e : UInt32
  f : UInt32
  g : UInt32
  h : UInt32

/-- The initial hash value. -/
def State.init : State :=
  ⟨0x6a09e667, 0xbb67ae85, 0x3c6ef372, 0xa54ff53a, 0x510e527f, 0x9b05688c, 0x1f83d9ab, 0x5be0cd19⟩

/-- Componentwise addition, at the end of a block. -/
def State.add (s t : State) : State :=
  ⟨s.a + t.a, s.b + t.b, s.c + t.c, s.d + t.d, s.e + t.e, s.f + t.f, s.g + t.g, s.h + t.h⟩

/-- Rotate right. -/
def rotr (x n : UInt32) : UInt32 := (x >>> n) ||| (x <<< (32 - n))

/-- One round, on the word `w` with its constant `k`. -/
def State.round (s : State) (k w : UInt32) : State :=
  let s₁ := rotr s.e 6 ^^^ rotr s.e 11 ^^^ rotr s.e 25
  let ch := (s.e &&& s.f) ^^^ (~~~s.e &&& s.g)
  let t₁ := s.h + s₁ + ch + k + w
  let s₀ := rotr s.a 2 ^^^ rotr s.a 13 ^^^ rotr s.a 22
  let maj := (s.a &&& s.b) ^^^ (s.a &&& s.c) ^^^ (s.b &&& s.c)
  ⟨t₁ + (s₀ + maj), s.a, s.b, s.c, s.d + t₁, s.e, s.f, s.g⟩

/-- The message schedule as a window: drop the oldest word, append the next. -/
def nextWindow (w : List UInt32) : List UInt32 :=
  let x := w.getD 1 0
  let y := w.getD 14 0
  let s₀ := rotr x 7 ^^^ rotr x 18 ^^^ (x >>> 3)
  let s₁ := rotr y 17 ^^^ rotr y 19 ^^^ (y >>> 10)
  w.tail ++ [w.getD 0 0 + s₀ + w.getD 9 0 + s₁]

/-- The rounds of one block. -/
def rounds : List UInt32 → State → List UInt32 → State
  | [], s, _ => s
  | k :: ks, s, w => rounds ks (s.round k (w.getD 0 0)) (nextWindow w)

/-- Big-endian words of a byte string. -/
def words : Bytes → List UInt32
  | b₀ :: b₁ :: b₂ :: b₃ :: rest =>
    UInt32.ofNat (((b₀.toNat * 256 + b₁.toNat) * 256 + b₂.toNat) * 256 + b₃.toNat) :: words rest
  | _ => []

/-- The big-endian bytes of a word. -/
def wordBytes (w : UInt32) : Bytes := (le 4 w.toNat).reverse

/-- Process the blocks of a padded message, at most `n` of them. -/
def blocks : ℕ → State → List UInt32 → State
  | 0, s, _ => s
  | n + 1, s, ws => blocks n (s.add (rounds roundConstants s (ws.take 16))) (ws.drop 16)

/-- The message, a one bit, zeros up to a multiple of 64 bytes, and the length in bits. -/
def pad (msg : Bytes) : Bytes :=
  msg ++ [0x80] ++ List.replicate ((119 - msg.length % 64) % 64) 0 ++
    (le 8 (8 * msg.length)).reverse

/-- The bytes of a state. -/
def State.bytes (s : State) : Bytes :=
  wordBytes s.a ++ wordBytes s.b ++ wordBytes s.c ++ wordBytes s.d ++ wordBytes s.e ++
    wordBytes s.f ++ wordBytes s.g ++ wordBytes s.h

lemma State.length_bytes (s : State) : s.bytes.length = 32 := by
  simp [State.bytes, wordBytes]

/-- The SHA-256 digest of a byte string. -/
def sum256 (msg : Bytes) : Hash :=
  let padded := pad msg
  let s := blocks (padded.length / 64) .init (words padded)
  ⟨s.bytes, s.length_bytes⟩

example : (sum256 [0x61, 0x62, 0x63]).val.take 8 =
    [0xba, 0x78, 0x16, 0xbf, 0x8f, 0x01, 0xcf, 0xea] := by
  decide +kernel

end Sha256
