import DiskNexus.Lib.Binary

/-!
# Uncompressed zstd frames

The zstd format stores a byte string that does not compress as a frame with one raw block and a
checksum, the low half of XXH64. Writing and reading such frames is a codec in its own right,
and for short strings it is what a zstd encoder produces.
-/

namespace Zstd

open Binary

/-! ## XXH64 -/

/-- The five primes of XXH64. -/
def prime₁ : UInt64 := 0x9E3779B185EBCA87

@[inherit_doc prime₁] def prime₂ : UInt64 := 0xC2B2AE3D27D4EB4F

@[inherit_doc prime₁] def prime₃ : UInt64 := 0x165667B19E3779F9

@[inherit_doc prime₁] def prime₄ : UInt64 := 0x85EBCA77C2B2AE63

@[inherit_doc prime₁] def prime₅ : UInt64 := 0x27D4EB2F165667C5

/-- Rotate left. -/
def rotl (x n : UInt64) : UInt64 := (x <<< n) ||| (x >>> (64 - n))

/-- Mix one lane into an accumulator. -/
def round (acc lane : UInt64) : UInt64 := rotl (acc + lane * prime₂) 31 * prime₁

/-- The little-endian lane at the head of a byte string. -/
def lane (w : ℕ) (bs : Bytes) : UInt64 := UInt64.ofNat (ofLE (bs.take w))

/-- The stripes of 32 bytes, in four accumulators; the first argument is their number. -/
def stripes : ℕ → UInt64 → UInt64 → UInt64 → UInt64 → Bytes → UInt64
  | 0, a, b, c, d, _ =>
    let merge acc v := (acc ^^^ round 0 v) * prime₁ + prime₄
    merge (merge (merge (merge (rotl a 1 + rotl b 7 + rotl c 12 + rotl d 18) a) b) c) d
  | n + 1, a, b, c, d, bs =>
    stripes n (round a (lane 8 bs)) (round b (lane 8 (bs.drop 8))) (round c (lane 8 (bs.drop 16)))
      (round d (lane 8 (bs.drop 24))) (bs.drop 32)

/-- The eight-byte lanes of the tail; the first argument is their number. -/
def tail8 : ℕ → UInt64 → Bytes → UInt64
  | 0, h, _ => h
  | n + 1, h, bs => tail8 n (rotl (h ^^^ round 0 (lane 8 bs)) 27 * prime₁ + prime₄) (bs.drop 8)

/-- The last four-byte lane, if there is one, and the bytes after it. -/
def tail4 (h : UInt64) (bs : Bytes) : UInt64 :=
  let h' := if 4 ≤ bs.length then rotl (h ^^^ lane 4 bs * prime₁) 23 * prime₂ + prime₃ else h
  let rest := if 4 ≤ bs.length then bs.drop 4 else bs
  rest.foldl (fun h b => rotl (h ^^^ UInt64.ofNat b.toNat * prime₅) 11 * prime₁) h'

/-- The final mixing. -/
def avalanche (h : UInt64) : UInt64 :=
  let h := (h ^^^ (h >>> 33)) * prime₂
  let h := (h ^^^ (h >>> 29)) * prime₃
  h ^^^ (h >>> 32)

/-- XXH64 with seed zero. -/
def xxh64 (bs : Bytes) : UInt64 :=
  let n := bs.length / 32
  let start := if n = 0 then prime₅ else stripes n (prime₁ + prime₂) prime₂ 0 (0 - prime₁) bs
  let rest := bs.drop (32 * n)
  let k := rest.length / 8
  avalanche (tail4 (tail8 k (start + UInt64.ofNat bs.length) rest) (rest.drop (8 * k)))

example : xxh64 [] = 0xEF46DB3751D8E999 := by
  decide +kernel

/-! ## Raw-block frames -/

/-- The frame's checksum. -/
def checksum (data : Bytes) : Bytes := le 4 (xxh64 data).toNat

/-- What precedes the block: magic number, descriptor, content size, and the block header. -/
def frameHead (len : ℕ) : Bytes := [0x28, 0xB5, 0x2F, 0xFD, 0x24] ++ le 1 len ++ le 3 (8 * len + 1)

/-- The frame of a byte string as one raw block. -/
def rawFrame (data : Bytes) : Bytes := frameHead data.length ++ data ++ checksum data

/-- Read a frame with one raw block. -/
def readRawFrame (frame : Bytes) : Option Bytes :=
  let data := (frame.drop 9).take (frame.length - 13)
  if rawFrame data = frame then some data else none

lemma length_frameHead (len : ℕ) : (frameHead len).length = 9 := by
  simp [frameHead]

/-- The reader inverts the writer. -/
theorem readRawFrame_rawFrame (data : Bytes) : readRawFrame (rawFrame data) = some data := by
  have hdata : ((rawFrame data).drop 9).take ((rawFrame data).length - 13) = data := by
    have hlen : (rawFrame data).length - 13 = data.length := by
      simp only [rawFrame, List.length_append, length_frameHead, checksum, length_le]
      omega
    rw [hlen, rawFrame, List.append_assoc, List.drop_left' (length_frameHead _), List.take_left]
  simp only [readRawFrame, hdata, if_true]

end Zstd
