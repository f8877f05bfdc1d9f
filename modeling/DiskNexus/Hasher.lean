import DiskNexus.Lib.Sha256
import DiskNexus.Lib.Zstd

/-!
# Chunk identities

`hasher.Sum` hashes a chunk twice: a weak hash for the bloom filter and a strong one, which is
the chunk's identity.
-/

namespace DiskNexus

open Binary Sha256

/-- `hasher.ChunkID`. -/
structure ChunkID where
  weakHash : UInt64
  strongHash : Hash
  deriving DecidableEq

/-- The two hash functions. -/
structure Hasher where
  weak : Bytes → UInt64
  strong : Bytes → Hash

/-- `hasher.Sum`. -/
def Hasher.sum (H : Hasher) (data : Bytes) : ChunkID := ⟨H.weak data, H.strong data⟩

/-- xxHash and SHA-256. -/
def Hasher.std : Hasher := ⟨Zstd.xxh64, sum256⟩

/-- `IdentityHashInput`: the bytes whose hash is the identity of a chunk. -/
def identityHashInput (normalizer : Option (Bytes → Bytes)) (data : Bytes) : Bytes :=
  match normalizer with
  | none => data
  | some normalize => normalize data

end DiskNexus
