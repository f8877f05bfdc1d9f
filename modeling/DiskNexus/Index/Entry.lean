import DiskNexus.Lib.Sha256

/-!
# Index entries

An index entry maps a chunk's strong hash to its place in the pack files. The index file is the
concatenation of its entries, 48 bytes each.
-/

namespace DiskNexus.Index

open Binary Sha256

/-- The on-disk size of an index entry. -/
def entrySize : ℕ := 48

/-- A chunk's strong hash and its place in the pack files. -/
structure IndexEntry where
  strongHash : Hash
  packNumber : UInt32
  storeOffset : UInt64
  chunkLength : UInt32
  deriving DecidableEq

/-- `encodeEntry`. -/
def encodeEntry (e : IndexEntry) : Bytes :=
  e.strongHash.val ++ le 4 e.packNumber.toNat ++ le 8 e.storeOffset.toNat ++
    le 4 e.chunkLength.toNat

/-- The first 32 bytes of a buffer as a hash, or zero. -/
def hashOf (buf : Bytes) : Hash :=
  if h : (buf.take 32).length = 32 then ⟨buf.take 32, h⟩ else .zero

/-- `decodeEntry`. -/
def decodeEntry (buf : Bytes) : IndexEntry where
  strongHash := hashOf buf
  packNumber := UInt32.ofNat (ofLE ((buf.drop 32).take 4))
  storeOffset := UInt64.ofNat (ofLE ((buf.drop 36).take 8))
  chunkLength := UInt32.ofNat (ofLE ((buf.drop 44).take 4))

lemma length_encodeEntry (e : IndexEntry) : (encodeEntry e).length = entrySize := by
  simp [encodeEntry, e.strongHash.2, entrySize]

/-- An entry reads back from its bytes. -/
lemma decodeEntry_encodeEntry (e : IndexEntry) : decodeEntry (encodeEntry e) = e := by
  obtain ⟨⟨hash, hlen⟩, pack, offset, len⟩ := e
  have hlast : fieldAt (le 4 len.toNat) 0 4 = len.toNat := by simpa using fieldAt_uint32 len []
  simp [decodeEntry, encodeEntry, hashOf, ← fieldAt.eq_1, fieldAt_skip, hlast, hlen]

/-! ## Index files -/

/-- The bytes of an index file. -/
def encodeEntries (es : List IndexEntry) : Bytes := es.flatMap encodeEntry

/-- The first `n` entries of an index file. -/
def decodeN : ℕ → Bytes → List IndexEntry
  | 0, _ => []
  | n + 1, buf => decodeEntry (buf.take entrySize) :: decodeN n (buf.drop entrySize)

/-- The entries of an index file, without a partial one at its end. -/
def decodeEntries (buf : Bytes) : List IndexEntry := decodeN (buf.length / entrySize) buf

lemma length_encodeEntries (es : List IndexEntry) :
    (encodeEntries es).length = entrySize * es.length := by
  induction es with
  | nil => rfl
  | cons e es ih =>
    simp only [encodeEntries, List.flatMap_cons, List.length_append, List.length_cons] at ih ⊢
    rw [ih, length_encodeEntry, Nat.mul_succ, Nat.add_comm]

/-- An index file reads back as its entries. -/
theorem decodeEntries_encodeEntries (es : List IndexEntry) :
    decodeEntries (encodeEntries es) = es := by
  have hn : (encodeEntries es).length / entrySize = es.length := by
    rw [length_encodeEntries, Nat.mul_div_cancel_left _ (by decide)]
  rw [decodeEntries, hn]
  clear hn
  induction es with
  | nil => rfl
  | cons e es ih =>
    simp only [encodeEntries, List.flatMap_cons, List.length_cons, decodeN] at ih ⊢
    rw [List.take_left' (length_encodeEntry e), List.drop_left' (length_encodeEntry e),
      decodeEntry_encodeEntry, ih]

/-- `hashPrefix8`: the first eight bytes, most significant first. -/
def hashPrefix8 (h : Hash) : ℕ := ofLE (h.val.take 8).reverse

end DiskNexus.Index
