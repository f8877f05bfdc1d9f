import DiskNexus.Index.Entry
import DiskNexus.Hasher

/-!
# Index deltas

A run describes the chunks it added to the index in a delta object: a header with a count and a
checksum, and one entry per chunk. A reader checks all of it before it takes anything over.
-/

namespace DiskNexus.Index

open Binary Sha256

/-- The size of the header of a delta object. -/
def deltaHeaderSize : ℕ := 64

/-- The size of an entry of a delta object. -/
def deltaEntrySize : ℕ := 56

/-- The version of the format. -/
def deltaVersion : ℕ := 1

/-- The bytes of `"DNIDLT"`. -/
def deltaMagic : Bytes := [0x44, 0x4E, 0x49, 0x44, 0x4C, 0x54]

/-- One chunk of a delta. -/
structure DeltaEntry where
  strongHash : Hash
  weakHash : UInt64
  packNumber : UInt32
  storeOffset : UInt64
  chunkLength : UInt32
  deriving DecidableEq

/-- The index entry of an entry of a delta. -/
def DeltaEntry.indexEntry (e : DeltaEntry) : IndexEntry :=
  ⟨e.strongHash, e.packNumber, e.storeOffset, e.chunkLength⟩

/-- `EncodeDeltaEntry`. -/
def encodeDeltaEntry (e : DeltaEntry) : Bytes :=
  e.strongHash.val ++ (le 8 e.weakHash.toNat ++ (le 4 e.packNumber.toNat ++
    (le 8 e.storeOffset.toNat ++ le 4 e.chunkLength.toNat)))

/-- `decodeDeltaEntry`. -/
def decodeDeltaEntry (src : Bytes) : DeltaEntry where
  strongHash := hashOf src
  weakHash := UInt64.ofNat (ofLE ((src.drop 32).take 8))
  packNumber := UInt32.ofNat (ofLE ((src.drop 40).take 4))
  storeOffset := UInt64.ofNat (ofLE ((src.drop 44).take 8))
  chunkLength := UInt32.ofNat (ofLE ((src.drop 52).take 4))

/-- `DeltaHeader`. -/
def deltaHeader (entryCount : ℕ) (sum : Hash) : Bytes :=
  deltaMagic ++ (le 2 deltaVersion ++ (le 8 entryCount ++
    (sum.val ++ List.replicate (deltaHeaderSize - 48) 0)))

/-- `Delta.Marshal`. -/
def marshalDelta (es : List DeltaEntry) : Bytes :=
  deltaHeader es.length (sum256 (es.flatMap encodeDeltaEntry)) ++ es.flatMap encodeDeltaEntry

/-- The first `n` entries of a delta's payload. -/
def decodeDeltaEntries : ℕ → Bytes → List DeltaEntry
  | 0, _ => []
  | n + 1, payload => decodeDeltaEntry payload :: decodeDeltaEntries n (payload.drop deltaEntrySize)

/-- How a call ends. -/
inductive Ending (α : Type) where
  | returns (a : α)
  | panics (msg : String)

/-- The checks of `ParseDelta` and of `ForEachDeltaEntry`. The product is taken modulo `2 ^ 64`. -/
def checkDelta (data : Bytes) : Except String Unit :=
  let version := ofLE ((data.drop 6).take 2)
  let count := ofLE ((data.drop 8).take 8)
  let payload := data.drop deltaHeaderSize
  let size := count * deltaEntrySize % 2 ^ 64
  let carried := payload.length
  if data.length < deltaHeaderSize ∨ data.take 6 ≠ deltaMagic then
    .error "not an index delta (bad magic)"
  else if version ≠ deltaVersion then
    .error (s!"index delta version {version} is not version {deltaVersion} — this build cannot " ++
      "merge it, and merging it wrong would put false chunk locations in front of restore")
  else if carried ≠ size then
    .error (s!"index delta declares {count} entries ({size} bytes) but carries {carried} bytes " ++
      "— truncated")
  else if (sum256 payload).val ≠ (data.drop 16).take 32 then
    .error "index delta payload checksum mismatch: the object is damaged"
  else .ok ()

/-- `ParseDelta`. Behind the checks a count that its payload does not hold is one whose product has
wrapped, and no slice of so many entries can be made. -/
def parseDeltaRun (data : Bytes) : Ending (Except String (List DeltaEntry)) :=
  match checkDelta data with
  | .error e => .returns (.error e)
  | .ok () =>
    let count := ofLE ((data.drop 8).take 8)
    let payload := data.drop deltaHeaderSize
    if payload.length < count * deltaEntrySize then
      .panics "runtime error: makeslice: len out of range"
    else .returns (.ok (decodeDeltaEntries count payload))

/-- `ParseDelta` as its callers see it; a panic ends them like an error. -/
def parseDelta (data : Bytes) : Except String (List DeltaEntry) :=
  match parseDeltaRun data with
  | .returns r => r
  | .panics msg => .error msg

/-- `ForEachDeltaEntry`: the entries that it yields, and how it ends. An entry that the payload does
not hold is out of its range; one may still lie in the capacity of the slice. -/
def forEachDeltaEntry (data : Bytes) : List DeltaEntry × Ending (Except String Unit) :=
  match checkDelta data with
  | .error e => ([], .returns (.error e))
  | .ok () =>
    let count := ofLE ((data.drop 8).take 8)
    let payload := data.drop deltaHeaderSize
    let there := payload.length / deltaEntrySize
    if there < count then
      (decodeDeltaEntries there payload, .panics "runtime error: slice bounds out of range")
    else (decodeDeltaEntries count payload, .returns (.ok ()))

/-! ## The round trip -/

lemma length_encodeDeltaEntry (e : DeltaEntry) :
    (encodeDeltaEntry e).length = deltaEntrySize := by
  simp [encodeDeltaEntry, e.strongHash.2, deltaEntrySize]

/-- An entry reads back from its bytes, whatever follows them. -/
lemma decodeDeltaEntry_append (e : DeltaEntry) (rest : Bytes) :
    decodeDeltaEntry (encodeDeltaEntry e ++ rest) = e := by
  obtain ⟨⟨hash, hlen⟩, weak, pack, offset, len⟩ := e
  simp [decodeDeltaEntry, encodeDeltaEntry, hashOf, ← fieldAt.eq_1, fieldAt_skip, hlen]

lemma decodeDeltaEntries_flatMap (es : List DeltaEntry) :
    decodeDeltaEntries es.length (es.flatMap encodeDeltaEntry) = es := by
  induction es with
  | nil => rfl
  | cons e es ih =>
    rw [List.flatMap_cons, List.length_cons, decodeDeltaEntries, decodeDeltaEntry_append,
      List.drop_left' (length_encodeDeltaEntry e), ih]

lemma length_flatMap_encodeDeltaEntry (es : List DeltaEntry) :
    (es.flatMap encodeDeltaEntry).length = es.length * deltaEntrySize := by
  simp [List.length_flatMap, length_encodeDeltaEntry]

lemma length_deltaHeader (n : ℕ) (sum : Hash) : (deltaHeader n sum).length = deltaHeaderSize := by
  simp [deltaHeader, sum.2, deltaMagic, deltaHeaderSize]

/-- What the checks of a delta check. -/
lemma checkDelta_eq_ok {data : Bytes} :
    checkDelta data = .ok () ↔ deltaHeaderSize ≤ data.length ∧ data.take 6 = deltaMagic ∧
      fieldAt data 6 2 = deltaVersion ∧
      (data.drop deltaHeaderSize).length = fieldAt data 8 8 * deltaEntrySize % 2 ^ 64 ∧
      (sum256 (data.drop deltaHeaderSize)).val = (data.drop 16).take 32 := by
  unfold checkDelta
  simp only [ite_error_eq_ok, not_or, not_lt, not_not, and_true, and_assoc]
  rfl

/-- **A delta object reads back as its entries.** -/
theorem parseDelta_marshalDelta {es : List DeltaEntry} (hes : es.length * deltaEntrySize < 2 ^ 64) :
    parseDelta (marshalDelta es) = .ok es := by
  set payload := es.flatMap encodeDeltaEntry with hpayload
  have hlength : payload.length = es.length * deltaEntrySize := length_flatMap_encodeDeltaEntry es
  have hdrop : (marshalDelta es).drop deltaHeaderSize = payload := by
    rw [marshalDelta, List.drop_left' (length_deltaHeader _ _)]
  have hlen : deltaHeaderSize ≤ (marshalDelta es).length := by
    rw [marshalDelta, List.length_append, length_deltaHeader]
    exact Nat.le_add_right _ _
  have hversion : fieldAt (marshalDelta es) 6 2 = deltaVersion := by
    simp [marshalDelta, deltaHeader, deltaMagic, fieldAt_le, deltaVersion]
  have hcount : fieldAt (marshalDelta es) 8 8 = es.length := by
    have hfits : es.length < 256 ^ 8 := by
      unfold deltaEntrySize at hes
      omega
    simp [marshalDelta, deltaHeader, deltaMagic, fieldAt_skip, fieldAt_le hfits]
  have hsum : ((marshalDelta es).drop 16).take 32 = (sum256 payload).val := by
    simp [marshalDelta, deltaHeader, deltaMagic, List.drop_append, List.drop_of_length_le,
      (sum256 payload).2, ← hpayload]
  have hcheck : checkDelta (marshalDelta es) = .ok () :=
    checkDelta_eq_ok.2 ⟨hlen, rfl, hversion, by rw [hcount, Nat.mod_eq_of_lt hes, hdrop, hlength],
      by rw [hdrop, hsum]⟩
  simp only [parseDelta, parseDeltaRun, hcheck, ← fieldAt.eq_1, hcount, hdrop, hlength, lt_irrefl,
    if_false]
  rw [hpayload, decodeDeltaEntries_flatMap]

end DiskNexus.Index
