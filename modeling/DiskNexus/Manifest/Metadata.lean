import DiskNexus.Manifest.Fields

/-!
# The metadata section

The scalar fields of a backup, one after the other. The content digest and the lists of excluded
paths were added later, at the end. The decoder recognises an older section by the error of the read
that finds nothing left.

## Main results

`decodeMetadata_encode`, `decodeMetadata_truncated_iff`
-/

namespace DiskNexus.Manifest

open Binary Reading

/-- The scalar fields of `manifest.Backup`. -/
structure Metadata where
  backupID : Bytes
  sourceVolume : Bytes
  backupType : Bytes
  backupMode : Bytes
  parentBackupID : Bytes
  timestamp : Option ℤ
  sectorSize : ℤ
  clusterSize : ℤ
  totalBytes : ℤ
  totalChunks : ℤ
  uniqueChunks : ℤ
  dedupChunks : ℤ
  rawBytes : ℤ
  storedBytes : ℤ
  dedupRatio : UInt64
  compRatio : UInt64
  duration : Bytes
  changedChunks : ℤ
  unchangedChunks : ℤ
  sourcePaths : List Bytes
  wrappedDEK : Bytes
  contentDigest : Bytes
  contentDigestCovers : Bytes
  excludePaths : List Bytes
  excludeWarnings : List Bytes
  deriving DecidableEq

/-- A list of strings behind its count. -/
def writeStrings (ss : List Bytes) : Bytes := writeCount16 ss.length ++ ss.flatMap writeStr16

/-- The fields up to the wrapped key, which every manifest has. -/
def encodeHead (b : Metadata) : Bytes :=
  List.flatten [writeStr8 b.backupID, writeStr16 b.sourceVolume, writeStr8 b.backupType,
    writeStr8 b.backupMode, writeStr8 b.parentBackupID, writeTimeNano b.timestamp,
    writeUint32 b.sectorSize, writeUint32 b.clusterSize, writeInt64 b.totalBytes,
    writeInt64 b.totalChunks, writeInt64 b.uniqueChunks, writeInt64 b.dedupChunks,
    writeInt64 b.rawBytes, writeInt64 b.storedBytes, writeFloat64 b.dedupRatio,
    writeFloat64 b.compRatio, writeStr8 b.duration, writeInt64 b.changedChunks,
    writeInt64 b.unchangedChunks, writeStrings b.sourcePaths,
    writeCount16 b.wrappedDEK.length ++ b.wrappedDEK]

/-- `encodeMetadata`. -/
def encodeMetadata (b : Metadata) : Bytes :=
  encodeHead b ++ (writeStr8 b.contentDigest ++ (writeStr8 b.contentDigestCovers ++
    (writeStrings b.excludePaths ++ writeStrings b.excludeWarnings)))

/-- The strings of a list, each named with its place. -/
def readStrings (name : String) (n : ℕ) : Reader String (List Bytes) :=
  readEach (fun i => field s!"{name}[{i}]" readStr16) 0 n

/-- `decodeMetadata`, up to the wrapped key. -/
def readHead : Reader String Metadata := do
  let backupID ← field "BackupID" readStr8
  let sourceVolume ← field "SourceVolume" readStr16
  let backupType ← field "BackupType" readStr8
  let backupMode ← field "BackupMode" readStr8
  let parentBackupID ← field "ParentBackupID" readStr8
  let timestamp ← field "Timestamp" readTimeNano
  let sectorSize ← field "SectorSize" readUint32
  let clusterSize ← field "ClusterSize" readUint32
  let totalBytes ← field "TotalBytes" readInt64
  let totalChunks ← field "TotalChunks" readInt64
  let uniqueChunks ← field "UniqueChunks" readInt64
  let dedupChunks ← field "DedupChunks" readInt64
  let rawBytes ← field "RawBytes" readInt64
  let storedBytes ← field "StoredBytes" readInt64
  let dedupRatio ← field "DedupRatio" readFloat64
  let compRatio ← field "CompRatio" readFloat64
  let duration ← field "Duration" readStr8
  let changedChunks ← field "ChangedChunks" readInt64
  let unchangedChunks ← field "UnchangedChunks" readInt64
  let pathCount ← field "SourcePathCount" readCount16
  let sourcePaths ← readStrings "SourcePaths" pathCount
  let dekLen ← field "WrappedDEKLen" readCount16
  let wrappedDEK ← field "WrappedDEK" (readFull dekLen)
  pure { backupID, sourceVolume, backupType, backupMode, parentBackupID, timestamp, sectorSize,
         clusterSize, totalBytes, totalChunks, uniqueChunks, dedupChunks, rawBytes, storedBytes,
         dedupRatio, compRatio, duration, changedChunks, unchangedChunks, sourcePaths, wrappedDEK,
         contentDigest := [], contentDigestCovers := [], excludePaths := [], excludeWarnings := [] }

/-- The lists of excluded paths and of warnings, behind the first count. -/
def readExcludes (n : ℕ) : Reader String (List Bytes × List Bytes) := do
  let paths ← readStrings "ExcludePaths" n
  let m ← field "ExcludeWarnings count" readCount16
  let warnings ← readStrings "ExcludeWarnings" m
  pure (paths, warnings)

/-- `decodeMetadata`: a field that finds nothing left ends the section of an older manifest. -/
def decodeMetadata (data : Bytes) : Except String Metadata :=
  match readHead data with
  | .error e => .error e
  | .ok (b, r) =>
    match readStr8 r with
    | .error .eof => .ok b
    | .error .unexpectedEOF => .error "ContentDigest: unexpected EOF"
    | .ok (contentDigest, r) =>
      match readStr8 r with
      -- a digest that does not say what it covers is dropped
      | .error .eof => .ok b
      | .error .unexpectedEOF => .error "ContentDigestCovers: unexpected EOF"
      | .ok (contentDigestCovers, r) =>
        match readCount16 r with
        | .error .eof => .ok { b with contentDigest, contentDigestCovers }
        | .error .unexpectedEOF => .error "ExcludePaths count: unexpected EOF"
        | .ok (n, r) =>
          match readExcludes n r with
          | .error e => .error e
          | .ok ((excludePaths, excludeWarnings), _) =>
            .ok { b with contentDigest, contentDigestCovers, excludePaths, excludeWarnings }

/-! ## Fields within their bounds -/

/-- A list of strings within the bounds of its fields. -/
def StringsFit (ss : List Bytes) : Prop := ss.length < 2 ^ 32 ∧ ∀ s ∈ ss, s.length ≤ 65535

instance (ss : List Bytes) : Decidable (StringsFit ss) := inferInstanceAs (Decidable (_ ∧ _))

/-- Every field is within the bounds of the format. -/
structure Metadata.Fits (b : Metadata) : Prop where
  backupID : b.backupID.length ≤ 255
  sourceVolume : b.sourceVolume.length ≤ 65535
  backupType : b.backupType.length ≤ 255
  backupMode : b.backupMode.length ≤ 255
  parentBackupID : b.parentBackupID.length ≤ 255
  timestamp : IsTime b.timestamp
  sectorSize : 0 ≤ b.sectorSize ∧ b.sectorSize < 2 ^ 32
  clusterSize : 0 ≤ b.clusterSize ∧ b.clusterSize < 2 ^ 32
  totalBytes : IsInt64 b.totalBytes
  totalChunks : IsInt64 b.totalChunks
  uniqueChunks : IsInt64 b.uniqueChunks
  dedupChunks : IsInt64 b.dedupChunks
  rawBytes : IsInt64 b.rawBytes
  storedBytes : IsInt64 b.storedBytes
  duration : b.duration.length ≤ 255
  changedChunks : IsInt64 b.changedChunks
  unchangedChunks : IsInt64 b.unchangedChunks
  sourcePaths : StringsFit b.sourcePaths
  wrappedDEK : b.wrappedDEK.length < 2 ^ 32
  contentDigest : b.contentDigest.length ≤ 255
  contentDigestCovers : b.contentDigestCovers.length ≤ 255
  excludePaths : StringsFit b.excludePaths
  excludeWarnings : StringsFit b.excludeWarnings

lemma reads_strings {ss : List Bytes} (h : StringsFit ss) (name : String) :
    Reads (readStrings name ss.length) ss (ss.flatMap writeStr16) :=
  Reads.each (fun s hs i => reads_field (reads_str16 (h.2 s hs)) s!"{name}[{i}]") 0

/-- The fields that every manifest has. -/
def Metadata.head (b : Metadata) : Metadata :=
  { b with contentDigest := [], contentDigestCovers := [], excludePaths := [],
           excludeWarnings := [] }

/-- **Proof sketch.** One rule for each field, in the order of the fields. -/
lemma reads_head {b : Metadata} (hb : b.Fits) : Reads readHead b.head (encodeHead b) := by
  refine (reads_field (reads_str8 hb.backupID) _).bind ?_
  refine (reads_field (reads_str16 hb.sourceVolume) _).bind ?_
  refine (reads_field (reads_str8 hb.backupType) _).bind ?_
  refine (reads_field (reads_str8 hb.backupMode) _).bind ?_
  refine (reads_field (reads_str8 hb.parentBackupID) _).bind ?_
  refine (reads_field (reads_timeNano hb.timestamp) _).bind ?_
  refine (reads_field (reads_uint32 hb.sectorSize.1 hb.sectorSize.2) _).bind ?_
  refine (reads_field (reads_uint32 hb.clusterSize.1 hb.clusterSize.2) _).bind ?_
  refine (reads_field (reads_int64 hb.totalBytes) _).bind ?_
  refine (reads_field (reads_int64 hb.totalChunks) _).bind ?_
  refine (reads_field (reads_int64 hb.uniqueChunks) _).bind ?_
  refine (reads_field (reads_int64 hb.dedupChunks) _).bind ?_
  refine (reads_field (reads_int64 hb.rawBytes) _).bind ?_
  refine (reads_field (reads_int64 hb.storedBytes) _).bind ?_
  refine (reads_field (reads_float64 b.dedupRatio) _).bind ?_
  refine (reads_field (reads_float64 b.compRatio) _).bind ?_
  refine (reads_field (reads_str8 hb.duration) _).bind ?_
  refine (reads_field (reads_int64 hb.changedChunks) _).bind ?_
  refine (reads_field (reads_int64 hb.unchangedChunks) _).bind ?_
  simp only [List.flatten_cons, List.flatten_nil, List.append_nil, writeStrings,
    List.append_assoc]
  refine (reads_field (reads_count16 hb.sourcePaths.1) _).bind ?_
  refine (reads_strings hb.sourcePaths _).bind ?_
  refine (reads_field (reads_count16 hb.wrappedDEK) _).bind ?_
  exact (reads_field (reads_readFull b.wrappedDEK) _).map _

lemma reads_excludes {b : Metadata} (hb : b.Fits) :
    Reads (readExcludes b.excludePaths.length) (b.excludePaths, b.excludeWarnings)
      (b.excludePaths.flatMap writeStr16 ++ writeStrings b.excludeWarnings) := by
  refine (reads_strings hb.excludePaths _).bind ?_
  refine (reads_field (reads_count16 hb.excludeWarnings.1) _).bind ?_
  exact (reads_strings hb.excludeWarnings _).map _

/-- **Fields within their bounds read back.** -/
theorem decodeMetadata_encode {b : Metadata} (hb : b.Fits) :
    decodeMetadata (encodeMetadata b) = .ok b := by
  have hexcl := (reads_excludes hb).whole []
  rw [List.append_nil] at hexcl
  unfold decodeMetadata encodeMetadata
  rw [(reads_head hb).whole]
  simp only [(reads_str8 hb.contentDigest).whole, (reads_str8 hb.contentDigestCovers).whole]
  rw [writeStrings, List.append_assoc, (reads_count16 hb.excludePaths.1).whole]
  simp only [hexcl, Metadata.head]

/-! ## Cut sections -/

/-- Where the content digest starts. -/
def digestOffset (b : Metadata) : ℕ := (encodeHead b).length

/-- Where the text that says what the digest covers starts. -/
def coversOffset (b : Metadata) : ℕ := digestOffset b + (writeStr8 b.contentDigest).length

/-- Where the lists of excluded paths start. -/
def excludesOffset (b : Metadata) : ℕ := coversOffset b + (writeStr8 b.contentDigestCovers).length

/-- The section of an older manifest ends here. -/
def AtOlderBoundary (b : Metadata) (k : ℕ) : Prop :=
  k = digestOffset b ∨ k = coversOffset b ∨ k = excludesOffset b

/-- A cut right behind the length of the digest or of what it covers, or behind the sentinel of the
count of excluded paths: the read of what was announced finds nothing left. -/
def BehindLength (b : Metadata) (k : ℕ) : Prop :=
  (b.contentDigest ≠ [] ∧ k = digestOffset b + 1) ∨
    (b.contentDigestCovers ≠ [] ∧ k = coversOffset b + 1) ∨
      (count16Sentinel ≤ b.excludePaths.length ∧ k = excludesOffset b + 2)

instance (b : Metadata) (k : ℕ) : Decidable (AtOlderBoundary b k) :=
  inferInstanceAs (Decidable (_ ∨ _))

instance (b : Metadata) (k : ℕ) : Decidable (BehindLength b k) :=
  inferInstanceAs (Decidable (_ ∨ _))

lemma length_writeStr8 {s : Bytes} (h : s.length ≤ 255) : (writeStr8 s).length = 1 + s.length := by
  simp [writeStr8_eq h]

lemma length_writeCount16 (n : ℕ) :
    (writeCount16 n).length = if n < count16Sentinel then 2 else 6 := by
  unfold writeCount16
  split <;> simp

section Cut

variable {b : Metadata} (hb : b.Fits)
include hb

/-- A cut section decodes at the boundaries of the older manifests and right behind a length. -/
lemma decodeMetadata_cut {k : ℕ} (hk : k < (encodeMetadata b).length) :
    (∃ b', decodeMetadata ((encodeMetadata b).take k) = .ok b') ↔
      AtOlderBoundary b k ∨ BehindLength b k := by
  have hdigest := length_writeStr8 hb.contentDigest
  have hcovers := length_writeStr8 hb.contentDigestCovers
  have hcount := length_writeCount16 b.excludePaths.length
  have hempty : ∀ s : Bytes, s ≠ [] ↔ 0 < s.length := fun s => List.length_pos_iff.symm
  unfold AtOlderBoundary BehindLength excludesOffset coversOffset
  simp only [hempty, hdigest, hcovers]
  rw [encodeMetadata] at hk ⊢
  obtain ⟨hlt, heq⟩ | ⟨j, rfl, hj, heq⟩ := take_append_cases _ _ k hk
  · -- in the fields that every manifest has
    obtain ⟨e, he⟩ := (reads_head hb).cut k hlt
    rw [heq, decodeMetadata, he]
    unfold digestOffset
    simp only [reduceCtorEq, exists_false, false_iff]
    omega
  rw [heq, decodeMetadata, (reads_head hb).whole]
  obtain ⟨hlt, heq⟩ | ⟨j, rfl, hj, heq⟩ := take_append_cases _ _ j hj
  · refine Iff.trans (b := j ≤ 1) ?_ (by unfold digestOffset; omega)
    simp only [heq, readStr8_cut hb.contentDigest hlt]
    by_cases h1 : j ≤ 1 <;> simp [h1]
  simp only [heq, (reads_str8 hb.contentDigest).whole]
  obtain ⟨hlt, heq⟩ | ⟨j, rfl, hj, heq⟩ := take_append_cases _ _ j hj
  · refine Iff.trans (b := j ≤ 1) ?_ (by unfold digestOffset; omega)
    simp only [heq, readStr8_cut hb.contentDigestCovers hlt]
    by_cases h1 : j ≤ 1 <;> simp [h1]
  simp only [heq, (reads_str8 hb.contentDigestCovers).whole]
  rw [writeStrings, List.append_assoc] at hj ⊢
  obtain ⟨hlt, heq⟩ | ⟨j, rfl, hj, heq⟩ := take_append_cases _ _ j hj
  · refine Iff.trans (b := j = 0 ∨ j = 2) ?_ (by unfold digestOffset; split at hcount <;> omega)
    simp only [heq, readCount16_cut hlt]
    by_cases h1 : j = 0 ∨ j = 2 <;> simp [h1]
  · -- in the lists themselves
    obtain ⟨e, he⟩ := (reads_excludes hb).cut j hj
    simp only [heq, (reads_count16 hb.excludePaths.1).whole, he]
    unfold digestOffset
    simp only [reduceCtorEq, exists_false, false_iff]
    split at hcount <;> omega

/-- **Which cuts of a section are refused.** A section that was cut elsewhere than at the end of an
older manifest is refused, unless it was cut right behind the length of the digest or of what it
covers, or behind the sentinel of the count of excluded paths. -/
theorem decodeMetadata_truncated_iff {k : ℕ} (hk : k < (encodeMetadata b).length) :
    ((∃ b', decodeMetadata ((encodeMetadata b).take k) = .ok b') → AtOlderBoundary b k) ↔
      ¬ BehindLength b k := by
  rw [decodeMetadata_cut hb hk]
  refine ⟨fun h hbehind => ?_, fun h => Or.rec id fun hbehind => absurd hbehind h⟩
  have hat := h (.inr hbehind)
  have hdigest := length_writeStr8 hb.contentDigest
  have hcovers := length_writeStr8 hb.contentDigestCovers
  have hempty : ∀ s : Bytes, s ≠ [] ↔ 0 < s.length := fun s => List.length_pos_iff.symm
  unfold AtOlderBoundary excludesOffset coversOffset at hat
  unfold BehindLength excludesOffset coversOffset at hbehind
  simp only [hempty, hdigest, hcovers] at hat hbehind
  omega

end Cut

/-- A backup with a digest and what it covers. -/
def digestedMetadata : Metadata where
  backupID := [98]
  sourceVolume := []
  backupType := []
  backupMode := []
  parentBackupID := []
  timestamp := none
  sectorSize := 512
  clusterSize := 4096
  totalBytes := 0
  totalChunks := 0
  uniqueChunks := 0
  dedupChunks := 0
  rawBytes := 0
  storedBytes := 0
  dedupRatio := 0
  compRatio := 0
  duration := []
  changedChunks := 0
  unchangedChunks := 0
  sourcePaths := []
  wrappedDEK := []
  contentDigest := [49, 50]
  contentDigestCovers := [118]
  excludePaths := []
  excludeWarnings := []

lemma digestedMetadata_fits : digestedMetadata.Fits := by
  constructor
  case timestamp => exact fun nano h => nomatch h
  all_goals decide

/-- A cut in the middle of the digest is refused. -/
theorem decodeMetadata_truncated_iff_digest :
    ¬ BehindLength digestedMetadata (digestOffset digestedMetadata + 2) ∧
      ((∃ b', decodeMetadata ((encodeMetadata digestedMetadata).take
        (digestOffset digestedMetadata + 2)) = .ok b') →
          AtOlderBoundary digestedMetadata (digestOffset digestedMetadata + 2)) :=
  ⟨by decide +kernel,
    (decodeMetadata_truncated_iff digestedMetadata_fits (by decide +kernel)).2 (by decide +kernel)⟩

/-- A section cut right behind the length of the digest decodes as one without a digest. -/
theorem decodeMetadata_behind_length :
    digestedMetadata.Fits ∧
      digestOffset digestedMetadata + 1 < (encodeMetadata digestedMetadata).length ∧
      ¬ AtOlderBoundary digestedMetadata (digestOffset digestedMetadata + 1) ∧
        decodeMetadata ((encodeMetadata digestedMetadata).take
          (digestOffset digestedMetadata + 1)) = .ok digestedMetadata.head := by
  exact ⟨digestedMetadata_fits, by decide +kernel, by decide +kernel, by rfl⟩

end DiskNexus.Manifest
