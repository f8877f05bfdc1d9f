import DiskNexus.Manifest.Fields

/-!
# The catalog section

The records of the files of a backup, each behind its length. The inline data of small files was
added later, at the end: the decoder reads it if at least two bytes are left.

## Main results

`decodeFileEntry_encode`, `reads_records`
-/

namespace DiskNexus.Manifest

open Binary Reading Sha256 Index

/-- `VolumeExtent`. -/
structure VolumeExtent where
  fileOffset : ℤ
  volumeOffset : ℤ
  length : ℤ
  deriving DecidableEq

/-- `FileEntry`. -/
structure FileEntry where
  path : Bytes
  sourceIndex : ℤ
  size : ℤ
  mode : UInt32
  modTime : Option ℤ
  isDir : Bool
  isSymlink : Bool
  unchanged : Bool
  isExcluded : Bool
  linkTarget : Bytes
  streamOffset : ℤ
  streamLength : ℤ
  contentHash : Hash
  dataBackupID : Bytes
  volumeExtents : List VolumeExtent
  inlineData : Bytes
  deriving DecidableEq

/-- The flags of a file entry: `flagIsDir`, `flagIsSymlink`, `flagUnchanged`, `flagExcluded`. -/
def FileEntry.flags (fe : FileEntry) : ℕ :=
  (if fe.isDir then 1 else 0) ||| (if fe.isSymlink then 2 else 0) |||
    (if fe.unchanged then 4 else 0) ||| (if fe.isExcluded then 8 else 0)

/-- The record of an extent. -/
def encodeExtent (ext : VolumeExtent) : Bytes :=
  List.flatten [writeInt64 ext.fileOffset, writeInt64 ext.volumeOffset, writeInt64 ext.length]

/-- A record up to its extents. -/
def encodeFixed (fe : FileEntry) : Bytes :=
  List.flatten [writeStr16 fe.path, writeUint32 fe.sourceIndex, writeInt64 fe.size,
    le 4 fe.mode.toNat, writeTimeNano fe.modTime, le 1 fe.flags, writeStr16 fe.linkTarget,
    writeInt64 fe.streamOffset, writeInt64 fe.streamLength, fe.contentHash.val,
    writeStr8 fe.dataBackupID, writeCount16 fe.volumeExtents.length,
    fe.volumeExtents.flatMap encodeExtent]

/-- `encodeFileEntry`. -/
def encodeFileEntry (fe : FileEntry) : Bytes :=
  encodeFixed fe ++ (writeCount16 fe.inlineData.length ++ fe.inlineData)

/-- The extent with the given number. -/
def readExtent (i : ℕ) : Reader String VolumeExtent := do
  let fileOffset ← field s!"Extent[{i}].FileOffset" readInt64
  let volumeOffset ← field s!"Extent[{i}].VolumeOffset" readInt64
  let length ← field s!"Extent[{i}].Length" readInt64
  pure { fileOffset, volumeOffset, length }

/-- `decodeFileEntry`, up to the extents. -/
def readFixed : Reader String FileEntry := do
  let path ← field "Path" readStr16
  let sourceIndex ← field "SourceIndex" readInt32
  let size ← field "Size" readInt64
  let mode ← field "Mode" (readUint 4)
  let modTime ← field "ModTime" readTimeNano
  let flags ← field "Flags" (readUint 1)
  let linkTarget ← field "LinkTarget" readStr16
  let streamOffset ← field "StreamOffset" readInt64
  let streamLength ← field "StreamLength" readInt64
  let contentHash ← field "ContentHash" (readFull 32)
  let dataBackupID ← field "DataBackupID" readStr8
  let extCount ← field "ExtentCount" readCount16
  let volumeExtents ← readEach readExtent 0 extCount
  pure { path, sourceIndex, size, mode := UInt32.ofNat mode, modTime,
         isDir := flags &&& 1 ≠ 0, isSymlink := flags &&& 2 ≠ 0,
         unchanged := flags &&& 4 ≠ 0, isExcluded := flags &&& 8 ≠ 0,
         linkTarget, streamOffset, streamLength, contentHash := hashOf contentHash, dataBackupID,
         volumeExtents, inlineData := [] }

/-- The inline data at the end of a record. -/
def readInline : Reader String Bytes := do
  let inlineLen ← field "InlineDataLen" readCount16
  field "InlineData" (readFull inlineLen)

/-- `decodeFileEntry`. -/
def decodeFileEntry (data : Bytes) : Except String FileEntry :=
  match readFixed data with
  | .error e => .error e
  | .ok (fe, r) =>
    if 2 ≤ r.length then
      match readInline r with
      | .error e => .error e
      | .ok (inlineData, _) => .ok { fe with inlineData }
    else .ok fe

/-! ## Records -/

/-- A record behind its length. -/
def encodeRecord (fe : FileEntry) : Bytes :=
  le 4 (encodeFileEntry fe).length ++ encodeFileEntry fe

/-- The records of a catalog. -/
def encodeCatalog (files : List FileEntry) : Bytes := files.flatMap encodeRecord

/-- `catalogReader.next`, with records left, over a source that names its end. -/
def nextRecordOf (text : ReadError → String) : Reader String FileEntry := do
  let recLen ← relabel (fun e => "reading catalog record length: " ++ text e) (readUint 4)
  let data ← relabel (fun e => "reading catalog record data: " ++ text e) (readFull recLen)
  fun rest => (decodeFileEntry data).map fun fe => (fe, rest)

/-- `catalogReader.next` over a file. -/
def nextRecord : Reader String FileEntry := nextRecordOf ReadError.text

/-- `WriteCatalogSidecar`: the count is filled in at the end. -/
def writeCatalogSidecar (files : List FileEntry) : Bytes :=
  let file := List.replicate 8 0 ++ encodeCatalog files
  le 8 files.length ++ file.drop 8

/-- `streamCatalogSidecar`: the count, and the bytes behind it. -/
def streamCatalogSidecar (sidecar : Bytes) : Except String (ℕ × Bytes) :=
  field "reading catalog sidecar count" (readUint 8) sidecar

/-! ## File entries within their bounds -/

/-- Every field of an extent is an `int64`. -/
structure VolumeExtent.Fits (ext : VolumeExtent) : Prop where
  fileOffset : IsInt64 ext.fileOffset
  volumeOffset : IsInt64 ext.volumeOffset
  length : IsInt64 ext.length

/-- Every field is within the bounds of the format. -/
structure FileEntry.Bounded (fe : FileEntry) : Prop where
  path : fe.path.length ≤ 65535
  sourceIndex : -2 ^ 31 ≤ fe.sourceIndex ∧ fe.sourceIndex < 2 ^ 31
  size : IsInt64 fe.size
  modTime : IsTime fe.modTime
  linkTarget : fe.linkTarget.length ≤ 65535
  streamOffset : IsInt64 fe.streamOffset
  streamLength : IsInt64 fe.streamLength
  dataBackupID : fe.dataBackupID.length ≤ 255
  extentCount : fe.volumeExtents.length < 2 ^ 32
  volumeExtents : ∀ ext ∈ fe.volumeExtents, ext.Fits
  inlineData : fe.inlineData.length < 2 ^ 32

/-- So is the length of the record. -/
structure FileEntry.Fits (fe : FileEntry) : Prop extends fe.Bounded where
  record : (encodeFileEntry fe).length < 2 ^ 32

lemma reads_extent {ext : VolumeExtent} (h : ext.Fits) (i : ℕ) :
    Reads (readExtent i) ext (encodeExtent ext) := by
  refine (reads_field (reads_int64 h.fileOffset) _).bind ?_
  refine (reads_field (reads_int64 h.volumeOffset) _).bind ?_
  exact (reads_field (reads_int64 h.length) _).map _

lemma hashOf_val (h : Hash) : hashOf h.val = h := by
  obtain ⟨bs, hlen⟩ := h
  simp [hashOf, hlen]

lemma flags_lt (fe : FileEntry) : fe.flags < 256 ^ 1 := by
  unfold FileEntry.flags
  cases fe.isDir <;> cases fe.isSymlink <;> cases fe.unchanged <;> cases fe.isExcluded <;> decide

/-- The flags of a file entry say what they were made from. -/
lemma flags_bits (fe : FileEntry) :
    decide (fe.flags &&& 1 ≠ 0) = fe.isDir ∧ decide (fe.flags &&& 2 ≠ 0) = fe.isSymlink ∧
      decide (fe.flags &&& 4 ≠ 0) = fe.unchanged ∧
        decide (fe.flags &&& 8 ≠ 0) = fe.isExcluded := by
  unfold FileEntry.flags
  cases fe.isDir <;> cases fe.isSymlink <;> cases fe.unchanged <;> cases fe.isExcluded <;> decide

/-- **Proof sketch.** One rule for each field, in the order of the fields. -/
lemma reads_fixed {fe : FileEntry} (h : fe.Bounded) :
    Reads readFixed { fe with inlineData := [] } (encodeFixed fe) := by
  obtain ⟨hdir, hlink, hunchanged, hexcluded⟩ := flags_bits fe
  have hhash : Reads (readFull 32) fe.contentHash.val fe.contentHash.val := by
    have := reads_readFull fe.contentHash.val
    rwa [fe.contentHash.2] at this
  refine (reads_field (reads_str16 h.path) _).bind ?_
  refine (reads_field (reads_int32 h.sourceIndex.1 h.sourceIndex.2) _).bind ?_
  refine (reads_field (reads_int64 h.size) _).bind ?_
  refine (reads_field (reads_readUint (by norm_num; exact fe.mode.toNat_lt)) _).bind ?_
  refine (reads_field (reads_timeNano h.modTime) _).bind ?_
  refine (reads_field (reads_readUint (flags_lt fe)) _).bind ?_
  refine (reads_field (reads_str16 h.linkTarget) _).bind ?_
  refine (reads_field (reads_int64 h.streamOffset) _).bind ?_
  refine (reads_field (reads_int64 h.streamLength) _).bind ?_
  refine (reads_field hhash _).bind ?_
  refine (reads_field (reads_str8 h.dataBackupID) _).bind ?_
  refine (reads_field (reads_count16 h.extentCount) _).bind ?_
  simp only [List.flatten_cons, List.flatten_nil, List.append_nil]
  have hexts : Reads (readEach readExtent 0 fe.volumeExtents.length) fe.volumeExtents
      (fe.volumeExtents.flatMap encodeExtent) :=
    Reads.each (fun ext hext i => reads_extent (h.volumeExtents ext hext) i) 0
  have := hexts.map fun volumeExtents =>
    ({ fe with mode := UInt32.ofNat fe.mode.toNat,
               isDir := fe.flags &&& 1 ≠ 0, isSymlink := fe.flags &&& 2 ≠ 0,
               unchanged := fe.flags &&& 4 ≠ 0, isExcluded := fe.flags &&& 8 ≠ 0,
               contentHash := hashOf fe.contentHash.val, volumeExtents,
               inlineData := [] } : FileEntry)
  simpa only [hdir, hlink, hunchanged, hexcluded, hashOf_val, UInt32.ofNat_toNat] using this

lemma reads_inline {fe : FileEntry} (h : fe.Bounded) :
    Reads readInline fe.inlineData (writeCount16 fe.inlineData.length ++ fe.inlineData) :=
  (reads_field (reads_count16 h.inlineData) _).bind (reads_field (reads_readFull fe.inlineData) _)

lemma two_le_length_writeCount16 (n : ℕ) : 2 ≤ (writeCount16 n).length := by
  unfold writeCount16
  split <;> simp

/-- **A file entry within its bounds reads back.** -/
theorem decodeFileEntry_encode {fe : FileEntry} (h : fe.Bounded) :
    decodeFileEntry (encodeFileEntry fe) = .ok fe := by
  have hinline := (reads_inline h).whole []
  rw [List.append_nil] at hinline
  have hlen : 2 ≤ (writeCount16 fe.inlineData.length ++ fe.inlineData).length := by
    have := two_le_length_writeCount16 fe.inlineData.length
    rw [List.length_append]
    omega
  rw [decodeFileEntry, encodeFileEntry, (reads_fixed h).whole]
  simp only [hlen, if_true, hinline]

/-! ## Truncated entries -/

/-- **Which cuts of a file entry are refused**: all but the one behind the extents, where an older
record ends, and the one a byte later, where the decoder returns the entry without its inline data.

**Proof sketch.** Behind the extents the decoder goes by the number of bytes left: two or more are
read as inline data, which is cut. -/
theorem decodeFileEntry_truncated_iff {fe : FileEntry} (h : fe.Bounded) {k : ℕ}
    (hk : k < (encodeFileEntry fe).length) :
    ((∃ e, decodeFileEntry ((encodeFileEntry fe).take k) = .error e) ∨
        k = (encodeFixed fe).length) ↔ k ≠ (encodeFixed fe).length + 1 := by
  obtain ⟨hlt, heq⟩ | ⟨j, rfl, hj, heq⟩ := take_append_cases _ _ k hk
  · obtain ⟨e, he⟩ := (reads_fixed h).cut k hlt
    refine iff_of_true (.inl ⟨e, ?_⟩) (by omega)
    rw [encodeFileEntry, heq, decodeFileEntry, he]
  · have hlen : ((writeCount16 fe.inlineData.length ++ fe.inlineData).take j).length = j := by
      rw [List.length_take]
      omega
    have hdecode : decodeFileEntry ((encodeFileEntry fe).take ((encodeFixed fe).length + j)) =
        if 2 ≤ j then
          match readInline ((writeCount16 fe.inlineData.length ++ fe.inlineData).take j) with
          | .error e => .error e
          | .ok (inlineData, _) => .ok { fe with inlineData }
        else .ok { fe with inlineData := [] } := by
      rw [encodeFileEntry, heq, decodeFileEntry, (reads_fixed h).whole]
      simp only [hlen]
    rw [hdecode]
    by_cases hj2 : 2 ≤ j
    · obtain ⟨e, he⟩ := (reads_inline h).cut j hj
      refine iff_of_true (.inl ⟨e, ?_⟩) (by omega)
      rw [if_pos hj2, he]
    · rw [if_neg hj2]
      simp only [reduceCtorEq, exists_false, false_or]
      omega

/-- A file of one byte that is kept inline. -/
def inlineFile : FileEntry where
  path := [97]
  sourceIndex := 0
  size := 1
  mode := 0
  modTime := none
  isDir := false
  isSymlink := false
  unchanged := false
  isExcluded := false
  linkTarget := []
  streamOffset := 0
  streamLength := 0
  contentHash := .zero
  dataBackupID := []
  volumeExtents := []
  inlineData := [7]

lemma inlineFile_bounded : inlineFile.Bounded := by
  refine ⟨?_, ?_, ?_, by rintro nano ⟨⟩, ?_, ?_, ?_, ?_, ?_, by rintro ext ⟨⟩, ?_⟩ <;> decide

/-- Two bytes behind the extents the cut is refused. -/
theorem decodeFileEntry_truncated_two :
    ∃ e, decodeFileEntry ((encodeFileEntry inlineFile).take 83) = .error e := by
  have hrefused := (decodeFileEntry_truncated_iff inlineFile_bounded
    (show 83 < (encodeFileEntry inlineFile).length by decide +kernel)).2 (by decide +kernel)
  exact hrefused.resolve_right (by decide +kernel)

/-- One byte longer, the entry is decoded without its inline data. -/
theorem decodeFileEntry_drops_inline :
    (encodeFixed inlineFile).length = 81 ∧
      decodeFileEntry ((encodeFileEntry inlineFile).take 82) =
        .ok { inlineFile with inlineData := [] } := by
  decide +kernel

/-! ## Reading the records -/

/-- A record reads back, and no cut of it does. -/
lemma reads_record {fe : FileEntry} (h : fe.Fits) (text : ReadError → String) :
    Reads (nextRecordOf text) fe (encodeRecord fe) := by
  have hlen : (encodeFileEntry fe).length < 256 ^ 4 := by
    have := h.record
    omega
  -- nothing is read any more once the record has been taken
  have hdecode : Reads (fun rest => (decodeFileEntry (encodeFileEntry fe)).map fun fe => (fe, rest))
      fe [] := by
    refine ⟨fun rest => ?_, fun k hk => absurd hk (Nat.not_lt_zero k)⟩
    rw [decodeFileEntry_encode h.toBounded]
    rfl
  refine ((reads_readUint hlen).relabel _).bind ?_
  have := ((reads_readFull (encodeFileEntry fe)).relabel
    fun e => "reading catalog record data: " ++ text e).bind
    (f := fun data rest => (decodeFileEntry data).map fun fe => (fe, rest)) hdecode
  rwa [List.append_nil] at this

/-- **The records of a catalog read back.** -/
theorem reads_records {files : List FileEntry} (h : ∀ fe ∈ files, fe.Fits) (i : ℕ) :
    Reads (readEach (fun _ => nextRecord) i files.length) files (encodeCatalog files) :=
  Reads.each (fun fe hfe _ => reads_record (h fe hfe) _) i

/-- The sidecar gives the count and the records that were written. -/
lemma streamCatalogSidecar_write {files : List FileEntry} (h : files.length < 2 ^ 64) :
    streamCatalogSidecar (writeCatalogSidecar files) =
      .ok (files.length, encodeCatalog files) := by
  exact (reads_field (reads_readUint (by norm_num; omega)) _).whole _

end DiskNexus.Manifest
