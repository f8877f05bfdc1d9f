import DiskNexus.Manifest.Catalog
import DiskNexus.Manifest.Metadata

/-!
# Manifest files

A `.dnm` file has three sections and an index that says where they are. The batch writer fills the
offset of the index into the header. The streaming writer leaves it zero, appends it as a trailer,
and writes the entries first. The readers go by the index only.
-/

namespace DiskNexus.Manifest

open Binary Reading Sha256

/-- `manifest.Backup`, as far as the file holds it. -/
structure FullBackup where
  metadata : Metadata
  entries : List Entry
  fileCatalog : List FileEntry
  deriving DecidableEq

/-! ## Header and section index -/

/-- `dnmMagic`. -/
def dnmMagic : Bytes := [68, 78, 77, 65, 78, 73, 70, 0]

/-- `dnmVersion`. -/
def dnmVersion : ℕ := 1

/-- `fileHeaderSize`. -/
def fileHeaderSize : ℕ := 32

/-- `sectionIndexSize`. -/
def sectionIndexSize : ℕ := 36

/-- `numSections`. -/
def numSections : ℕ := 3

/-- `sectionMetadata`. -/
def sectionMetadata : ℕ := 1

/-- `sectionCatalog`. -/
def sectionCatalog : ℕ := 2

/-- `sectionEntries`. -/
def sectionEntries : ℕ := 3

/-- `encodeHeader`. -/
def encodeHeader (sectionIndexOffset : ℕ) : Bytes :=
  List.flatten [dnmMagic, le 2 dnmVersion, le 2 0, le 8 sectionIndexOffset, le 4 numSections,
    le 4 0, le 4 0]

/-- `sectionInfo`. -/
structure SectionInfo where
  typ : ℕ
  offset : ℕ
  length : ℕ
  count : ℕ
  deriving DecidableEq

/-- `encodeSectionIndex`. -/
def encodeSectionIndex (s : SectionInfo) : Bytes :=
  List.flatten [le 1 s.typ, List.replicate 7 0, le 8 s.offset, le 8 s.length, le 8 s.count, le 4 0]

/-- `decodeSectionIndex`. -/
def decodeSectionIndex (buf : Bytes) : SectionInfo where
  typ := fieldAt buf 0 1
  offset := fieldAt buf 8 8
  length := fieldAt buf 16 8
  count := fieldAt buf 24 8

/-! ## The batch writer -/

/-- `writeEntriesSection`: the entries in memory, or else those of the sidecar. -/
def writeEntriesSection (entries : List Entry) (sidecar : Option Bytes) : ℕ × Bytes :=
  if entries ≠ [] then (entries.length, encodeEntries entries)
  else
    match sidecar with
    | none => (0, [])
    | some file => (file.length / entryRecordSize, file)

/-- The catalog section of `writeDNM`: the sidecar, or else the catalog in memory. -/
def writeCatalogSection (files : List FileEntry) : Option Bytes → Except String (ℕ × Bytes)
  | some sidecar =>
    (streamCatalogSidecar sidecar).mapError fun e => s!"streaming catalog sidecar: {e}"
  | none => .ok (files.length, encodeCatalog files)

/-- `writeDNM`: the header is filled in at the end. -/
def writeDNM (b : FullBackup) (catalogSidecar entriesSidecar : Option Bytes) :
    Except String Bytes := do
  let metaBytes := encodeMetadata b.metadata
  let (catalogCount, catalogBytes) ← writeCatalogSection b.fileCatalog catalogSidecar
  let (entriesCount, entriesBytes) := writeEntriesSection b.entries entriesSidecar
  let catalogOffset := fileHeaderSize + metaBytes.length
  let entriesOffset := catalogOffset + catalogBytes.length
  let sectionIndexOffset := entriesOffset + entriesBytes.length
  let index := List.flatten
    [encodeSectionIndex ⟨sectionMetadata, fileHeaderSize, metaBytes.length, 1⟩,
      encodeSectionIndex ⟨sectionCatalog, catalogOffset, catalogBytes.length, catalogCount⟩,
      encodeSectionIndex ⟨sectionEntries, entriesOffset, entriesBytes.length, entriesCount⟩]
  let file := List.replicate fileHeaderSize 0 ++
    (metaBytes ++ (catalogBytes ++ (entriesBytes ++ index)))
  pure (encodeHeader sectionIndexOffset ++ file.drop fileHeaderSize)

/-! ## The streaming writer -/

/-- `DNMStreamer`, with the parts that its sink has taken. -/
structure DNMStreamer where
  window : ℤ
  buf : Bytes
  entriesLen : ℕ
  count : ℕ
  finished : Bool
  sent : List Bytes

/-- `NewDNMStreamer`: the offset in the header stays zero. -/
def newDNMStreamer (window : ℤ) : DNMStreamer := ⟨window, encodeHeader 0, 0, 0, false, []⟩

namespace DNMStreamer

/-- `WriteEntry`: a full window is handed to the sink, which may fail. -/
def writeEntry (d : DNMStreamer) (e : Entry) (sinkFails : Bool) : Except String DNMStreamer :=
  if d.finished then .error "streamer already finished"
  else
    let d := { d with buf := d.buf ++ encodeEntry e, entriesLen := d.entriesLen + entryRecordSize,
                      count := d.count + 1 }
    if d.window ≤ d.buf.length then
      if sinkFails then .error "sink" else .ok { d with buf := [], sent := d.sent ++ [d.buf] }
    else .ok d

/-- `Finish`: the last part, with the metadata, the catalog, the index and its offset. -/
def finish (d : DNMStreamer) (b : FullBackup) (catalogSidecar : Option Bytes) (sinkFails : Bool) :
    Except String DNMStreamer :=
  if d.finished then .error "streamer already finished"
  else if catalogSidecar ≠ none then .error "streamed manifests do not support catalog sidecars"
  else
    let metaBytes := encodeMetadata b.metadata
    let catalogBytes := encodeCatalog b.fileCatalog
    let metaOffset := fileHeaderSize + d.entriesLen
    let catalogOffset := metaOffset + metaBytes.length
    let sectionIndexOffset := catalogOffset + catalogBytes.length
    let index := List.flatten
      [encodeSectionIndex ⟨sectionMetadata, metaOffset, metaBytes.length, 1⟩,
        encodeSectionIndex
          ⟨sectionCatalog, catalogOffset, catalogBytes.length, b.fileCatalog.length⟩,
        encodeSectionIndex ⟨sectionEntries, fileHeaderSize, d.entriesLen, d.count⟩]
    let buf := d.buf ++ (metaBytes ++ (catalogBytes ++ (index ++ le 8 sectionIndexOffset)))
    if sinkFails then .error "sink"
    else .ok { d with buf := [], finished := true, sent := d.sent ++ [buf] }

end DNMStreamer

/-- A backup streamed to a sink that takes every part. -/
def streamDNM (window : ℤ) (b : FullBackup) : Except String Bytes := do
  let d ← b.entries.foldlM (fun d e => DNMStreamer.writeEntry d e false) (newDNMStreamer window)
  let d ← d.finish b none false
  pure d.sent.flatten

/-! ## The readers -/

/-- `DNMReader`, with the content of the file. -/
structure DNMReader where
  file : Bytes
  metadata : SectionInfo
  catalog : SectionInfo
  entries : SectionInfo
  deriving DecidableEq

/-- A reader that has not seen the section index. -/
def DNMReader.empty (file : Bytes) : DNMReader :=
  ⟨file, ⟨0, 0, 0, 0⟩, ⟨0, 0, 0, 0⟩, ⟨0, 0, 0, 0⟩⟩

/-- A section goes to its place; other types are passed over. -/
def DNMReader.put (r : DNMReader) (s : SectionInfo) : DNMReader :=
  if s.typ = sectionMetadata then { r with metadata := s }
  else if s.typ = sectionCatalog then { r with catalog := s }
  else if s.typ = sectionEntries then { r with entries := s }
  else r

/-- The loop over the section index, from record `i` on. -/
def readSectionIndex (i : ℕ) : ℕ → DNMReader → Bytes → Except String DNMReader
  | 0, r, _ => .ok r
  | n + 1, r, bs =>
    match readFull sectionIndexSize bs with
    | .error e => .error s!"reading section index entry {i}: {e.text}"
    | .ok (buf, rest) => readSectionIndex (i + 1) n (r.put (decodeSectionIndex buf)) rest

/-- Where the section index starts: as the header says, or else the trailer. -/
def locateIndex (file : Bytes) (stored count : ℕ) : Except String ℕ :=
  if stored ≠ 0 then .ok stored
  else
    let size := file.length
    let trailer := fieldAt file (size - 8) 8
    if trailer ≠ int64Bits ((size : ℤ) - 8 - count * sectionIndexSize) then
      .error s!"streamed dnm trailer offset {trailer} inconsistent with file size {size}"
    else .ok trailer

/-- `Seek` from the start, which refuses negative offsets. -/
def seekTo (what : String) (file : Bytes) (off : ℤ) : Except String Bytes :=
  if off < 0 then .error s!"{what}: invalid argument" else .ok (file.drop off.toNat)

/-- `OpenDNMReader`. -/
def openDNMReader (file : Bytes) : Except String DNMReader := do
  let (hdr, _) ← field "reading dnm header" (readFull fileHeaderSize) file
  let version := fieldAt hdr 8 2
  if hdr.take 8 ≠ dnmMagic then .error "invalid dnm magic bytes"
  else if version ≠ dnmVersion then .error s!"unsupported dnm version {version}"
  else
    let count := fieldAt hdr 20 4
    let off ← locateIndex file (fieldAt hdr 12 8) count
    let bs ← seekTo "seeking to section index" file (ofInt64Bits off)
    readSectionIndex 0 count (DNMReader.empty file) bs

/-- One entry record. -/
def readEntryRecord : Reader String Entry := do
  let buf ← field "reading entry record" (readFull entryRecordSize)
  pure (decodeEntry buf)

/-- The value of an `int64` sum or product. -/
def wrapInt64 (v : ℤ) : ℤ := ofInt64Bits (int64Bits v)

/-- The fold of a visitor over values, until it says to stop. -/
def visitWhile {σ α : Type} (visit : σ → α → σ × Bool) (s : σ) : List α → σ
  | [] => s
  | a :: as => if (visit s a).2 then visitWhile visit (visit s a).1 as else (visit s a).1

/-- The loop over the records of a catalog from number `i` on. The visitor has seen what it has seen
when an error ends the loop. -/
def visitRecords {σ : Type} (verb : String) (next : Reader String FileEntry)
    (visit : σ → FileEntry → σ × Bool) (total i : ℕ) : ℕ → σ → Bytes → σ × Option String
  | 0, s, _ => (s, none)
  | n + 1, s, bs =>
    match next bs with
    | .error e => (s, some s!"{verb} catalog record {i} of {total}: {e}")
    | .ok (fe, rest) =>
      if (visit s fe).2 then visitRecords verb next visit total (i + 1) n (visit s fe).1 rest
      else ((visit s fe).1, none)

/-- The loop of `StreamChunkHashes`: an error of the callback stops it. -/
def visitHashes {σ : Type} (fn : σ → Hash → σ × Option String) :
    ℕ → σ → Bytes → σ × Option String
  | 0, s, _ => (s, none)
  | n + 1, s, bs =>
    match readEntryRecord bs with
    | .error e => (s, some e)
    | .ok (entry, rest) =>
      match fn s entry.chunkHash with
      | (s', some e) => (s', some e)
      | (s', none) => visitHashes fn n s' rest

/-- What a callback sees and says over a list of hashes. -/
def feedHashes {σ : Type} (fn : σ → Hash → σ × Option String) (s : σ) :
    List Hash → σ × Option String
  | [] => (s, none)
  | h :: hs =>
    match fn s h with
    | (s', some e) => (s', some e)
    | (s', none) => feedHashes fn s' hs

namespace DNMReader

/-- `EntriesCount`. -/
def entriesCount (r : DNMReader) : ℤ := ofInt64Bits r.entries.count

/-- `CatalogCount`. -/
def catalogCount (r : DNMReader) : ℤ := ofInt64Bits r.catalog.count

/-- `readMetadata`. -/
def readMetadata (r : DNMReader) : Except String Metadata := do
  let bs ← seekTo "seeking to metadata section" r.file (ofInt64Bits r.metadata.offset)
  let (data, _) ← field "reading metadata section" (readFull r.metadata.length) bs
  decodeMetadata data

/-- `StreamCatalog`. -/
def streamCatalog {σ : Type} (r : DNMReader) (visit : σ → FileEntry → σ × Bool) (s : σ) :
    σ × Option String :=
  if r.catalog.count = 0 then (s, none)
  else
    match seekTo "seeking to catalog section" r.file (ofInt64Bits r.catalog.offset) with
    | .error e => (s, some e)
    | .ok bs => visitRecords "reading" nextRecord visit r.catalog.count 0 r.catalog.count s bs

/-- `readAllCatalog`. -/
def readAllCatalog (r : DNMReader) : Except String (List FileEntry) :=
  if r.catalog.count = 0 then .ok []
  else do
    let bs ← seekTo "seeking to catalog section" r.file (ofInt64Bits r.catalog.offset)
    let (files, _) ← readEach (fun _ => nextRecord) 0 r.catalog.count bs
    pure files

/-- `EntryAt`. -/
def entryAt (r : DNMReader) (i : ℕ) : Except String Entry :=
  let count := r.entries.count
  if count ≤ i then .error s!"entry index {i} out of range [0,{count})"
  else do
    let offset := wrapInt64 (ofInt64Bits r.entries.offset + ofInt64Bits i * entryRecordSize)
    let bs ← seekTo s!"seeking to entry {i}" r.file offset
    let (buf, _) ← field s!"reading entry {i}" (readFull entryRecordSize) bs
    pure (decodeEntry buf)

/-- `EntriesRange`. -/
def entriesRange (r : DNMReader) (start stop : ℕ) : Except String (List Entry) :=
  let total := r.entries.count
  if stop ≤ start then .ok []
  else if total < stop then
    .error s!"entry range [{start},{stop}) out of bounds (count={total})"
  else do
    let count := stop - start
    let offset := wrapInt64 (ofInt64Bits r.entries.offset + ofInt64Bits start * entryRecordSize)
    let bs ← seekTo s!"seeking to entry range [{start},{stop})" r.file offset
    let (buf, _) ← field s!"reading entry range [{start},{stop})"
      (readFull (count * entryRecordSize)) bs
    pure (decodeEntries count buf)

/-- `readAllEntries`. -/
def readAllEntries (r : DNMReader) : Except String (List Entry) :=
  if r.entries.count = 0 then .ok []
  else do
    let bs ← seekTo "seeking to entries section" r.file (ofInt64Bits r.entries.offset)
    let (entries, _) ← readEach (fun _ => readEntryRecord) 0 r.entries.count bs
    pure entries

/-- `StreamChunkHashes`. -/
def streamChunkHashes {σ : Type} (r : DNMReader) (fn : σ → Hash → σ × Option String) (s : σ) :
    σ × Option String :=
  if r.entries.count = 0 then (s, none)
  else
    match seekTo "seeking to entries section" r.file (ofInt64Bits r.entries.offset) with
    | .error e => (s, some e)
    | .ok bs => visitHashes fn r.entries.count s bs

end DNMReader

/-- `LoadMetadata`, from a `.dnm` file. -/
def loadMetadata (file : Bytes) : Except String Metadata := do
  let r ← openDNMReader file
  r.readMetadata.mapError fun e => s!"reading dnm metadata: {e}"

/-- `LoadCatalog`: the metadata and the catalog. -/
def loadCatalog (file : Bytes) : Except String FullBackup := do
  let r ← (openDNMReader file).mapError fun e => s!"opening dnm file: {e}"
  let metadata ← r.readMetadata.mapError fun e => s!"reading dnm metadata: {e}"
  let fileCatalog ← r.readAllCatalog.mapError fun e => s!"reading dnm catalog: {e}"
  pure ⟨metadata, [], fileCatalog⟩

/-- `LoadForBlockRestore`: the metadata and the entries. -/
def loadForBlockRestore (file : Bytes) : Except String FullBackup := do
  let r ← (openDNMReader file).mapError fun e => s!"opening dnm file: {e}"
  let metadata ← r.readMetadata.mapError fun e => s!"reading dnm metadata: {e}"
  let entries ← r.readAllEntries.mapError fun e => s!"reading dnm entries: {e}"
  pure ⟨metadata, entries, []⟩

/-- `loadDNM`: all sections. -/
def loadDNM (file : Bytes) : Except String FullBackup := do
  let r ← (openDNMReader file).mapError fun e => s!"opening dnm file: {e}"
  let metadata ← r.readMetadata.mapError fun e => s!"reading dnm metadata: {e}"
  let fileCatalog ← r.readAllCatalog.mapError fun e => s!"reading dnm catalog: {e}"
  let entries ← r.readAllEntries.mapError fun e => s!"reading dnm entries: {e}"
  pure ⟨metadata, entries, fileCatalog⟩

/-! ## What the readers give back -/

/-- Every field of a backup is within the bounds of the format, and its file is not too long. -/
structure FullBackup.Fits (b : FullBackup) : Prop where
  metadata : b.metadata.Fits
  entries : ∀ e ∈ b.entries, e.InRange
  fileCatalog : ∀ fe ∈ b.fileCatalog, fe.Fits
  size : fileHeaderSize + (encodeMetadata b.metadata).length +
    (encodeCatalog b.fileCatalog).length +
    (encodeEntries b.entries).length + numSections * sectionIndexSize + 8 < 2 ^ 63

/-- The sections of an open file hold the backup. -/
structure DNMReader.Holds (r : DNMReader) (b : FullBackup) : Prop where
  metaOffset : r.metadata.offset < 2 ^ 63
  metaLength : r.metadata.length = (encodeMetadata b.metadata).length
  metaBytes : ∃ rest, r.file.drop r.metadata.offset = encodeMetadata b.metadata ++ rest
  catalogOffset : r.catalog.offset < 2 ^ 63
  catalogCount : r.catalog.count = b.fileCatalog.length
  catalogBytes : ∃ rest, r.file.drop r.catalog.offset = encodeCatalog b.fileCatalog ++ rest
  entriesEnd : r.entries.offset + b.entries.length * entryRecordSize < 2 ^ 63
  entriesCount : r.entries.count = b.entries.length
  entriesBytes : ∃ rest, r.file.drop r.entries.offset = encodeEntries b.entries ++ rest

/-- Every reader of a file gives back the backup, or its part of it. -/
structure Readings (file : Bytes) (b : FullBackup) : Prop where
  load : loadDNM file = .ok b
  metadataOnly : loadMetadata file = .ok b.metadata
  catalogOnly : loadCatalog file = .ok { b with entries := [] }
  blocksOnly : loadForBlockRestore file = .ok { b with fileCatalog := [] }
  opened : ∃ r, openDNMReader file = .ok r ∧
    r.catalogCount = b.fileCatalog.length ∧ r.entriesCount = b.entries.length ∧
    (∀ (σ : Type) (visit : σ → FileEntry → σ × Bool) (s : σ),
      r.streamCatalog visit s = (visitWhile visit s b.fileCatalog, none)) ∧
    (∀ i (h : i < b.entries.length), r.entryAt i = .ok (b.entries.get ⟨i, h⟩)) ∧
    (∀ i j, i ≤ j → j ≤ b.entries.length →
      r.entriesRange i j = .ok ((b.entries.drop i).take (j - i))) ∧
    (∀ (σ : Type) (fn : σ → Hash → σ × Option String) (s : σ),
      r.streamChunkHashes fn s = feedHashes fn s (b.entries.map Entry.chunkHash))

lemma ofInt64Bits_of_lt {n : ℕ} (h : n < 2 ^ 63) : ofInt64Bits n = n := if_pos h

lemma wrapInt64_of_lt {n : ℕ} (h : n < 2 ^ 63) : wrapInt64 n = n :=
  ofInt64Bits_int64Bits (by omega) (by omega)

lemma seekTo_of_lt (what : String) (file : Bytes) {off : ℕ} (h : off < 2 ^ 63) :
    seekTo what file (ofInt64Bits off) = .ok (file.drop off) := by
  rw [ofInt64Bits_of_lt h, seekTo, if_neg (by omega), Int.toNat_natCast]

lemma reads_entryRecord {e : Entry} (h : e.InRange) : Reads readEntryRecord e (encodeEntry e) := by
  have hbuf : Reads (readFull entryRecordSize) (encodeEntry e) (encodeEntry e) := by
    have := reads_readFull (encodeEntry e)
    rwa [length_encodeEntry] at this
  have hdecode : decodeEntry (encodeEntry e) = e := by
    have := decodeEntry_append h []
    rwa [List.append_nil] at this
  have := (reads_field hbuf "reading entry record").map decodeEntry
  rwa [hdecode] at this

/-- The records from number `i` on. -/
lemma drop_encodeEntries (es : List Entry) (i : ℕ) :
    (encodeEntries es).drop (i * entryRecordSize) = encodeEntries (es.drop i) := by
  induction i generalizing es with
  | zero => simp
  | succ i ih =>
    cases es with
    | nil => simp
    | cons e es =>
      have hcons : encodeEntries (e :: es) = encodeEntry e ++ encodeEntries es := by
        simp [encodeEntries]
      rw [hcons, Nat.succ_mul, Nat.add_comm, ← List.drop_drop,
        List.drop_left' (length_encodeEntry e), ih, List.drop_succ_cons]

lemma decodeEntries_encode {es : List Entry} (h : ∀ e ∈ es, e.InRange) :
    decodeEntries es.length (encodeEntries es) = es := by
  have hread := readEntries_encode h
  have hlen := length_encodeEntries es
  rw [readEntries, if_neg (by rw [hlen, Nat.mul_mod_left]; simp), hlen,
    Nat.mul_div_cancel _ (by decide)] at hread
  exact Except.ok.inj hread

lemma length_le_encodeCatalog (files : List FileEntry) :
    files.length ≤ (encodeCatalog files).length := by
  induction files with
  | nil => exact Nat.le_refl 0
  | cons fe files ih =>
    have hcons : encodeCatalog (fe :: files) = encodeRecord fe ++ encodeCatalog files := by
      simp [encodeCatalog]
    rw [hcons, List.length_append, List.length_cons, encodeRecord, List.length_append, length_le]
    omega

variable {σ : Type} {es : List Entry} {i : ℕ} {b given : FullBackup}
  {catalogSidecar entriesSidecar : Option Bytes}

namespace DNMReader.Holds

variable {r : DNMReader} {b : FullBackup}

lemma readMetadata (hr : r.Holds b) (hb : b.Fits) : r.readMetadata = .ok b.metadata := by
  obtain ⟨rest, hrest⟩ := hr.metaBytes
  have hfull : field "reading metadata section" (readFull r.metadata.length)
      (r.file.drop r.metadata.offset) = .ok (encodeMetadata b.metadata, rest) := by
    rw [hrest, hr.metaLength]
    exact (reads_field (reads_readFull _) _).whole rest
  rw [DNMReader.readMetadata, seekTo_of_lt _ _ hr.metaOffset]
  simp only [bind, Except.bind, hfull]
  exact decodeMetadata_encode hb.metadata

lemma readAllCatalog (hr : r.Holds b) (hb : b.Fits) :
    r.readAllCatalog = .ok b.fileCatalog := by
  obtain ⟨rest, hrest⟩ := hr.catalogBytes
  have hread := (reads_records hb.fileCatalog 0).whole rest
  rw [← hrest, ← hr.catalogCount] at hread
  unfold DNMReader.readAllCatalog
  split_ifs with hzero
  · rw [hr.catalogCount, List.length_eq_zero_iff] at hzero
    rw [hzero]
  · rw [seekTo_of_lt _ _ hr.catalogOffset]
    simp only [bind, Except.bind, hread, pure, Except.pure]

lemma readAllEntries (hr : r.Holds b) (hb : b.Fits) : r.readAllEntries = .ok b.entries := by
  obtain ⟨rest, hrest⟩ := hr.entriesBytes
  have hread := (Reads.each (fun e he _ => reads_entryRecord (hb.entries e he)) 0 :
    Reads (readEach (fun _ => readEntryRecord) 0 b.entries.length) b.entries
      (b.entries.flatMap encodeEntry)).whole rest
  rw [← encodeEntries, ← hrest, ← hr.entriesCount] at hread
  have hoff : r.entries.offset < 2 ^ 63 := by have := hr.entriesEnd; omega
  unfold DNMReader.readAllEntries
  split_ifs with hzero
  · rw [hr.entriesCount, List.length_eq_zero_iff] at hzero
    rw [hzero]
  · rw [seekTo_of_lt _ _ hoff]
    simp only [bind, Except.bind, hread, pure, Except.pure]

/-- The records of a catalog are visited in their order. -/
lemma visitRecords (verb : String) (text : ReadError → String) (visit : σ → FileEntry → σ × Bool)
    {files : List FileEntry} (h : ∀ fe ∈ files, fe.Fits) (total i : ℕ) (s : σ) (rest : Bytes) :
    Manifest.visitRecords verb (nextRecordOf text) visit total i files.length s
      (encodeCatalog files ++ rest) = (visitWhile visit s files, none) := by
  induction files generalizing i s with
  | nil => rfl
  | cons fe files ih =>
    have hcat : encodeCatalog (fe :: files) ++ rest =
        encodeRecord fe ++ (encodeCatalog files ++ rest) := by
      simp [encodeCatalog]
    have hnext := (reads_record (h fe (.head _)) text).whole (encodeCatalog files ++ rest)
    rw [List.length_cons, hcat, Manifest.visitRecords, hnext, visitWhile]
    simp only
    split
    · exact ih (fun fe' hfe => h fe' (.tail _ hfe)) _ _
    · rfl

lemma streamCatalog (hr : r.Holds b) (hb : b.Fits) (visit : σ → FileEntry → σ × Bool) (s : σ) :
    r.streamCatalog visit s = (visitWhile visit s b.fileCatalog, none) := by
  obtain ⟨rest, hrest⟩ := hr.catalogBytes
  unfold DNMReader.streamCatalog
  split_ifs with hzero
  · rw [hr.catalogCount, List.length_eq_zero_iff] at hzero
    rw [hzero]
    rfl
  · rw [seekTo_of_lt _ _ hr.catalogOffset]
    simp only [hrest]
    rw [hr.catalogCount]
    exact visitRecords _ _ visit hb.fileCatalog _ _ s rest

/-- The hashes of the entries are delivered in their order. -/
lemma visitHashes (fn : σ → Hash → σ × Option String) (h : ∀ e ∈ es, e.InRange) (s : σ)
    (rest : Bytes) :
    Manifest.visitHashes fn es.length s (encodeEntries es ++ rest) =
      feedHashes fn s (es.map Entry.chunkHash) := by
  induction es generalizing s with
  | nil => rfl
  | cons e es ih =>
    have hcat : encodeEntries (e :: es) ++ rest = encodeEntry e ++ (encodeEntries es ++ rest) := by
      simp [encodeEntries]
    have hnext := (reads_entryRecord (h e (.head _))).whole (encodeEntries es ++ rest)
    rw [List.length_cons, hcat, Manifest.visitHashes, hnext, List.map_cons, feedHashes]
    simp only
    split
    · rfl
    · exact ih (fun e' he => h e' (.tail _ he)) _

lemma streamChunkHashes (hr : r.Holds b) (hb : b.Fits) (fn : σ → Hash → σ × Option String) (s : σ) :
    r.streamChunkHashes fn s = feedHashes fn s (b.entries.map Entry.chunkHash) := by
  obtain ⟨rest, hrest⟩ := hr.entriesBytes
  have hoff : r.entries.offset < 2 ^ 63 := by have := hr.entriesEnd; omega
  unfold DNMReader.streamChunkHashes
  split_ifs with hzero
  · rw [hr.entriesCount, List.length_eq_zero_iff] at hzero
    rw [hzero]
    rfl
  · rw [seekTo_of_lt _ _ hoff]
    simp only [hrest]
    rw [hr.entriesCount]
    exact visitHashes fn hb.entries s rest

/-- The bytes from entry `i` on, which `EntryAt` and `EntriesRange` seek. -/
lemma seek_entry (hr : r.Holds b) (what : String) (hi : i ≤ b.entries.length) :
    ∃ rest, seekTo what r.file
      (wrapInt64 (ofInt64Bits r.entries.offset + ofInt64Bits i * entryRecordSize)) =
        .ok (encodeEntries (b.entries.drop i) ++ rest) := by
  obtain ⟨rest, hrest⟩ := hr.entriesBytes
  have hend := hr.entriesEnd
  unfold entryRecordSize at hend
  have hoff : wrapInt64 (ofInt64Bits r.entries.offset + ofInt64Bits i * entryRecordSize) =
      (r.entries.offset + i * entryRecordSize : ℕ) := by
    rw [ofInt64Bits_of_lt (by omega), ofInt64Bits_of_lt (by omega)]
    exact_mod_cast wrapInt64_of_lt (n := r.entries.offset + i * entryRecordSize)
      (by unfold entryRecordSize; omega)
  refine ⟨rest, ?_⟩
  rw [hoff, seekTo, if_neg (by omega), Int.toNat_natCast, ← List.drop_drop, hrest,
    List.drop_append_of_le_length
      (by rw [length_encodeEntries]; exact Nat.mul_le_mul_right _ hi),
    drop_encodeEntries]

lemma entryAt (hr : r.Holds b) (hb : b.Fits) (hi : i < b.entries.length) :
    r.entryAt i = .ok (b.entries.get ⟨i, hi⟩) := by
  obtain ⟨rest, hseek⟩ := hr.seek_entry s!"seeking to entry {i}" hi.le
  have hcons : encodeEntries (b.entries.drop i) ++ rest =
      encodeEntry b.entries[i] ++ (encodeEntries (b.entries.drop (i + 1)) ++ rest) := by
    rw [List.drop_eq_getElem_cons hi, encodeEntries, List.flatMap_cons, List.append_assoc]
    rfl
  have hfull :=
    (reads_field (reads_readFull (encodeEntry b.entries[i])) s!"reading entry {i}").whole
    (encodeEntries (b.entries.drop (i + 1)) ++ rest)
  rw [← hcons, length_encodeEntry] at hfull
  have hdecode := decodeEntry_append (hb.entries _ (List.getElem_mem hi)) []
  rw [List.append_nil] at hdecode
  rw [DNMReader.entryAt]
  simp only [hr.entriesCount, if_neg (not_le.2 hi), hseek, bind, Except.bind, hfull, pure,
    Except.pure, hdecode, List.get_eq_getElem]

lemma entriesRange (hr : r.Holds b) (hb : b.Fits) {j : ℕ} (hij : i ≤ j)
    (hj : j ≤ b.entries.length) : r.entriesRange i j = .ok ((b.entries.drop i).take (j - i)) := by
  obtain ⟨rest, hseek⟩ := hr.seek_entry s!"seeking to entry range [{i},{j})" (hij.trans hj)
  have hlen : ((b.entries.drop i).take (j - i)).length = j - i := by
    rw [List.length_take, List.length_drop]
    omega
  have hsplit : encodeEntries (b.entries.drop i) ++ rest =
      encodeEntries ((b.entries.drop i).take (j - i)) ++
        (encodeEntries ((b.entries.drop i).drop (j - i)) ++ rest) := by
    rw [← List.append_assoc, ← encodeEntries_append, List.take_append_drop]
  have hfull := (reads_field (reads_readFull (encodeEntries ((b.entries.drop i).take (j - i))))
    s!"reading entry range [{i},{j})").whole
      (encodeEntries ((b.entries.drop i).drop (j - i)) ++ rest)
  rw [← hsplit, length_encodeEntries, hlen] at hfull
  have hdecode := @decodeEntries_encode ((b.entries.drop i).take (j - i))
    fun e he => hb.entries e (List.mem_of_mem_drop (List.mem_of_mem_take he))
  rw [hlen] at hdecode
  unfold DNMReader.entriesRange
  by_cases hlt : j ≤ i
  · rw [if_pos hlt, Nat.sub_eq_zero_of_le hlt, List.take_zero]
  · rw [if_neg hlt, if_neg (by rw [hr.entriesCount]; omega)]
    simp only [hseek, bind, Except.bind, hfull, pure, Except.pure, hdecode]

/-- **Every reader of a file with the sections of a backup gives it back.** -/
theorem readings (hr : r.Holds b) (hb : b.Fits) {file : Bytes}
    (hopen : openDNMReader file = .ok r) : Readings file b := by
  have hmeta := hr.readMetadata hb
  have hcatalog := hr.readAllCatalog hb
  have hentries := hr.readAllEntries hb
  have hsize := hb.size
  have hcount := length_le_encodeCatalog b.fileCatalog
  refine ⟨?_, ?_, ?_, ?_, r, hopen, ?_, ?_, fun σ visit s => hr.streamCatalog hb visit s,
    fun i hi => hr.entryAt hb hi, fun i j hij hj => hr.entriesRange hb hij hj,
    fun σ fn s => hr.streamChunkHashes hb fn s⟩
  · simp only [loadDNM, hopen, hmeta, hcatalog, hentries, bind, Except.bind, Except.mapError, pure,
      Except.pure]
  · simp only [loadMetadata, hopen, hmeta, bind, Except.bind, Except.mapError]
  · simp only [loadCatalog, hopen, hmeta, hcatalog, bind, Except.bind, Except.mapError, pure,
      Except.pure]
  · simp only [loadForBlockRestore, hopen, hmeta, hentries, bind, Except.bind, Except.mapError,
      pure, Except.pure]
  · rw [DNMReader.catalogCount, hr.catalogCount, ofInt64Bits_of_lt (by omega)]
  · have := hr.entriesEnd
    unfold entryRecordSize at this
    rw [DNMReader.entriesCount, hr.entriesCount, ofInt64Bits_of_lt (by omega)]

end DNMReader.Holds

/-! ## Opening what was written -/

lemma length_encodeHeader (off : ℕ) : (encodeHeader off).length = fileHeaderSize := by
  simp [encodeHeader, dnmMagic, fileHeaderSize]

lemma length_encodeSectionIndex (s : SectionInfo) :
    (encodeSectionIndex s).length = sectionIndexSize := by
  simp [encodeSectionIndex, sectionIndexSize]

/-- The fields of a record of the section index are within their bounds. -/
structure SectionInfo.Fits (s : SectionInfo) : Prop where
  typ : s.typ < 256
  offset : s.offset < 2 ^ 64
  length : s.length < 2 ^ 64
  count : s.count < 2 ^ 64

lemma decodeSectionIndex_encode {s : SectionInfo} (h : s.Fits) :
    decodeSectionIndex (encodeSectionIndex s) = s := by
  obtain ⟨typ, offset, length, count⟩ := s
  have ht : typ < 256 ^ 1 := h.typ
  have ho : offset < 256 ^ 8 := h.offset
  have hl : length < 256 ^ 8 := h.length
  have hc : count < 256 ^ 8 := h.count
  simp [decodeSectionIndex, encodeSectionIndex, fieldAt_skip, fieldAt_le ht, fieldAt_le ho,
    fieldAt_le hl, fieldAt_le hc]

/-- One round of the loop over the section index. -/
lemma readSectionIndex_succ {s : SectionInfo} (h : s.Fits) (i n : ℕ) (r : DNMReader)
    (rest : Bytes) :
    readSectionIndex i (n + 1) r (encodeSectionIndex s ++ rest) =
      readSectionIndex (i + 1) n (r.put s) rest := by
  have hfull := readFull_append (encodeSectionIndex s) rest
  rw [length_encodeSectionIndex] at hfull
  rw [readSectionIndex, hfull]
  simp only
  rw [decodeSectionIndex_encode h]

/-- The fields of a header. -/
lemma header_fields {stored : ℕ} (h : stored < 2 ^ 64) :
    (encodeHeader stored).take 8 = dnmMagic ∧ fieldAt (encodeHeader stored) 8 2 = dnmVersion ∧
      fieldAt (encodeHeader stored) 12 8 = stored ∧
        fieldAt (encodeHeader stored) 20 4 = numSections := by
  have hstored : stored < 256 ^ 8 := h
  refine ⟨rfl, ?_, ?_, ?_⟩
  · simp [encodeHeader, dnmMagic, fieldAt_le, dnmVersion]
  · simp [encodeHeader, dnmMagic, fieldAt_skip, fieldAt_le hstored]
  · simp [encodeHeader, dnmMagic, fieldAt_skip, fieldAt_le, numSections]

/-- The section index of a file. -/
def indexBytes (m c e : SectionInfo) : Bytes :=
  encodeSectionIndex m ++ (encodeSectionIndex c ++ encodeSectionIndex e)

lemma length_indexBytes (m c e : SectionInfo) :
    (indexBytes m c e).length = numSections * sectionIndexSize := by
  simp [indexBytes, length_encodeSectionIndex, numSections, sectionIndexSize]

/-- A section of a file, at the place its record gives. -/
structure SectionAt (file : Bytes) (s : SectionInfo) (typ : ℕ) (data : Bytes) (count : ℕ) :
    Prop where
  typ : s.typ = typ
  length : s.length = data.length
  count : s.count = count
  bytes : ∃ pre rest, file = pre ++ (data ++ rest) ∧ s.offset = pre.length

/-- A file with a header and the sections of a backup, and the index where the header or the trailer
says. -/
structure Laid (b : FullBackup) (file : Bytes) (m c e : SectionInfo) : Prop where
  size : file.length < 2 ^ 63
  index : ∃ stored tail pre rest, file = encodeHeader stored ++ tail ∧ stored < 2 ^ 64 ∧
    locateIndex file stored numSections = .ok pre.length ∧ file = pre ++ (indexBytes m c e ++ rest)
  metadata : SectionAt file m sectionMetadata (encodeMetadata b.metadata) 1
  catalog : SectionAt file c sectionCatalog (encodeCatalog b.fileCatalog) b.fileCatalog.length
  entries : SectionAt file e sectionEntries (encodeEntries b.entries) b.entries.length

namespace SectionAt

variable {file data : Bytes} {s : SectionInfo} {typ count : ℕ}

lemma drop (h : SectionAt file s typ data count) : ∃ rest, file.drop s.offset = data ++ rest := by
  obtain ⟨pre, rest, rfl, hoffset⟩ := h.bytes
  exact ⟨rest, by rw [hoffset, List.drop_left]⟩

lemma le_length (h : SectionAt file s typ data count) : s.offset + data.length ≤ file.length := by
  obtain ⟨pre, rest, rfl, hoffset⟩ := h.bytes
  rw [hoffset, List.length_append, List.length_append]
  omega

lemma fits (h : SectionAt file s typ data count) (hsize : file.length < 2 ^ 63) (htyp : typ < 256)
    (hcount : count < 2 ^ 64) : s.Fits := by
  have := h.le_length
  exact ⟨h.typ ▸ htyp, by omega, by rw [h.length]; omega, h.count ▸ hcount⟩

end SectionAt

namespace Laid

variable {b : FullBackup} {file : Bytes} {m c e : SectionInfo}

/-- The records of the section index are within their bounds. -/
lemma fits (h : Laid b file m c e) : m.Fits ∧ c.Fits ∧ e.Fits := by
  have hsize := h.size
  have hc := h.catalog.le_length
  have he := h.entries.le_length
  have hfiles := length_le_encodeCatalog b.fileCatalog
  rw [length_encodeEntries] at he
  unfold entryRecordSize at he
  exact ⟨h.metadata.fits hsize (by decide) (by norm_num),
    h.catalog.fits hsize (by decide) (by omega), h.entries.fits hsize (by decide) (by omega)⟩

/-- **A file of a writer opens on sections that hold the backup.** -/
lemma opens (h : Laid b file m c e) :
    openDNMReader file = .ok ⟨file, m, c, e⟩ ∧ (⟨file, m, c, e⟩ : DNMReader).Holds b := by
  have hsize := h.size
  have hends := And.intro h.metadata.le_length (And.intro h.catalog.le_length h.entries.le_length)
  refine ⟨?_, by simp only; omega, h.metadata.length, h.metadata.drop, by simp only; omega,
    h.catalog.count, h.catalog.drop, ?_, h.entries.count, h.entries.drop⟩
  · obtain ⟨stored, tail, pre, rest, hfile, hstored, hloc, hidx⟩ := h.index
    obtain ⟨hm, hc, he⟩ := h.fits
    obtain ⟨hmagic, hversion, hoffset, hcount⟩ := header_fields hstored
    have hhdr : field "reading dnm header" (readFull fileHeaderSize) file =
        .ok (encodeHeader stored, tail) := by
      have := (reads_field (reads_readFull (encodeHeader stored)) "reading dnm header").whole tail
      rwa [length_encodeHeader, ← hfile] at this
    have hscan : readSectionIndex 0 numSections (DNMReader.empty file)
        (indexBytes m c e ++ rest) = .ok ⟨file, m, c, e⟩ := by
      rw [indexBytes, List.append_assoc, List.append_assoc, numSections, readSectionIndex_succ hm,
        readSectionIndex_succ hc, readSectionIndex_succ he, readSectionIndex]
      simp [DNMReader.put, DNMReader.empty, h.metadata.typ, h.catalog.typ, h.entries.typ,
        sectionMetadata, sectionCatalog, sectionEntries]
    have hoff : pre.length < 2 ^ 63 := by
      have := congrArg List.length hidx
      rw [List.length_append] at this
      omega
    have hdrop : file.drop pre.length = indexBytes m c e ++ rest := by
      rw [hidx, List.drop_left]
    rw [openDNMReader]
    simp only [hhdr, bind, Except.bind, hmagic, hversion, hoffset, hcount, ne_eq,
      not_true_eq_false, if_false, hloc, seekTo_of_lt _ file hoff, hdrop, hscan]
  · have := length_encodeEntries b.entries
    simp only
    omega

end Laid

/-! ## The batch writer -/

/-- What a batch run is given: the catalog and the entries, each in memory or in a sidecar. -/
structure BatchSource (b given : FullBackup) (catalogSidecar entriesSidecar : Option Bytes) :
    Prop where
  metadata : given.metadata = b.metadata
  fileCatalog : (catalogSidecar = none ∧ given.fileCatalog = b.fileCatalog) ∨
    catalogSidecar = some (writeCatalogSidecar b.fileCatalog)
  entries : (given.entries = b.entries ∧ (b.entries = [] → entriesSidecar = none)) ∨
    (given.entries = [] ∧ entriesSidecar = some (encodeEntries b.entries))

lemma BatchSource.writeEntriesSection (h : BatchSource b given catalogSidecar entriesSidecar) :
    writeEntriesSection given.entries entriesSidecar =
      (b.entries.length, encodeEntries b.entries) := by
  unfold Manifest.writeEntriesSection
  obtain ⟨hgiven, hnone⟩ | ⟨hgiven, hside⟩ := h.entries
  · rw [hgiven]
    by_cases hempty : b.entries = []
    · rw [if_neg (not_not.2 hempty), hnone hempty, hempty]
      rfl
    · rw [if_pos hempty]
  · rw [hgiven, if_neg (not_not.2 rfl), hside]
    simp only
    rw [length_encodeEntries, Nat.mul_div_cancel _ (by decide)]

/-- What the batch writer writes. -/
lemma BatchSource.writeDNM (h : BatchSource b given catalogSidecar entriesSidecar)
    (hcount : b.fileCatalog.length < 2 ^ 64) :
    let metaBytes := encodeMetadata b.metadata
    let catalogBytes := encodeCatalog b.fileCatalog
    let entriesBytes := encodeEntries b.entries
    let catalogOffset := fileHeaderSize + metaBytes.length
    let entriesOffset := catalogOffset + catalogBytes.length
    Manifest.writeDNM given catalogSidecar entriesSidecar =
      .ok (encodeHeader (entriesOffset + entriesBytes.length) ++
        (metaBytes ++ (catalogBytes ++ (entriesBytes ++
          indexBytes ⟨sectionMetadata, fileHeaderSize, metaBytes.length, 1⟩
            ⟨sectionCatalog, catalogOffset, catalogBytes.length, b.fileCatalog.length⟩
            ⟨sectionEntries, entriesOffset, entriesBytes.length, b.entries.length⟩)))) := by
  have hentries := h.writeEntriesSection
  have hcatalog : writeCatalogSection given.fileCatalog catalogSidecar =
      .ok (b.fileCatalog.length, encodeCatalog b.fileCatalog) := by
    obtain ⟨rfl, hcat⟩ | rfl := h.fileCatalog
    · rw [hcat]
      rfl
    · rw [writeCatalogSection, streamCatalogSidecar_write hcount]
      rfl
  unfold Manifest.writeDNM
  rw [hentries, h.metadata]
  simp only [hcatalog, bind, Except.bind, pure, Except.pure]
  simp [indexBytes]

/-- The file of the batch writer. -/
lemma BatchSource.laid (h : BatchSource b given catalogSidecar entriesSidecar) (hb : b.Fits) :
    ∃ file m c e, Manifest.writeDNM given catalogSidecar entriesSidecar = .ok file ∧
      Laid b file m c e := by
  have hsize := hb.size
  have hfiles := length_le_encodeCatalog b.fileCatalog
  refine ⟨_, ⟨sectionMetadata, fileHeaderSize, (encodeMetadata b.metadata).length, 1⟩,
    ⟨sectionCatalog, _, (encodeCatalog b.fileCatalog).length, b.fileCatalog.length⟩,
    ⟨sectionEntries, _, (encodeEntries b.entries).length, b.entries.length⟩,
      h.writeDNM (by omega), ?_,
    ⟨_, _, encodeHeader _ ++ (encodeMetadata b.metadata ++ (encodeCatalog b.fileCatalog ++
      encodeEntries b.entries)), [], rfl, ?_, (if_pos ?_).trans ?_,
      by simp only [List.append_assoc, List.append_nil]; rfl⟩,
    ⟨rfl, rfl, rfl, encodeHeader _, _, rfl, (length_encodeHeader _).symm⟩,
    ⟨rfl, rfl, rfl, encodeHeader _ ++ encodeMetadata b.metadata, _,
      (List.append_assoc ..).symm, ?_⟩,
    ⟨rfl, rfl, rfl, encodeHeader _ ++ (encodeMetadata b.metadata ++ encodeCatalog b.fileCatalog), _,
      by simp only [List.append_assoc]; rfl, ?_⟩⟩
  · simp only [List.length_append, length_encodeHeader, length_indexBytes]
    omega
  · omega
  · unfold fileHeaderSize
    omega
  all_goals simp [length_encodeHeader, Nat.add_assoc]

/-! ## The streaming writer -/

/-- What a streamer has taken so far, handed out or in its buffer. -/
structure DNMStreamer.Took (d : DNMStreamer) (es : List Entry) : Prop where
  bytes : d.sent.flatten ++ d.buf = encodeHeader 0 ++ encodeEntries es
  entriesLen : d.entriesLen = (encodeEntries es).length
  count : d.count = es.length
  finished : d.finished = false

/-- One more entry, whether or not it fills the window. -/
lemma DNMStreamer.Took.writeEntry {d : DNMStreamer} (h : d.Took es) (e : Entry) :
    ∃ d', d.writeEntry e false = .ok d' ∧ d'.Took (es ++ [e]) := by
  have hbytes : d.sent.flatten ++ (d.buf ++ encodeEntry e) =
      encodeHeader 0 ++ encodeEntries (es ++ [e]) := by
    rw [← List.append_assoc, h.bytes, List.append_assoc, encodeEntries_snoc]
  have hlen : d.entriesLen + entryRecordSize = (encodeEntries (es ++ [e])).length := by
    rw [encodeEntries_snoc, List.length_append, length_encodeEntry, h.entriesLen]
  have hcount : d.count + 1 = (es ++ [e]).length := by
    rw [List.length_append, h.count]
    rfl
  unfold DNMStreamer.writeEntry
  simp only [h.finished, Bool.false_eq_true, if_false]
  split
  · refine ⟨_, rfl, ?_, hlen, hcount, rfl⟩
    simpa [List.append_assoc] using hbytes
  · exact ⟨_, rfl, hbytes, hlen, hcount, rfl⟩

lemma DNMStreamer.Took.writeEntries {d : DNMStreamer} (h : d.Took es) (es' : List Entry) :
    ∃ d', es'.foldlM (fun d e => DNMStreamer.writeEntry d e false) d = .ok d' ∧
      d'.Took (es ++ es') := by
  induction es' generalizing d es with
  | nil => exact ⟨d, rfl, by rwa [List.append_nil]⟩
  | cons e es' ih =>
    obtain ⟨d', hd', htook⟩ := h.writeEntry e
    obtain ⟨d'', hd'', htook'⟩ := ih htook
    refine ⟨d'', ?_, by rwa [List.append_assoc] at htook'⟩
    rw [List.foldlM_cons, hd']
    exact hd''

/-- What the streaming writer hands out, whatever its window. -/
lemma streamDNM_eq (window : ℤ) (b : FullBackup) :
    let metaBytes := encodeMetadata b.metadata
    let catalogBytes := encodeCatalog b.fileCatalog
    let entriesBytes := encodeEntries b.entries
    let metaOffset := fileHeaderSize + entriesBytes.length
    let catalogOffset := metaOffset + metaBytes.length
    streamDNM window b =
      .ok (encodeHeader 0 ++ (entriesBytes ++ (metaBytes ++ (catalogBytes ++
        (indexBytes ⟨sectionMetadata, metaOffset, metaBytes.length, 1⟩
          ⟨sectionCatalog, catalogOffset, catalogBytes.length, b.fileCatalog.length⟩
          ⟨sectionEntries, fileHeaderSize, entriesBytes.length, b.entries.length⟩ ++
            le 8 (catalogOffset + catalogBytes.length)))))) := by
  have hnew : (newDNMStreamer window).Took [] := ⟨by simp [newDNMStreamer], rfl, rfl, rfl⟩
  obtain ⟨d, hd, htook⟩ := hnew.writeEntries b.entries
  have hbytes := htook.bytes
  simp only
  rw [streamDNM, hd]
  simp only [bind, Except.bind, DNMStreamer.finish, htook.finished, Bool.false_eq_true, if_false,
    ne_eq, not_true_eq_false, pure, Except.pure, htook.entriesLen, htook.count,
    List.flatten_append, List.flatten_cons, List.flatten_nil, List.append_nil]
  rw [← List.append_assoc d.sent.flatten, hbytes, List.append_assoc]
  rfl

/-- The trailer gives the offset of the index that it stands behind. -/
lemma locateIndex_trailer {file pre idx : Bytes} {off : ℕ}
    (hfile : file = pre ++ (idx ++ le 8 off)) (hoff : pre.length = off)
    (hidx : idx.length = numSections * sectionIndexSize) (hsize : file.length < 2 ^ 63) :
    locateIndex file 0 numSections = .ok pre.length := by
  have hlen : file.length = pre.length + idx.length + 8 := by simp [hfile, Nat.add_assoc]
  have htrailer : fieldAt file (file.length - 8) 8 = off := by
    rw [hlen, hfile, fieldAt_right (k := idx.length) (by omega), fieldAt_right (k := 0) (by omega)]
    have := fieldAt_le (w := 8) (n := off) (by norm_num; omega) []
    rwa [List.append_nil] at this
  have hwant : int64Bits ((file.length : ℤ) - 8 - numSections * sectionIndexSize) = off := by
    unfold int64Bits
    omega
  unfold locateIndex
  simp only [htrailer, hwant]
  simp [hoff]

/-- The file of the streaming writer. -/
lemma streamDNM_laid (hb : b.Fits) (window : ℤ) :
    ∃ file m c e, streamDNM window b = .ok file ∧ Laid b file m c e := by
  have hsize := hb.size
  refine ⟨_, ⟨sectionMetadata, _, (encodeMetadata b.metadata).length, 1⟩,
    ⟨sectionCatalog, _, (encodeCatalog b.fileCatalog).length, b.fileCatalog.length⟩,
    ⟨sectionEntries, fileHeaderSize, (encodeEntries b.entries).length, b.entries.length⟩,
    streamDNM_eq window b, ?_, ⟨0, _, encodeHeader 0 ++ (encodeEntries b.entries ++
      (encodeMetadata b.metadata ++ encodeCatalog b.fileCatalog)), _, rfl, by norm_num, ?_,
      by simp only [List.append_assoc]; rfl⟩,
    ⟨rfl, rfl, rfl, encodeHeader 0 ++ encodeEntries b.entries, _, (List.append_assoc ..).symm, ?_⟩,
    ⟨rfl, rfl, rfl, encodeHeader 0 ++ (encodeEntries b.entries ++ encodeMetadata b.metadata), _,
      by simp only [List.append_assoc]; rfl, ?_⟩,
    ⟨rfl, rfl, rfl, encodeHeader 0, _, rfl, (length_encodeHeader 0).symm⟩⟩
  · simp only [List.length_append, length_encodeHeader, length_indexBytes, length_le]
    omega
  · refine locateIndex_trailer (by simp only [List.append_assoc]; rfl) ?_
      (length_indexBytes _ _ _) ?_
    · simp [length_encodeHeader, Nat.add_assoc]
    · simp only [List.length_append, length_encodeHeader, length_indexBytes, length_le]
      omega
  all_goals simp [length_encodeHeader, Nat.add_assoc]

/-- **What either writer wrote, every reader gives back.** For a backup within the bounds of the
format, the batch writer, from memory or from sidecars, and the streaming writer, with any window,
write files from which every reader gives back the same metadata, entries and catalog. -/
theorem written_readings (b : FullBackup) (hb : b.Fits) :
    (∀ given catalogSidecar entriesSidecar, BatchSource b given catalogSidecar entriesSidecar →
      ∃ file, writeDNM given catalogSidecar entriesSidecar = .ok file ∧ Readings file b) ∧
    (∀ window, ∃ file, streamDNM window b = .ok file ∧ Readings file b) := by
  refine ⟨fun given catalogSidecar entriesSidecar hsource => ?_, fun window => ?_⟩
  · obtain ⟨file, m, c, e, hwrite, hlaid⟩ := hsource.laid hb
    exact ⟨file, hwrite, hlaid.opens.2.readings hb hlaid.opens.1⟩
  · obtain ⟨file, m, c, e, hwrite, hlaid⟩ := streamDNM_laid hb window
    exact ⟨file, hwrite, hlaid.opens.2.readings hb hlaid.opens.1⟩

/-- A backup of one chunk and one file, with inline data. -/
def oneFileBackup : FullBackup where
  metadata := digestedMetadata
  entries := [⟨0, Hash.zero, 3, false⟩]
  fileCatalog :=
    [{ path := [97], sourceIndex := 0, size := 3, mode := 420, modTime := some 0, isDir := false,
       isSymlink := false, unchanged := false, isExcluded := true, linkTarget := [],
       streamOffset := 0, streamLength := 3, contentHash := Hash.zero, dataBackupID := [],
       volumeExtents := [⟨0, 4096, 3⟩], inlineData := [1, 2, 3] }]

lemma oneFileBackup_fits : oneFileBackup.Fits where
  metadata := digestedMetadata_fits
  entries e he := by
    obtain rfl := List.mem_singleton.1 he
    exact ⟨by decide, by decide, by decide⟩
  fileCatalog fe hfe := by
    obtain rfl := List.mem_singleton.1 hfe
    refine ⟨?_, by decide +kernel⟩
    constructor
    case modTime =>
      rintro nano ⟨⟩
      decide
    case volumeExtents =>
      intro ext hext
      obtain rfl := List.mem_singleton.1 hext
      exact ⟨by decide, by decide, by decide⟩
    all_goals decide +kernel
  size := by decide +kernel

/-- The file of `oneFileBackup` loads, written by either writer. -/
theorem written_readings_oneFile :
    (∃ file, writeDNM oneFileBackup none none = .ok file ∧ Readings file oneFileBackup) ∧
      ∃ file, streamDNM 40 oneFileBackup = .ok file ∧ Readings file oneFileBackup := by
  obtain ⟨hbatch, hstream⟩ := written_readings oneFileBackup oneFileBackup_fits
  refine ⟨hbatch oneFileBackup none none ⟨rfl, .inl ⟨rfl, rfl⟩, .inl ⟨rfl, fun _ => rfl⟩⟩,
    hstream 40⟩

end DiskNexus.Manifest
