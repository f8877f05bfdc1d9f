import DiskNexus.Index.Entry

/-!
# The entries sidecar

A backup writes one record for each chunk to the entries sidecar, through a buffer of one megabyte.
`Sync` and `Len` empty the buffer. A resumed backup cuts the file down to the length of its
checkpoint and appends to it.

## Main results

`readEntries_encode`, `written_writeEntry`
-/

namespace DiskNexus.Manifest

open Binary Sha256 Index

/-- `manifest.Entry`. -/
structure Entry where
  volumeOffset : ℤ
  chunkHash : Hash
  chunkLength : ℕ
  isExcluded : Bool
  deriving DecidableEq

/-- `EntryRecordSize`. -/
def entryRecordSize : ℕ := 45

/-- The bits of an `int64`. -/
def int64Bits (n : ℤ) : ℕ := (n % 2 ^ 64).toNat

/-- The `int64` with the given bits. -/
def ofInt64Bits (n : ℕ) : ℤ := if n < 2 ^ 63 then n else n - 2 ^ 64

/-- The record of an entry. -/
def encodeEntry (e : Entry) : Bytes :=
  le 8 (int64Bits e.volumeOffset) ++ (e.chunkHash.val ++ (le 4 e.chunkLength ++
    [if e.isExcluded then 1 else 0]))

/-- The entry of a record. -/
def decodeEntry (buf : Bytes) : Entry where
  volumeOffset := ofInt64Bits (fieldAt buf 0 8)
  chunkHash := hashOf (buf.drop 8)
  chunkLength := fieldAt buf 40 4
  isExcluded := buf.getD 44 0 ≠ 0

/-- The records of entries. -/
def encodeEntries (es : List Entry) : Bytes := es.flatMap encodeEntry

/-- The loop of `ReadEntries`, for the given number of records. -/
def decodeEntries : ℕ → Bytes → List Entry
  | 0, _ => []
  | n + 1, buf => decodeEntry buf :: decodeEntries n (buf.drop entryRecordSize)

/-- `ReadEntries`: a partial record at the end is an error. -/
def readEntries (file : Bytes) : Except String (List Entry) :=
  if file.length % entryRecordSize ≠ 0 then .error "reading entry record: unexpected EOF"
  else .ok (decodeEntries (file.length / entryRecordSize) file)

/-! ## The writer -/

/-- `EntryWriter`. -/
structure EntryWriter where
  file : Bytes
  buf : Bytes
  deriving DecidableEq

/-- The size of the write buffer. -/
def bufferSize : ℕ := 2 ^ 20

namespace EntryWriter

/-- `OpenEntryWriter`: create the sidecar, or empty it. -/
def create : EntryWriter := ⟨[], []⟩

/-- `WriteEntry`: a record that does not fit fills the buffer and starts the next one. -/
def writeEntry (w : EntryWriter) (e : Entry) : EntryWriter :=
  let record := encodeEntry e
  let avail := bufferSize - w.buf.length
  if record.length ≤ avail then { w with buf := w.buf ++ record }
  else ⟨w.file ++ (w.buf ++ record.take avail), record.drop avail⟩

/-- `Sync`, `Len` and `Close` all empty the buffer. -/
def flush (w : EntryWriter) : EntryWriter := ⟨w.file ++ w.buf, []⟩

/-- `ReadAt` of `n` bytes. -/
def readAt (w : EntryWriter) (n off : ℕ) : Bytes := (w.file.drop off).take n

/-- All that was written. -/
def written (w : EntryWriter) : Bytes := w.file ++ w.buf

end EntryWriter

/-- `OpenEntryWriterResume`: cut the sidecar down to a length. -/
def openEntryWriterResume (entries : Option Bytes) (wantLen : ℤ) : Except String EntryWriter :=
  if wantLen < 0 ∨ wantLen % entryRecordSize ≠ 0 then
    .error s!"resume entries length {wantLen} is not a multiple of {entryRecordSize}"
  else
    match entries with
    | none => .error "reopening entries file for resume"
    | some file =>
      let size := file.length
      if (size : ℤ) < wantLen then
        .error (s!"entries sidecar is {size} bytes but checkpoint expects >= {wantLen}; " ++
          "refusing to zero-extend")
      else .ok ⟨file.take wantLen.toNat, []⟩

/-- The fields of `manifest.Backup` that restore and verify read, with its entries. -/
structure Backup where
  backupID : String
  totalBytes : ℤ
  totalChunks : ℕ
  uniqueChunks : ℕ
  dedupChunks : ℕ
  rawBytes : ℕ
  storedBytes : ℕ
  contentDigest : Option Hash
  entries : Bytes
  deriving DecidableEq

/-! ## Records -/

lemma length_encodeEntry (e : Entry) : (encodeEntry e).length = entryRecordSize := by
  simp [encodeEntry, e.chunkHash.2, entryRecordSize]

lemma length_encodeEntries (es : List Entry) :
    (encodeEntries es).length = es.length * entryRecordSize := by
  simp [encodeEntries, List.length_flatMap, length_encodeEntry]

@[simp] lemma encodeEntries_nil : encodeEntries [] = [] := rfl

lemma encodeEntries_append (es es' : List Entry) :
    encodeEntries (es ++ es') = encodeEntries es ++ encodeEntries es' := by
  simp [encodeEntries]

lemma encodeEntries_snoc (es : List Entry) (e : Entry) :
    encodeEntries (es ++ [e]) = encodeEntries es ++ encodeEntry e := by
  simp [encodeEntries]

/-- The fields of an entry are in range of the record. -/
structure Entry.InRange (e : Entry) : Prop where
  offset_ge : -2 ^ 63 ≤ e.volumeOffset
  offset_lt : e.volumeOffset < 2 ^ 63
  length_lt : e.chunkLength < 2 ^ 32

lemma ofInt64Bits_int64Bits {n : ℤ} (h : -2 ^ 63 ≤ n) (h' : n < 2 ^ 63) :
    ofInt64Bits (int64Bits n) = n := by
  unfold ofInt64Bits int64Bits
  have hmod : 0 ≤ n % 2 ^ 64 := Int.emod_nonneg _ (by norm_num)
  split <;> omega

lemma int64Bits_lt (n : ℤ) : int64Bits n < 256 ^ 8 := by
  unfold int64Bits
  omega

/-- A record reads back, whatever follows it. -/
lemma decodeEntry_append {e : Entry} (he : e.InRange) (rest : Bytes) :
    decodeEntry (encodeEntry e ++ rest) = e := by
  obtain ⟨offset, ⟨hash, hlen⟩, len, excluded⟩ := e
  have hlength : len < 256 ^ 4 := he.length_lt
  have hoffset := ofInt64Bits_int64Bits he.offset_ge he.offset_lt
  cases excluded <;>
    simp [decodeEntry, encodeEntry, hashOf, fieldAt_skip, fieldAt_le (int64Bits_lt offset),
      fieldAt_le hlength, hlen, hoffset, List.getElem?_append]

/-- **Entries in range read back.** -/
theorem readEntries_encode {es : List Entry} (h : ∀ e ∈ es, e.InRange) :
    readEntries (encodeEntries es) = .ok es := by
  have hlen := length_encodeEntries es
  rw [readEntries, if_neg (by rw [hlen, Nat.mul_mod_left]; simp), hlen,
    Nat.mul_div_cancel _ (by decide)]
  clear hlen
  congr 1
  induction es with
  | nil => rfl
  | cons e es ih =>
    have hcons : encodeEntries (e :: es) = encodeEntry e ++ encodeEntries es := by
      simp [encodeEntries]
    rw [List.length_cons, decodeEntries, hcons, decodeEntry_append (h e (.head _)),
      List.drop_left' (length_encodeEntry e), ih fun e' he' => h e' (.tail _ he')]

/-! ## What the writer has written -/

lemma written_writeEntry (w : EntryWriter) (e : Entry) :
    (w.writeEntry e).written = w.written ++ encodeEntry e := by
  unfold EntryWriter.writeEntry EntryWriter.written
  simp only
  split
  · simp
  · simp only [List.append_assoc, List.take_append_drop]

lemma written_flush (w : EntryWriter) : w.flush.written = w.written := by
  simp [EntryWriter.flush, EntryWriter.written]

lemma file_flush (w : EntryWriter) : w.flush.file = w.written := rfl

/-- The file only grows. -/
lemma file_isPrefix_writeEntry (w : EntryWriter) (e : Entry) :
    w.file <+: (w.writeEntry e).file := by
  unfold EntryWriter.writeEntry
  simp only
  split
  · exact List.prefix_rfl
  · exact List.prefix_append _ _

/-- What a resume takes over. -/
lemma openEntryWriterResume_ok {entries : Option Bytes} {wantLen : ℤ} {w : EntryWriter}
    (h : openEntryWriterResume entries wantLen = .ok w) :
    ∃ file, entries = some file ∧ 0 ≤ wantLen ∧ wantLen % entryRecordSize = 0 ∧
      wantLen ≤ file.length ∧ w = ⟨file.take wantLen.toNat, []⟩ := by
  unfold openEntryWriterResume at h
  split at h
  · cases h
  · rename_i hlen
    obtain ⟨hpos, hmod⟩ := not_or.1 hlen
    split at h
    · cases h
    · rename_i file
      simp only at h
      split at h
      · cases h
      · cases h
        exact ⟨file, rfl, by omega, not_not.1 hmod, by omega, rfl⟩

end DiskNexus.Manifest
