import DiskNexus.Index.Dedup
import DiskNexus.Lib.Overwrite
import DiskNexus.Manifest.Entries
import DiskNexus.Store.ChunkStore

/-!
# Restoring a backup

`RestoreEntries` writes a backup to a target in two passes. The first one writes zeros for the
regions that were excluded, and looks up where the chunks of the others lie. The second one reads,
checks and writes the chunks in the order of these places.

## Main results

`restoreEntries_file`, `restoreEntries_tiles`
-/

namespace DiskNexus.Restore

open Binary Sha256 Store Index Overwrite
open Manifest (Entry Backup)

/-- `Restorer`. -/
structure Restorer where
  index : DedupIndex
  store : ChunkStore
  normalizer : Option (Bytes → Bytes)

/-- `Target`: what a restore writes to. -/
structure Target (τ : Type) where
  truncate : τ → ℤ → Except String τ
  writeAt : τ → Bytes → ℤ → Except String τ
  sync : τ → Except String τ

/-- `EntryAccessor`. -/
structure EntryAccessor where
  count : ℕ
  entryAt : ℕ → Except String Entry
  range : ℕ → ℕ → Except String (List Entry)

/-- `sliceEntryAccessor`. -/
def sliceEntryAccessor (entries : List Entry) : EntryAccessor where
  count := entries.length
  entryAt i :=
    match entries[i]? with
    | none =>
      let n := entries.length
      .error s!"entry index {i} out of range [0, {n})"
    | some e => .ok e
  range start stop :=
    let n := entries.length
    if n < stop ∨ stop < start then
      .error s!"entry range [{start}, {stop}) out of bounds [0, {n})"
    else .ok ((entries.drop start).take (stop - start))

/-- `chunkRef`. -/
structure ChunkRef where
  entryIdx : ℕ
  pack : UInt32
  off : UInt64
  deriving DecidableEq

/-- `RestoreResult`. -/
structure RestoreResult where
  totalChunks : ℕ
  restoredChunks : ℕ
  excludedChunks : ℕ
  bytesWritten : ℕ
  deriving DecidableEq

/-- Where a restore looks at its context: before a batch, and before a reference. -/
inductive Look
  | batch (lo : ℕ)
  | ref (n : ℕ)
  deriving DecidableEq

/-- What a restore has at hand. -/
structure Pass (τ : Type) where
  target : τ
  result : RestoreResult
  refs : List ChunkRef

/-- `entryBatch`. -/
def entryBatch : ℕ := 2 ^ 16

/-- A digit of a hexadecimal number. -/
def hexDigit (n : ℕ) : Char := ("0123456789abcdef".toList).getD n '0'

/-- The first eight bytes of a hash, as the messages show them. -/
def shortHex (h : Hash) : String :=
  String.ofList ((h.val.take 8).flatMap fun b => [hexDigit (b.toNat / 16), hexDigit (b.toNat % 16)])

section Code

variable {τ : Type} (R : Restorer) (cancelled : Look → Bool) (ea : EntryAccessor) (T : Target τ)

/-! ## The first pass -/

/-- The first pass on entry `i`. An error comes with the target it leaves. -/
def collectEntry (i : ℕ) (entry : Entry) (p : Pass τ) : Except (String × τ) (Pass τ) :=
  if entry.isExcluded then
    match T.writeAt p.target (List.replicate entry.chunkLength 0) entry.volumeOffset with
    | .error e =>
      let offset := entry.volumeOffset
      .error (s!"writing zeros at offset {offset}: {e}", p.target)
    | .ok target => .ok { p with
        target := target
        result := { p.result with
          excludedChunks := p.result.excludedChunks + 1
          bytesWritten := p.result.bytesWritten + entry.chunkLength } }
  else
    match R.index.lookupDirect entry.chunkHash with
    | none =>
      let hash := shortHex entry.chunkHash
      .error (s!"chunk {i} not found in index (hash {hash})", p.target)
    | some e => .ok { p with refs := p.refs ++ [⟨i, e.packNumber, e.storeOffset⟩] }

/-- The entries of one batch, numbered from `i`. -/
def collectBatch : ℕ → List Entry → Pass τ → Except (String × τ) (Pass τ)
  | _, [], p => .ok p
  | i, entry :: entries, p =>
    match collectEntry R T i entry p with
    | .error e => .error e
    | .ok p => collectBatch (i + 1) entries p

/-- The loop over the batches, from the entry `lo` on. Every round takes an entry at least. -/
def collectRefs : ℕ → ℕ → Pass τ → Except (String × τ) (Pass τ)
  | 0, _, p => .ok p
  | fuel + 1, lo, p =>
    if lo < ea.count then
      if cancelled (.batch lo) then .error ("context canceled", p.target)
      else
        let hi := min (lo + entryBatch) ea.count
        match ea.range lo hi with
        | .error e => .error (s!"reading entries [{lo},{hi}): {e}", p.target)
        | .ok batch =>
          match collectBatch R T lo batch p with
          | .error e => .error e
          | .ok p => collectRefs fuel (lo + entryBatch) p
    else .ok p

/-! ## The second pass -/

/-- The order of the second pass: by pack, and by offset within a pack. -/
def ChunkRef.before (a b : ChunkRef) : Bool :=
  if a.pack ≠ b.pack then a.pack < b.pack else a.off ≤ b.off

/-- The second pass on one reference. -/
def restoreRef (ref : ChunkRef) (p : τ × RestoreResult) : Except (String × τ) (τ × RestoreResult) :=
  let i := ref.entryIdx
  match ea.entryAt i with
  | .error e => .error (s!"reading entry {i}: {e}", p.1)
  | .ok entry =>
    match R.store.retrieve ref.pack.toNat ref.off.toNat with
    | .error e =>
      let pack := ref.pack
      let off := ref.off
      .error (s!"retrieving chunk {i} from pack {pack} offset {off}: {e}", p.1)
    | .ok data =>
      let actualHash := sum256 (identityHashInput R.normalizer data)
      let size := data.length
      let length := entry.chunkLength
      if actualHash ≠ entry.chunkHash then
        let expected := shortHex entry.chunkHash
        let actual := shortHex actualHash
        .error (s!"chunk {i} integrity error: expected {expected}, got {actual}", p.1)
      else if size ≠ length then
        .error (s!"chunk {i} size mismatch: expected {length}, got {size}", p.1)
      else
        match T.writeAt p.1 data entry.volumeOffset with
        | .error e =>
          let offset := entry.volumeOffset
          .error (s!"writing chunk {i} at offset {offset}: {e}", p.1)
        | .ok target => .ok (target, { p.2 with
            restoredChunks := p.2.restoredChunks + 1
            bytesWritten := p.2.bytesWritten + size })

/-- The loop over the references, numbered from `n`. -/
def restoreRefs : ℕ → List ChunkRef → τ × RestoreResult →
    Except (String × τ) (τ × RestoreResult)
  | _, [], p => .ok p
  | n, ref :: refs, p =>
    if cancelled (.ref n) then .error ("context canceled", p.1)
    else
      match restoreRef R ea T ref p with
      | .error e => .error e
      | .ok p => restoreRefs (n + 1) refs p

/-- `RestoreEntries`. -/
def restoreEntries (backup : Backup) (target : τ) : Except (String × τ) (RestoreResult × τ) :=
  let name := backup.backupID
  let total := backup.totalBytes
  if ea.count = 0 ∧ total > 0 then
    .error ((s!"backup {name} has no chunk entries but claims {total} bytes; its entries are " ++
      "missing or corrupt (try 'index --rebuild-all' or re-import)"), target)
  else
    match T.truncate target total with
    | .error e => .error (s!"truncating target to {total} bytes: {e}", target)
    | .ok target =>
      match collectRefs R cancelled ea T ea.count 0 ⟨target, ⟨ea.count, 0, 0, 0⟩, []⟩ with
      | .error e => .error e
      | .ok p =>
        match restoreRefs R cancelled ea T 0 (p.refs.mergeSort ChunkRef.before)
            (p.target, p.result) with
        | .error e => .error e
        | .ok (target, result) =>
          match T.sync target with
          | .error e => .error (s!"syncing target: {e}", target)
          | .ok target => .ok (result, target)

/-- `Restore`: the entries of the backup in memory. -/
def restore (backup : Backup) (target : τ) : Except (String × τ) (RestoreResult × τ) :=
  match Manifest.readEntries backup.entries with
  | .error e => .error (e, target)
  | .ok entries => restoreEntries R cancelled (sliceEntryAccessor entries) T backup target

end Code

/-- A file as the target: a gap in front of a write is filled with zeros. -/
def fileTarget : Target Bytes where
  truncate file size :=
    if size < 0 then .error "invalid argument" else .ok (resize 0 file size.toNat)
  writeAt file data off :=
    if off < 0 then .error "negative offset" else .ok (overwrite 0 file off.toNat data)
  sync file := .ok file

/-! ## Restoring to a file -/

/-- The bytes that a restore writes for an entry. -/
def Restorer.chunkOf (R : Restorer) (e : Entry) : Bytes :=
  if e.isExcluded then List.replicate e.chunkLength 0
  else
    match R.index.lookupDirect e.chunkHash with
    | none => []
    | some ie => ((R.store.retrieve ie.packNumber.toNat ie.storeOffset.toNat).toOption).getD []

/-- The chunk of an entry can be read, and passes the checks. -/
structure Restorer.Restorable (R : Restorer) (e : Entry) : Prop where
  offset : 0 ≤ e.volumeOffset
  chunk : e.isExcluded = false → ∃ ie data, R.index.lookupDirect e.chunkHash = some ie ∧
    R.store.retrieve ie.packNumber.toNat ie.storeOffset.toNat = .ok data ∧
    sum256 (identityHashInput R.normalizer data) = e.chunkHash ∧ data.length = e.chunkLength

/-- What is written for an entry, and where. -/
def Restorer.piece (R : Restorer) (e : Entry) : ℕ × Bytes := (e.volumeOffset.toNat, R.chunkOf e)

open Restorer

section File

variable {R : Restorer} {es : List Entry} {cancelled : Look → Bool}

lemma Restorer.Restorable.chunkOf_eq {e : Entry} (h : e.isExcluded = false) {ie : IndexEntry}
    {data : Bytes} (hlookup : R.index.lookupDirect e.chunkHash = some ie)
    (hread : R.store.retrieve ie.packNumber.toNat ie.storeOffset.toNat = .ok data) :
    R.chunkOf e = data := by
  simp [chunkOf, h, hlookup, hread, Except.toOption]

lemma writeAt_file {off : ℤ} (h : 0 ≤ off) (file data : Bytes) :
    fileTarget.writeAt file data off = .ok (overwrite 0 file off.toNat data) := if_neg (by omega)

/-- The references to the chunks of entries, numbered from `i`. -/
def Restorer.refsOf (R : Restorer) : ℕ → List Entry → List ChunkRef
  | _, [] => []
  | i, e :: es =>
    match e.isExcluded, R.index.lookupDirect e.chunkHash with
    | false, some ie => ⟨i, ie.packNumber, ie.storeOffset⟩ :: R.refsOf (i + 1) es
    | _, _ => R.refsOf (i + 1) es

/-- The regions that are filled with zeros. -/
def Restorer.excludedPieces (R : Restorer) (es : List Entry) : List (ℕ × Bytes) :=
  (es.filter Entry.isExcluded).map R.piece

/-- One batch of the first pass. -/
lemma collectBatch_file (hes : ∀ e ∈ es, R.Restorable e) (i : ℕ) (p : Pass Bytes) :
    ∃ result,
      collectBatch R fileTarget i es p = .ok ⟨patch 0 p.target (R.excludedPieces es), result,
      p.refs ++ R.refsOf i es⟩ := by
  induction es generalizing i p with
  | nil => exact ⟨p.result, by simp [collectBatch, excludedPieces, refsOf, patch]⟩
  | cons e es ih =>
    have he := hes e (.head _)
    have hrest := ih fun e' he' => hes e' (.tail _ he')
    cases hex : e.isExcluded with
    | true =>
      obtain ⟨result, hresult⟩ := hrest (i + 1) { p with
        target := overwrite 0 p.target e.volumeOffset.toNat (List.replicate e.chunkLength 0)
        result := { p.result with
          excludedChunks := p.result.excludedChunks + 1
          bytesWritten := p.result.bytesWritten + e.chunkLength } }
      rw [collectBatch, collectEntry, if_pos hex, writeAt_file he.offset]
      simp only
      rw [hresult]
      simp [excludedPieces, refsOf, hex, patch, piece, chunkOf]
    | false =>
      obtain ⟨ie, data, hlookup, -⟩ := he.chunk hex
      obtain ⟨result, hresult⟩ := hrest (i + 1)
        { p with refs := p.refs ++ [⟨i, ie.packNumber, ie.storeOffset⟩] }
      rw [collectBatch, collectEntry, if_neg (by simp [hex]), hlookup]
      simp only
      rw [hresult]
      simp [excludedPieces, refsOf, hex, hlookup]

lemma collectBatch_append (R : Restorer) (es es' : List Entry) (i : ℕ) {p p1 : Pass Bytes}
    (h : collectBatch R fileTarget i es p = .ok p1) :
    collectBatch R fileTarget i (es ++ es') p =
      collectBatch R fileTarget (i + es.length) es' p1 := by
  induction es generalizing i p with
  | nil =>
    cases h
    rfl
  | cons e es ih =>
    rw [collectBatch] at h
    rw [List.cons_append, collectBatch, List.length_cons]
    cases he : collectEntry R fileTarget i e p with
    | error err =>
      rw [he] at h
      cases h
    | ok p2 =>
      rw [he] at h
      simp only at h ⊢
      rw [ih (i + 1) h]
      congr 1
      omega

/-- The batches together are one. -/
lemma collectRefs_file (hes : ∀ e ∈ es, R.Restorable e) (hctx : ∀ l, cancelled l = false)
    {fuel lo : ℕ} (hfuel : es.length ≤ lo + fuel) (p : Pass Bytes) :
    collectRefs R cancelled (sliceEntryAccessor es) fileTarget fuel lo p =
      collectBatch R fileTarget lo (es.drop lo) p := by
  induction fuel generalizing lo p with
  | zero =>
    rw [List.drop_eq_nil_of_le (by omega)]
    rfl
  | succ fuel ih =>
    unfold collectRefs
    have hcount : (sliceEntryAccessor es).count = es.length := rfl
    rw [hcount]
    split
    · have hpos : 1 ≤ entryBatch := by decide
      have hrange : (sliceEntryAccessor es).range lo (min (lo + entryBatch) es.length) =
          .ok ((es.drop lo).take entryBatch) := by
        simp only [sliceEntryAccessor]
        rw [if_neg (by omega)]
        congr 1
        rcases Nat.le_total (lo + entryBatch) es.length with hle | hle
        · rw [Nat.min_eq_left hle, Nat.add_sub_cancel_left]
        · rw [Nat.min_eq_right hle, List.take_of_length_le (by simp),
            List.take_of_length_le (by simp; omega)]
      rw [if_neg (by simp [hctx])]
      simp only [hrange]
      obtain ⟨result, hbatch⟩ := @collectBatch_file R ((es.drop lo).take entryBatch)
        (fun e he => hes e (List.mem_of_mem_drop (List.mem_of_mem_take he))) lo p
      have hsplit := collectBatch_append R _ ((es.drop lo).drop entryBatch) lo hbatch
      rw [List.take_append_drop, List.drop_drop] at hsplit
      rw [hbatch, hsplit]
      simp only
      rw [@ih (lo + entryBatch) (by omega)]
      rcases Nat.le_total (lo + entryBatch) es.length with hle | hle
      · rw [List.length_take, List.length_drop, Nat.min_eq_left (by omega)]
      · rw [List.drop_eq_nil_of_le hle]
        rfl
    · rw [List.drop_eq_nil_of_le (by omega)]
      rfl

/-- What the references are. -/
lemma mem_refsOf {i : ℕ} {ref : ChunkRef} :
    ref ∈ R.refsOf i es ↔ ∃ j e ie, es[j]? = some e ∧ e.isExcluded = false ∧
      R.index.lookupDirect e.chunkHash = some ie ∧
      ref = ⟨i + j, ie.packNumber, ie.storeOffset⟩ := by
  induction es generalizing i with
  | nil => simp [refsOf]
  | cons e es ih =>
    have hlater : (∃ j e' ie, (e :: es)[j + 1]? = some e' ∧ e'.isExcluded = false ∧
        R.index.lookupDirect e'.chunkHash = some ie ∧
        ref = ⟨i + (j + 1), ie.packNumber, ie.storeOffset⟩) ↔ ref ∈ R.refsOf (i + 1) es := by
      rw [ih]
      refine exists_congr fun j => ?_
      rw [List.getElem?_cons_succ, show i + (j + 1) = i + 1 + j by omega]
    constructor
    · intro hmem
      unfold refsOf at hmem
      split at hmem
      · rename_i ie hex hlookup
        rcases List.mem_cons.1 hmem with rfl | hmem
        · exact ⟨0, e, ie, rfl, hex, hlookup, rfl⟩
        · obtain ⟨j, rest⟩ := hlater.2 hmem
          exact ⟨j + 1, rest⟩
      · obtain ⟨j, rest⟩ := hlater.2 hmem
        exact ⟨j + 1, rest⟩
    · rintro ⟨j, e', ie, hget, hex, hlookup, href⟩
      unfold refsOf
      cases j with
      | zero =>
        cases hget
        rw [hex, hlookup]
        exact List.mem_cons.2 (.inl href)
      | succ j =>
        have hmem := hlater.1 ⟨j, e', ie, hget, hex, hlookup, href⟩
        split
        · exact .tail _ hmem
        · exact hmem

/-- A reference to the chunk of an entry. -/
def Restorer.Refers (R : Restorer) (es : List Entry) (ref : ChunkRef) : Prop :=
  ∃ e ie, es[ref.entryIdx]? = some e ∧ e.isExcluded = false ∧
    R.index.lookupDirect e.chunkHash = some ie ∧ ref.pack = ie.packNumber ∧ ref.off = ie.storeOffset

/-- What the second pass writes for a reference. -/
def Restorer.pieceAt (R : Restorer) (es : List Entry) (ref : ChunkRef) : ℕ × Bytes :=
  ((es[ref.entryIdx]?).map R.piece).getD (0, [])

lemma restoreRef_file (hes : ∀ e ∈ es, R.Restorable e) {ref : ChunkRef} (href : R.Refers es ref)
    (t : Bytes) (result : RestoreResult) :
    ∃ result', restoreRef R (sliceEntryAccessor es) fileTarget ref (t, result) =
      .ok (overwrite 0 t (R.pieceAt es ref).1 (R.pieceAt es ref).2, result') := by
  obtain ⟨e, ie, hget, hex, hlookup, hpack, hoff⟩ := href
  have he := hes e (List.mem_of_getElem? hget)
  obtain ⟨ie', data, hlookup', hread, hhash, hlen⟩ := he.chunk hex
  rw [hlookup] at hlookup'
  cases hlookup'
  have hat : (sliceEntryAccessor es).entryAt ref.entryIdx = .ok e := by
    simp [sliceEntryAccessor, hget]
  have hpiece : R.pieceAt es ref = (e.volumeOffset.toNat, data) := by
    simp [pieceAt, hget, piece, Restorer.Restorable.chunkOf_eq hex hlookup hread]
  simp only [restoreRef, hat, hpack, hoff, hread, hhash, hlen, ne_eq, not_true_eq_false, if_false,
    writeAt_file he.offset, hpiece]
  exact ⟨_, rfl⟩

lemma restoreRefs_file (hes : ∀ e ∈ es, R.Restorable e) (hctx : ∀ l, cancelled l = false)
    {refs : List ChunkRef} (hrefs : ∀ ref ∈ refs, R.Refers es ref) (n : ℕ) (t : Bytes)
    (result : RestoreResult) :
    ∃ result', restoreRefs R cancelled (sliceEntryAccessor es) fileTarget n refs (t, result) =
      .ok (patch 0 t (refs.map (R.pieceAt es)), result') := by
  induction refs generalizing n t result with
  | nil => exact ⟨result, rfl⟩
  | cons ref refs ih =>
    obtain ⟨result1, h1⟩ := restoreRef_file hes (hrefs ref (.head _)) t result
    obtain ⟨result2, h2⟩ := ih (fun ref' href' => hrefs ref' (.tail _ href')) (n + 1)
      (overwrite 0 t (R.pieceAt es ref).1 (R.pieceAt es ref).2) result1
    refine ⟨result2, ?_⟩
    rw [restoreRefs, if_neg (by simp [hctx]), h1]
    exact h2

/-- **A restore to a file** succeeds if the chunk of every entry can be read and passes the checks;
it writes these chunks at their offsets, in some order, and nothing else. -/
theorem restoreEntries_file (hes : ∀ e ∈ es, R.Restorable e) (hctx : ∀ l, cancelled l = false)
    {backup : Backup} (hsize : 0 ≤ backup.totalBytes) (hempty : es = [] → backup.totalBytes = 0)
    (t : Bytes) :
    ∃ result ps, restoreEntries R cancelled (sliceEntryAccessor es) fileTarget backup t =
        .ok (result, patch 0 (resize 0 t backup.totalBytes.toNat) ps) ∧
      ∀ p, p ∈ ps ↔ ∃ e ∈ es, p = R.piece e := by
  obtain ⟨result1, hcollect⟩ := collectBatch_file hes 0
    ⟨resize 0 t backup.totalBytes.toNat, ⟨es.length, 0, 0, 0⟩, []⟩
  have hrefs : ∀ ref ∈ (R.refsOf 0 es).mergeSort ChunkRef.before, R.Refers es ref := by
    intro ref href
    obtain ⟨j, e, ie, hget, hex, hlookup, rfl⟩ := mem_refsOf.1 (List.mem_mergeSort.1 href)
    exact ⟨e, ie, by simpa using hget, hex, hlookup, rfl, rfl⟩
  obtain ⟨result2, hrestore⟩ := restoreRefs_file hes hctx hrefs 0
    (patch 0 (resize 0 t backup.totalBytes.toNat) (R.excludedPieces es)) result1
  refine ⟨result2, R.excludedPieces es ++
    ((R.refsOf 0 es).mergeSort ChunkRef.before).map (R.pieceAt es), ?_, fun p => ?_⟩
  · have hcount : (sliceEntryAccessor es).count = es.length := rfl
    have hpass := @collectRefs_file R es cancelled hes hctx es.length 0 (by omega)
      ⟨resize 0 t backup.totalBytes.toNat, ⟨es.length, 0, 0, 0⟩, []⟩
    rw [List.drop_zero, hcollect] at hpass
    have hguard : ¬ (es.length = 0 ∧ backup.totalBytes > 0) := by
      rintro ⟨hnil, hpos⟩
      rw [hempty (List.eq_nil_of_length_eq_zero hnil)] at hpos
      exact absurd hpos (by decide)
    have htruncate : fileTarget.truncate t backup.totalBytes =
        .ok (resize 0 t backup.totalBytes.toNat) := if_neg (by omega)
    simp only [restoreEntries, hcount, if_neg hguard, htruncate, hpass, List.nil_append, hrestore]
    simp [fileTarget, patch, List.foldl_append]
  · rw [List.mem_append, List.mem_map, excludedPieces, List.mem_map]
    constructor
    · rintro (⟨e, he, rfl⟩ | ⟨ref, href, rfl⟩)
      · exact ⟨e, List.mem_of_mem_filter he, rfl⟩
      · obtain ⟨e, ie, hget, -⟩ := hrefs ref href
        exact ⟨e, List.mem_of_getElem? hget, by simp [pieceAt, hget]⟩
    · rintro ⟨e, he, rfl⟩
      cases hex : e.isExcluded with
      | true => exact .inl ⟨e, List.mem_filter.2 ⟨he, hex⟩, rfl⟩
      | false =>
        obtain ⟨ie, -, hlookup, -⟩ := (hes e he).chunk hex
        obtain ⟨j, hj⟩ := List.mem_iff_getElem?.1 he
        refine .inr ⟨⟨j, ie.packNumber, ie.storeOffset⟩, List.mem_mergeSort.2 ?_, ?_⟩
        · exact mem_refsOf.2 ⟨j, e, ie, hj, hex, hlookup, by simp⟩
        · simp [pieceAt, hj]

/-- **A restore of a stream**: if the chunks of the entries lie in the stream and cover it, then the
file begins with the stream and goes on as it was. -/
theorem restoreEntries_tiles (hes : ∀ e ∈ es, R.Restorable e) (hctx : ∀ l, cancelled l = false)
    {backup : Backup} (hsize : 0 ≤ backup.totalBytes) (hempty : es = [] → backup.totalBytes = 0)
    {stream : Bytes} (hlies : ∀ e ∈ es, Lies stream (R.piece e) ∧ R.chunkOf e ≠ [])
    (hcover : ∀ i < stream.length, ∃ e ∈ es, Covers (R.piece e) i) (t : Bytes) :
    ∃ result, restoreEntries R cancelled (sliceEntryAccessor es) fileTarget backup t =
      .ok (result, stream ++ (resize 0 t backup.totalBytes.toNat).drop stream.length) := by
  obtain ⟨result, ps, hrestore, hps⟩ := restoreEntries_file hes hctx hsize hempty t
  refine ⟨result, ?_⟩
  rw [hrestore, patch_eq]
  · intro p hp
    obtain ⟨e, he, rfl⟩ := (hps p).1 hp
    exact hlies e he
  · intro i hi
    obtain ⟨e, he, hcovers⟩ := hcover i hi
    exact ⟨R.piece e, (hps _).2 ⟨e, he, rfl⟩, hcovers⟩

end File

end DiskNexus.Restore
