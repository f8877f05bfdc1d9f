import DiskNexus.Chunker.Next
import DiskNexus.Index.Dedup
import DiskNexus.Manifest.Entries
import DiskNexus.Pipeline.Complete
import DiskNexus.Resume.Reconcile
import DiskNexus.Store.ChunkStore

/-!
# A backup

`Pipeline.run` opens the dedup index and the chunk store, sends the source through the stages, seals
the last pack, flushes the index and saves the manifest. This file has the code that the stages run.

## Main results

`Chunks.stream`, `storeChunk_ok`
-/

namespace DiskNexus.Pipeline

open Binary Sha256 Files Store Index Chunking Checkpointing
open Manifest (Entry EntryWriter openEntryWriterResume)

/-- `seqChunk`, without its number, with what the digest had taken before the chunk. -/
structure SeqChunk where
  chunk : Chunk
  digestStateBefore : Option Bytes
  deriving DecidableEq

/-- `PreparedChunk`. -/
structure PreparedChunk where
  chunk : Chunk
  id : ChunkID
  frame : Bytes
  digestStateBefore : Option Bytes
  deriving DecidableEq

/-- What a backup takes from its repository. -/
structure Config where
  hasher : Hasher
  normalizer : Option (Bytes → Bytes)
  codec : Codec
  indexKey : Option Cipher
  encrypted : Bool
  geometry : Geometry
  packFileMaxSize : ℤ
  hashWorkers : ℤ
  numCPU : ℕ

/-- `ResumeState`, without the pack to start with. -/
structure ResumeState where
  resumeOffset : ℤ
  entriesLen : ℤ
  prefixStats : Stats
  digestState : Option Bytes
  preloadInserts : List InsertTuple
  nextCheckpointSeq : UInt32

/-- What fails while a checkpoint is written: the sync of the entries, the append of the segment, of
which some bytes are in the file, or the record of the checkpoint. -/
inductive CheckpointFault
  | none
  | sync
  | segment (written : ℕ)
  | record
  deriving DecidableEq

/-- The options of one run, with the ID that it is given or makes. `checkpoint` says that there is a
`CheckpointFn`, which appends the segment and then writes the checkpoint. The rest is what the
environment does: the failures of the calls, and the nonces drawn for the index files. -/
structure RunOptions where
  backupID : String
  totalSize : ℤ
  startPackNum : ℕ
  nbits : UInt64
  indexDeltaPath : Option String
  analyzeOnly : Bool
  checkpoint : Bool
  resumable : Bool
  packsGeneration : String
  resume : Option ResumeState
  checkFails : ℕ → Bool
  storeFaults : ℕ → Faults
  checkpointFaults : ℕ → CheckpointFault
  entryFails : ℕ → Bool
  closeEntriesFails : Bool
  sealFails : Bool
  saveFails : Bool
  flushNonces : ℕ → Bytes
  closeNonces : ℕ → Bytes

/-- What the store loop works on. An analyze-only run has no entry writer. -/
structure Loop where
  chunkStore : ChunkStore
  dedupIdx : DedupIndex
  indexDir : RepoDir
  entryWriter : Option EntryWriter
  tallies : Stats
  prefixStats : Stats
  lastEntry : Option Entry
  curPack : ℕ
  ckptSeq : UInt32
  prevCkptEntriesLen : ℤ
  pendingInserts : List InsertTuple
  checkpointWritten : Bool
  emitted : List (Progress × Segment)
  segments : Option Bytes
  checkpoint : Option Checkpoint
  analyzeSeen : List Hash
  manifest : Option Manifest.Backup

/-- The chunker with the bytes folded into the content digest, if there is one. -/
structure Source where
  chunker : Chunking.Chunker
  digest : Option Bytes

/-- The files of a repository that a backup works on. -/
structure Repository where
  packs : Packs
  indexDir : RepoDir
  entries : Option Bytes
  segments : Option Bytes
  checkpoint : Option Checkpoint

section Code

variable (cfg : Config) (opt : RunOptions)

/-! ## The chunker and the workers -/

/-- The chunker at the start of a run: at the beginning, or where the checkpoint ends. -/
def Source.start (reads : List Read) : Source :=
  match opt.resume with
  | none => ⟨.new cfg.geometry reads, some []⟩
  | some rs => ⟨{ Chunker.new cfg.geometry reads with offset := rs.resumeOffset.toNat },
      rs.digestState⟩

/-- One round of the chunker: the digest takes the chunk before it is sent. -/
def nextChunk (src : Source) : Next Source SeqChunk (Option Hash) :=
  match src.chunker.next with
  | (.ok chunk, chunker) =>
    .chunk ⟨chunk, if opt.resumable then src.digest else none⟩
      ⟨chunker, src.digest.map (· ++ chunk.data)⟩
  | (.error .eof, _) => .eof (src.digest.map cfg.hasher.strong)
  | (.error (.other e), _) => .err e

/-- The body of a hash worker: the identity of the chunk, and its frame, if it is to be stored. -/
def prepareChunk (nonce : Option Bytes) (sc : SeqChunk) : Except String PreparedChunk :=
  let id := cfg.hasher.sum (identityHashInput cfg.normalizer sc.chunk.data)
  if opt.analyzeOnly then .ok ⟨sc.chunk, id, [], sc.digestStateBefore⟩
  else
    match ChunkStore.encodeChunk cfg.codec nonce sc.chunk.data with
    | none => .error "generating nonce"
    | some payload =>
      .ok ⟨sc.chunk, id, encodeFrame payload sc.chunk.data.length, sc.digestStateBefore⟩

/-! ## The store loop -/

/-- The segment of the checkpoint that is due: the new bytes of the sidecar, and the inserts. -/
def Loop.nextSegment (w : Loop) (ew : EntryWriter) : Segment :=
  let entriesLen := ew.file.length
  ⟨w.ckptSeq, Int64.ofNat entriesLen,
    if w.prevCkptEntriesLen < entriesLen then
      ew.readAt (entriesLen - w.prevCkptEntriesLen).toNat w.prevCkptEntriesLen.toNat
    else [],
    w.pendingInserts⟩

/-- The progress at the chunk `pc`, which started the pack `packNum`. -/
def Loop.progress (w : Loop) (ew : EntryWriter) (pc : PreparedChunk) (packNum : ℕ) : Progress where
  lastSealedPack := packNum - 1
  checkpointSeq := w.ckptSeq
  resumeOffset := pc.chunk.offset
  entriesLen := ew.file.length
  entriesCount := ew.file.length / Manifest.entryRecordSize
  boundaryChunkHash := (w.lastEntry.map Entry.chunkHash).getD .zero
  boundaryChunkOffset := ((w.lastEntry.map Entry.volumeOffset).getD 0).toNat
  boundaryChunkLength := (w.lastEntry.map Entry.chunkLength).getD 0
  tallies := w.prefixStats
  digestState := pc.digestStateBefore

/-- The loop after a checkpoint at the chunk `pc`. -/
def Loop.checkpointed (w : Loop) (ew : EntryWriter) (pc : PreparedChunk) (packNum : ℕ) : Loop :=
  { w with
    entryWriter := some ew
    segments := appendSegmentLocal w.segments (w.nextSegment ew)
    checkpoint := some ⟨w.progress ew pc packNum, opt.packsGeneration⟩
    emitted := w.emitted ++ [(w.progress ew pc packNum, w.nextSegment ew)]
    checkpointWritten := true
    curPack := packNum
    ckptSeq := w.ckptSeq + 1
    prevCkptEntriesLen := ew.file.length
    pendingInserts := [] }

/-- `emitCheckpoint`, with the bookkeeping of the store loop behind it. -/
def emitCheckpoint (w : Loop) (pc : PreparedChunk) (packNum : ℕ) : Except (String × Loop) Loop :=
  match w.entryWriter with
  | none => .error ("writing checkpoint", w)
  | some ew =>
    let segment := w.nextSegment ew.flush
    match opt.checkpointFaults w.tallies.totalChunks with
    | .sync => .error ("writing checkpoint: syncing entries for checkpoint", w)
    | .segment n => .error ("writing checkpoint: appending segment", { w with
        entryWriter := some ew.flush
        segments := some (w.segments.getD [] ++ (marshalSegment segment).take n) })
    | .record => .error ("writing checkpoint", { w with
        entryWriter := some ew.flush
        segments := appendSegmentLocal w.segments segment })
    | .none => .ok (w.checkpointed opt ew.flush pc packNum)

/-- The checkpoint of a chunk that started a new pack. -/
def checkpointIfNew (w : Loop) (pc : PreparedChunk) (packNum : ℕ) : Except (String × Loop) Loop :=
  if opt.checkpoint && w.curPack < packNum then emitCheckpoint opt w pc packNum else .ok w

/-- The flush of the hash index after every so many new chunks. -/
def flushInterval : ℕ := 500000

/-- The tuple of a chunk that was stored. -/
def insertTuple (pc : PreparedChunk) (r : Stored) : InsertTuple :=
  ⟨pc.id.strongHash, pc.id.weakHash, UInt32.ofNat r.packNum, UInt64.ofNat r.offset,
    UInt32.ofNat pc.chunk.length⟩

/-- Insert a stored chunk, and flush the buffer of the index now and then. -/
def insertNew (w : Loop) (pc : PreparedChunk) (r : Stored) : Except (String × Loop) Loop :=
  let inserted := w.dedupIdx.insert pc.id (UInt32.ofNat r.packNum) (UInt64.ofNat r.offset)
    (UInt32.ofNat pc.chunk.length)
  let w := { w with
    dedupIdx := inserted.1
    indexDir := runOps w.indexDir inserted.2
    tallies := { w.tallies with storedBytes := w.tallies.storedBytes + r.compressedSize + 8 }
    pendingInserts := if opt.checkpoint then w.pendingInserts ++ [insertTuple pc r]
      else w.pendingInserts }
  if w.tallies.uniqueChunks % flushInterval = 0 then
    let w' := { w with indexDir := runOps w.indexDir w.dedupIdx.index.flushDeltaOps }
    match w.dedupIdx.flushHashIndex with
    | .error e => .error (s!"periodic index flush: {e}", w')
    | .ok dedupIdx => .ok { w' with dedupIdx := dedupIdx }
  else .ok w

/-- The store loop on a new chunk: store its frame, write a checkpoint if that began a new pack, and
insert it. -/
def storeNew (w : Loop) (pc : PreparedChunk) : Except (String × Loop) Loop :=
  let w := { w with tallies := { w.tallies with uniqueChunks := w.tallies.uniqueChunks + 1 } }
  match w.chunkStore.storeRaw pc.frame (opt.storeFaults w.tallies.totalChunks) with
  | (.error e, chunkStore) => .error (s!"storing chunk: {e}", { w with chunkStore := chunkStore })
  | (.ok r, chunkStore) =>
    match checkpointIfNew opt { w with chunkStore := chunkStore } pc r.packNum with
    | .error r => .error r
    | .ok w => insertNew opt w pc r

/-- A chunk that the index has, or an analyze-only run has seen. -/
def Loop.skip (w : Loop) : Loop :=
  { w with tallies := { w.tallies with dedupChunks := w.tallies.dedupChunks + 1 } }

/-- A chunk that an analyze-only run has not seen. -/
def Loop.note (w : Loop) (pc : PreparedChunk) : Loop :=
  { w with
    tallies := { w.tallies with uniqueChunks := w.tallies.uniqueChunks + 1 }
    analyzeSeen := pc.id.strongHash :: w.analyzeSeen }

/-- The store loop on a chunk, up to its entry. -/
def storeOrSkip (w : Loop) (pc : PreparedChunk) : Except (String × Loop) Loop :=
  match w.dedupIdx.check pc.id with
  | some _ => .ok w.skip
  | none =>
    if opt.analyzeOnly then
      .ok (if pc.id.strongHash ∈ w.analyzeSeen then w.skip else w.note pc)
    else storeNew opt w pc

/-- The entry of a chunk. -/
def PreparedChunk.entry (pc : PreparedChunk) : Entry :=
  ⟨pc.chunk.offset, pc.id.strongHash, pc.chunk.length, false⟩

/-- The entry of a chunk is written, and the tallies are brought up to date. -/
def writeEntry (w : Loop) (pc : PreparedChunk) : Except (String × Loop) Loop :=
  let snapshot (w : Loop) : Loop :=
    { w with prefixStats := if opt.checkpoint then w.tallies else w.prefixStats }
  match w.entryWriter with
  | none => .ok (snapshot w)
  | some ew =>
    if opt.entryFails w.tallies.totalChunks then .error ("writing entry", w)
    else .ok (snapshot { w with
      entryWriter := some (ew.writeEntry pc.entry)
      lastEntry := some pc.entry })

/-- The tallies at the head of the store loop. -/
def Loop.countChunk (w : Loop) (pc : PreparedChunk) : Loop :=
  { w with tallies := { w.tallies with
      totalChunks := w.tallies.totalChunks + 1
      rawBytes := w.tallies.rawBytes + pc.chunk.length } }

/-- The body of the store loop. -/
def storeChunk (w : Loop) (pc : PreparedChunk) : Except (String × Loop) Loop :=
  let w := w.countChunk pc
  if opt.checkFails w.tallies.totalChunks then .error ("dedup check", w)
  else storeOrSkip opt w pc >>= fun w => writeEntry opt w pc

/-! ## The start and the end -/

/-- The close of the entry writer. -/
def closeEntries (w : Loop) : Except (String × Loop) Loop :=
  match w.entryWriter with
  | none => .ok w
  | some ew =>
    if opt.closeEntriesFails then .error ("closing entry writer", w)
    else .ok { w with entryWriter := some ew.flush }

/-- The manifest of a backup. -/
def Loop.manifestOf (w : Loop) (digest : Option Hash) : Manifest.Backup :=
  ⟨opt.backupID, opt.totalSize, w.tallies.totalChunks, w.tallies.uniqueChunks,
    w.tallies.dedupChunks,
    w.tallies.rawBytes, w.tallies.storedBytes, digest, (w.entryWriter.map EntryWriter.file).getD []⟩

/-- The end of a run: seal the last pack, flush the index, save the manifest. The deferred close of
the index follows a success. -/
def finishRun (w : Loop) (digest : Option Hash) : Except (String × Loop) Loop :=
  if opt.analyzeOnly then .ok w
  else if opt.sealFails then .error ("sealing final pack", w)
  else
    let flushed := { w with indexDir := runOps w.indexDir (w.dedupIdx.flushOps opt.flushNonces) }
    match w.dedupIdx.flush with
    | .error e => .error (s!"flushing index: {e}", flushed)
    | .ok dedupIdx =>
      let flushed := { flushed with dedupIdx := dedupIdx }
      if opt.saveFails then .error ("saving manifest", flushed)
      else .ok { flushed with
        indexDir := runOps flushed.indexDir (dedupIdx.closeOps opt.closeNonces)
        manifest := some (w.manifestOf opt digest) }

/-- The code of the stages. -/
def program : Program Source (Option Bytes) SeqChunk PreparedChunk Loop (Option Hash) where
  next := nextChunk cfg opt
  prepare := prepareChunk cfg opt
  store := storeChunk opt
  closeEntries := closeEntries opt
  finish := finishRun opt
  suspendable := fun w => opt.resumable && w.checkpointWritten

/-- The journal of the run, if there is to be one. -/
def armDelta (x : DedupIndex) : Except String (DedupIndex × List (FileOp FileName)) :=
  match opt.indexDeltaPath with
  | none => .ok (x, [])
  | some path => if opt.analyzeOnly then .ok (x, []) else x.captureDelta path

/-- Insert the tuples of a suspended run again. -/
def preload (x : DedupIndex) (d : RepoDir) (ts : List InsertTuple) : DedupIndex × RepoDir :=
  ts.foldl (fun r t =>
    let inserted := r.1.insert ⟨t.weakHash, t.strongHash⟩ t.packNumber t.storeOffset t.chunkLength
    (inserted.1, runOps r.2 inserted.2)) (x, d)

/-- The inserts to begin with. -/
def RunOptions.preloads : List InsertTuple := (opt.resume.map ResumeState.preloadInserts).getD []

/-- The entry writer of a run. -/
def openEntries (entries : Option Bytes) : Except String (Option EntryWriter) :=
  if opt.analyzeOnly then .ok none
  else
    match opt.resume with
    | none => .ok (some .create)
    | some rs => (openEntryWriterResume entries rs.entriesLen).map some

/-- The tallies to begin with. -/
def RunOptions.startStats : Stats :=
  (opt.resume.map ResumeState.prefixStats).getD ⟨0, 0, 0, 0, 0⟩

/-- The start of a run, once its index is open. -/
def startLoop (r : Repository) (x : DedupIndex) (d : RepoDir) (ew : Option EntryWriter) : Loop where
  chunkStore :=
    if opt.startPackNum > 0 then
      .newChunkStoreAt r.packs cfg.codec cfg.packFileMaxSize opt.startPackNum
    else .newChunkStore r.packs cfg.codec cfg.packFileMaxSize
  dedupIdx := x
  indexDir := d
  entryWriter := ew
  tallies := opt.startStats
  prefixStats := opt.startStats
  lastEntry := none
  curPack := opt.startPackNum
  ckptSeq := (opt.resume.map ResumeState.nextCheckpointSeq).getD 0
  prevCkptEntriesLen := (opt.resume.map ResumeState.entriesLen).getD 0
  pendingInserts := []
  checkpointWritten := false
  emitted := []
  segments := r.segments
  checkpoint := r.checkpoint
  analyzeSeen := []
  manifest := none

/-- The start of a run. An error comes with the repository it leaves. -/
def openRun (r : Repository) : Except (String × Repository) Loop :=
  if cfg.encrypted ∧ cfg.codec.key.isNone then .error ("encryption key required", r)
  else
    match newDedupIndex cfg.indexKey opt.nbits false r.indexDir with
    | (.error e, d) => .error (s!"opening dedup index: {e}", { r with indexDir := d })
    | (.ok x, d) =>
      match armDelta opt x with
      | .error e => .error (s!"arming index delta capture: {e}",
          { r with indexDir := runOps d x.closeDiscardOps })
      | .ok (x, ops) =>
        let d := runOps d ops
        if !opt.analyzeOnly && bloomSuspect x then
          .error ("bloom filter is missing but the hash index is populated",
            { r with indexDir := runOps d x.closeDiscardOps })
        else
          let loaded := preload x d opt.preloads
          match openEntries opt r.entries with
          | .error e => .error (s!"opening entry writer: {e}",
              { r with indexDir := runOps loaded.2 loaded.1.closeDiscardOps })
          | .ok ew => .ok (startLoop cfg opt r loaded.1 loaded.2 ew)

/-- The state in which the stages of a run start. -/
def startState (w : Loop) (reads : List Read) :
    State Source SeqChunk PreparedChunk Loop (Option Hash) :=
  .init (.start cfg opt reads) w (numWorkers cfg.hashWorkers cfg.numCPU)

/-- The entry a chunk should have. -/
def Config.entryOf (chunk : Chunk) : Entry :=
  ⟨chunk.offset, cfg.hasher.strong (identityHashInput cfg.normalizer chunk.data),
    chunk.length, false⟩

end Code

/-! ## What a run leaves -/

/-- The files on disk while a run is at work, without the buffered entries. -/
def Loop.files (w : Loop) (r : Repository) : Repository :=
  ⟨w.chunkStore.packs, w.indexDir,
    match w.entryWriter with
    | none => r.entries
    | some ew => some ew.file,
    w.segments, w.checkpoint⟩

/-- The deferred calls of a `run` that returns an error: the index is closed without a flush, and
the entries are removed unless the run is suspended. -/
def Loop.giveUp (w : Loop) (r : Repository) (suspended : Bool) : Repository :=
  { w.files r with
    indexDir := runOps w.indexDir w.dedupIdx.closeDiscardOps
    entries :=
      match w.entryWriter with
      | none => r.entries
      | some ew => if suspended then some ew.written else none }

/-- The files after a run on the repository `r`: while it is at work, as if the process died; after
a success, whose manifest has taken over the entries; and after an error. -/
def leave (opt : RunOptions) (r : Repository) : Main PreparedChunk Loop (Option Hash) → Repository
  | .receiving w | .storing w _ | .closing w | .checking w | .waiting w | .finishing w _ =>
      w.files r
  | .succeeded w =>
    if opt.analyzeOnly then w.giveUp r false else { w.files r with entries := none }
  | .suspended w => w.giveUp r true
  | .failed _ w => w.giveUp r false

lemma leave_succeeded {opt : RunOptions} (hmode : opt.analyzeOnly = false) (r : Repository)
    (w : Loop) :
    leave opt r (.succeeded w) = { w.files r with entries := none } := by
  simp [leave, hmode]

/-! ## The chunks of a stream -/

/-- Chunks that lie one behind the other, none of them empty. -/
def Tiles (start : ℕ) : List Chunk → Prop
  | [] => True
  | c :: cs => c.offset = start ∧ c.length = c.data.length ∧ c.data ≠ [] ∧
      Tiles (start + c.length) cs

/-- The bytes of chunks. -/
def bytesOf (cs : List Chunk) : Bytes := cs.flatMap Chunk.data

/-- The chunks that the chunker has sent. -/
def chunksOf (cs : List SeqChunk) : List Chunk := cs.map SeqChunk.chunk

lemma bytesOf_snoc (cs : List Chunk) (c : Chunk) : bytesOf (cs ++ [c]) = bytesOf cs ++ c.data := by
  simp [bytesOf]

lemma chunksOf_snoc (cs : List SeqChunk) (c : SeqChunk) :
    chunksOf (cs ++ [c]) = chunksOf cs ++ [c.chunk] := by
  simp [chunksOf]

lemma Tiles.snoc {start : ℕ} {cs : List Chunk} (h : Tiles start cs) {c : Chunk}
    (hoffset : c.offset = start + (bytesOf cs).length) (hlength : c.length = c.data.length)
    (hne : c.data ≠ []) : Tiles start (cs ++ [c]) := by
  induction cs generalizing start with
  | nil => exact ⟨hoffset, hlength, hne, trivial⟩
  | cons c' cs ih =>
    obtain ⟨h1, h2, h3, h4⟩ := h
    refine ⟨h1, h2, h3, ih h4 ?_⟩
    rw [hoffset, h2]
    simp only [bytesOf, List.flatMap_cons, List.length_append]
    omega

section Stream

variable {cfg : Config} {opt : RunOptions} {reads : List Read}

/-- The offset at which a run starts. -/
def RunOptions.startOffset (opt : RunOptions) : ℕ :=
  ((opt.resume.map ResumeState.resumeOffset).getD 0).toNat

/-- What the digest has taken before a run. -/
def RunOptions.startDigest (opt : RunOptions) : Option Bytes :=
  match opt.resume with
  | none => some []
  | some rs => rs.digestState

lemma start_eq (cfg : Config) (opt : RunOptions) (reads : List Read) :
    Source.start cfg opt reads =
      ⟨{ Chunker.new cfg.geometry reads with offset := opt.startOffset }, opt.startDigest⟩ := by
  unfold Source.start RunOptions.startOffset RunOptions.startDigest
  cases opt.resume <;> rfl

/-- What the chunker has done after some rounds: the stream up to where it is. -/
structure Cuts (cfg : Config) (opt : RunOptions) (reads : List Read) (cs : List SeqChunk)
    (src : Source) : Prop where
  stream : streamOf reads = bytesOf (chunksOf cs) ++ src.chunker.remaining
  offset : src.chunker.offset = opt.startOffset + (bytesOf (chunksOf cs)).length
  geometry : src.chunker.geometry = cfg.geometry
  tiles : Tiles opt.startOffset (chunksOf cs)
  digest : src.digest = opt.startDigest.map (· ++ bytesOf (chunksOf cs))
  bounded : ∀ c ∈ cs, c.chunk.data.length ≤ max 1 cfg.geometry.limit

lemma nextChunk_chunk {src src' : Source} {c : SeqChunk}
    (h : nextChunk cfg opt src = .chunk c src') :
    src.chunker.next = (.ok c.chunk, src'.chunker) ∧
      src'.digest = src.digest.map (· ++ c.chunk.data) := by
  unfold nextChunk at h
  generalize src.chunker.next = r at h
  obtain ⟨e | chunk, chunker⟩ := r
  · cases e <;> cases h
  · cases h
    exact ⟨rfl, rfl⟩

lemma nextChunk_eof {src : Source} {digest : Option Hash}
    (h : nextChunk cfg opt src = .eof digest) :
    src.chunker.remaining = [] ∧ digest = src.digest.map cfg.hasher.strong := by
  unfold nextChunk at h
  generalize hnext : src.chunker.next = r at h
  obtain ⟨e | chunk, chunker⟩ := r
  · cases e with
    | eof =>
      cases h
      exact ⟨Chunker.next_eof hnext, rfl⟩
    | other e => cases h
  · cases h

lemma emits_cuts {cs : List SeqChunk} {src : Source}
    (h : Emits (program cfg opt) (.start cfg opt reads) cs src) : Cuts cfg opt reads cs src := by
  induction h with
  | nil =>
    rw [start_eq]
    exact ⟨(Chunker.remaining_new cfg.geometry reads).symm, rfl, rfl, trivial,
      by cases opt.startDigest <;> simp [chunksOf, bytesOf], fun c hc => by cases hc⟩
  | @snoc cs src src' c _ hnext ih =>
    obtain ⟨hnext, hdigest⟩ := nextChunk_chunk hnext
    obtain ⟨hchunk, hne, hadv, hlen⟩ := Chunker.next_ok hnext
    have hoffset : c.chunk.offset = src.chunker.offset := by rw [hchunk]; rfl
    have hlength : c.chunk.length = c.chunk.data.length := by rw [hchunk]; rfl
    rw [ih.geometry] at hlen
    constructor
    · rw [chunksOf_snoc, bytesOf_snoc, List.append_assoc, ← hadv.remaining]
      exact ih.stream
    · rw [hadv.offset, ih.offset, chunksOf_snoc, bytesOf_snoc, List.length_append, Nat.add_assoc]
    · rw [hadv.geometry, ih.geometry]
    · rw [chunksOf_snoc]
      exact ih.tiles.snoc (by rw [hoffset, ih.offset]) hlength hne
    · rw [hdigest, ih.digest, chunksOf_snoc, bytesOf_snoc, Option.map_map]
      congr 1
      funext bytes
      simp
    · intro c' hc'
      rcases List.mem_append.1 hc' with hc' | hc'
      · exact ih.bounded c' hc'
      · rw [List.mem_singleton.1 hc']
        exact hlen

/-- The chunks of a stream are the whole stream, and the digest is that of the stream. -/
theorem Chunks.stream {cs : List SeqChunk} {digest : Option Hash}
    (h : Chunks (program cfg opt) (.start cfg opt reads) cs digest) :
    bytesOf (chunksOf cs) = streamOf reads ∧ Tiles opt.startOffset (chunksOf cs) ∧
      digest = opt.startDigest.map (fun bytes => cfg.hasher.strong (bytes ++ streamOf reads)) ∧
      ∀ c ∈ cs, c.chunk.data.length ≤ max 1 cfg.geometry.limit := by
  obtain ⟨src, hemits, heof⟩ := h
  have hcuts := emits_cuts hemits
  obtain ⟨hrest, hdigest⟩ := nextChunk_eof heof
  have hstream : streamOf reads = bytesOf (chunksOf cs) := by
    rw [hcuts.stream, hrest, List.append_nil]
  refine ⟨hstream.symm, hcuts.tiles, ?_, hcuts.bounded⟩
  rw [hdigest, hcuts.digest, Option.map_map, hstream]
  rfl

end Stream

/-! ## What the store loop does with a chunk -/

section Store

variable {opt : RunOptions} {w w' : Loop} {pc : PreparedChunk}

/-- The loop once the chunk `pc` is counted as new. -/
def Loop.countUnique (w : Loop) : Loop :=
  { w with tallies := { w.tallies with uniqueChunks := w.tallies.uniqueChunks + 1 } }

/-- The loop once a stored chunk is in the index `x`, after `ops` on the index files. -/
def Loop.inserted (w : Loop) (opt : RunOptions) (pc : PreparedChunk) (r : Stored) (x : DedupIndex)
    (ops : List (FileOp FileName)) : Loop :=
  { w with
    dedupIdx := x
    indexDir := runOps w.indexDir ops
    tallies := { w.tallies with storedBytes := w.tallies.storedBytes + r.compressedSize + 8 }
    pendingInserts := if opt.checkpoint then w.pendingInserts ++ [insertTuple pc r]
      else w.pendingInserts }

/-- The index after the insert of a stored chunk, with the file operations. -/
def Loop.insertChunk (w : Loop) (pc : PreparedChunk) (r : Stored) :
    DedupIndex × List (FileOp FileName) :=
  w.dedupIdx.insert pc.id (UInt32.ofNat r.packNum) (UInt64.ofNat r.offset)
    (UInt32.ofNat pc.chunk.length)

/-- The index after an insert and maybe a flush of its buffer. -/
inductive Indexes (w : Loop) (pc : PreparedChunk) (r : Stored) :
    DedupIndex → List (FileOp FileName) → Prop
  | plain : Indexes w pc r (w.insertChunk pc r).1 (w.insertChunk pc r).2
  | flushed {x : DedupIndex} (h : (w.insertChunk pc r).1.flushHashIndex = .ok x) :
      Indexes w pc r x ((w.insertChunk pc r).2 ++ (w.insertChunk pc r).1.index.flushDeltaOps)

lemma insertNew_ok {r : Stored} (h : insertNew opt w pc r = .ok w') :
    ∃ x ops, Indexes w pc r x ops ∧ w' = w.inserted opt pc r x ops := by
  unfold insertNew at h
  simp only at h
  split at h
  · split at h
    · cases h
    · rename_i x hflush
      cases h
      refine ⟨x, _, .flushed hflush, ?_⟩
      simp only [Loop.inserted, runOps_append, Loop.insertChunk]
  · cases h
    exact ⟨_, _, .plain, rfl⟩

/-- The checkpoint of a chunk, or none. -/
inductive Checkpoints (opt : RunOptions) (w : Loop) (pc : PreparedChunk) (packNum : ℕ) : Loop → Prop
  | none (h : opt.checkpoint = false ∨ packNum ≤ w.curPack) : Checkpoints opt w pc packNum w
  | emitted {ew : EntryWriter} (hckpt : opt.checkpoint = true) (hpack : w.curPack < packNum)
      (hew : w.entryWriter = some ew) :
      Checkpoints opt w pc packNum (w.checkpointed opt ew.flush pc packNum)

lemma checkpointIfNew_ok {packNum : ℕ} (h : checkpointIfNew opt w pc packNum = .ok w') :
    Checkpoints opt w pc packNum w' := by
  unfold checkpointIfNew at h
  split_ifs at h with hnew
  · obtain ⟨hckpt, hpack⟩ := Bool.and_eq_true_iff.1 hnew
    unfold emitCheckpoint at h
    split at h
    · cases h
    · rename_i ew hew
      split at h
      · cases h
      · cases h
      · cases h
      · cases h
        exact .emitted hckpt (by simpa using hpack) hew
  · cases h
    refine .none ?_
    cases hckpt : opt.checkpoint with
    | false => exact .inl rfl
    | true => exact .inr (by simpa [hckpt] using hnew)

/-- What the store loop did with a chunk before its entry. -/
inductive Stores (opt : RunOptions) (w : Loop) (pc : PreparedChunk) : Loop → Prop
  | hit {e : IndexEntry} (hcheck : w.dedupIdx.check pc.id = some e) : Stores opt w pc w.skip
  | seen (hmode : opt.analyzeOnly = true) : Stores opt w pc w.skip
  | noted (hmode : opt.analyzeOnly = true) : Stores opt w pc (w.note pc)
  | new {r : Stored} {s : ChunkStore} {w₁ : Loop} {x : DedupIndex} {ops : List (FileOp FileName)}
      (hmode : opt.analyzeOnly = false) (hcheck : w.dedupIdx.check pc.id = none)
      (hstore : w.chunkStore.storeRaw pc.frame (opt.storeFaults w.tallies.totalChunks) = (.ok r, s))
      (hckpt : Checkpoints opt { w.countUnique with chunkStore := s } pc r.packNum w₁)
      (hindex : Indexes w₁ pc r x ops) : Stores opt w pc (w₁.inserted opt pc r x ops)

lemma storeOrSkip_ok (h : storeOrSkip opt w pc = .ok w') : Stores opt w pc w' := by
  unfold storeOrSkip at h
  split at h
  · rename_i e hcheck
    cases h
    exact .hit hcheck
  · rename_i hcheck
    split at h
    · rename_i hmode
      cases h
      split
      · exact .seen hmode
      · exact .noted hmode
    · rename_i hmode
      unfold storeNew at h
      simp only at h
      generalize hstore : w.chunkStore.storeRaw pc.frame
        (opt.storeFaults w.tallies.totalChunks) = stored at h
      obtain ⟨e | r, s⟩ := stored
      · cases h
      · simp only at h
        split at h
        · cases h
        · rename_i w1 hckpt
          obtain ⟨x, ops, hindex, rfl⟩ := insertNew_ok h
          exact .new (by simpa using hmode) hcheck hstore (checkpointIfNew_ok hckpt) hindex

/-- The loop after the entry of a chunk. -/
def Loop.withEntry (w : Loop) (opt : RunOptions) (pc : PreparedChunk) : Loop :=
  { w with
    prefixStats := if opt.checkpoint then w.tallies else w.prefixStats
    entryWriter := w.entryWriter.map fun ew => ew.writeEntry pc.entry
    lastEntry := if w.entryWriter.isSome then some pc.entry else w.lastEntry }

lemma writeEntry_ok (h : writeEntry opt w pc = .ok w') : w' = w.withEntry opt pc := by
  unfold writeEntry at h
  simp only at h
  split at h
  · rename_i hew
    cases h
    simp [Loop.withEntry, hew]
  · rename_i ew hew
    split at h
    · cases h
    · cases h
      simp [Loop.withEntry, hew]

/-- **One round of the store loop.** -/
theorem storeChunk_ok (h : storeChunk opt w pc = .ok w') :
    ∃ w1, Stores opt (w.countChunk pc) pc w1 ∧ w' = w1.withEntry opt pc := by
  unfold storeChunk at h
  simp only at h
  split at h
  · cases h
  · cases hstore : storeOrSkip opt (w.countChunk pc) pc with
    | error e =>
      rw [hstore] at h
      cases h
    | ok w1 =>
      rw [hstore] at h
      exact ⟨w1, storeOrSkip_ok hstore, writeEntry_ok h⟩

end Store

end DiskNexus.Pipeline
