import DiskNexus.Index.FlushCrash
import DiskNexus.Prune.Readers
import DiskNexus.Prune.References
import DiskNexus.Store.ChunkStore

/-!
# A prune

`prune.Run` finishes the recovery of an interrupted prune, collects the referenced hashes, copies
the frames of the referenced index entries into fresh packs with a fresh index, and swaps that pair
into place. The index is opened under its own key (`store.IndexKeyFor`).
-/

namespace DiskNexus.Prune

open Binary Sha256 CrashLogic Files Index Store

/-! ## Inputs -/

/-- `crypto.MasterKey`, by the domains that its ciphertexts are tagged with. -/
structure MasterKey where
  chunk : Cipher
  index : Cipher

/-- `store.EncryptionMode`. -/
inductive EncryptionMode
  | none
  | passphrase
  | managed
  | other (name : String)
  deriving DecidableEq, Repr

/-- The fields of `store.RepoConfig` that a prune reads. -/
structure RepoConfig where
  packFileMaxSize : ℤ
  encrypted : Bool
  encryptionMode : EncryptionMode
  normalizer : Except String (Option (Bytes → Bytes))

/-- `config.DefaultPackFileMaxSize`. -/
def defaultPackFileMaxSize : ℤ := 128 * 1024 * 1024

namespace RepoConfig

/-- `RepoConfig.Effective`. -/
def effective (cfg : RepoConfig) : RepoConfig :=
  if cfg.packFileMaxSize ≤ 0 then { cfg with packFileMaxSize := defaultPackFileMaxSize } else cfg

/-- `RepoConfig.EffectiveEncryptionMode`. -/
def effectiveEncryptionMode (cfg : RepoConfig) : EncryptionMode :=
  if cfg.encryptionMode ≠ .none then cfg.encryptionMode
  else if cfg.encrypted then .passphrase
  else .none

/-- `store.IndexKeyFor`. -/
def indexKeyFor (cfg : RepoConfig) (key : Option MasterKey) : Option Cipher :=
  if cfg.effectiveEncryptionMode = .managed then none else key.map (·.index)

end RepoConfig

/-- The options and the surroundings of a prune. -/
structure Input where
  dryRun : Bool
  key : Option MasterKey
  extraReferencedHashes : List Hash
  config : Except String RepoConfig
  compress : Bytes → Bytes
  decompress : Bytes → Option Bytes
  weak : Bytes → UInt64
  nbits : ℕ → UInt64
  nonces : ℕ → Bytes
  generations : Bytes × Bytes
  cancelled : ℕ → Bool
  faults : ℕ → Faults
  closeFails : Bool

/-- The codec of the chunks. -/
def Input.codec (inp : Input) : Codec := ⟨inp.compress, inp.decompress, inp.key.map (·.chunk)⟩

/-- The directories of a repository and its manifests. -/
structure Repository where
  dirs : Repo
  manifests : Manifests

/-- The fields of `prune.Result`, without the duration. -/
structure Result where
  totalChunks : ℕ
  referencedChunks : ℕ
  orphanedChunks : ℕ
  duplicateChunks : ℕ
  bytesBefore : ℕ
  bytesAfter : ℕ
  bytesReclaimed : ℤ
  packFilesBefore : ℕ
  packFilesAfter : ℕ
  bakFilesRemoved : ℕ
  deriving DecidableEq

/-- `dirSize`. -/
def dirSize (d : Option Dir) : ℕ := (d.elim [] fun d => d.entries.map fun f => f.2.length).sum

/-- `countFiles`. -/
def countFiles (d : Option Dir) : ℕ := d.elim 0 fun d => d.entries.length

/-! ## Reading the index -/

/-- The number of chunks a reader sizes a missing bloom filter for. -/
def readOpenExpectedChunks : ℕ := 10000

/-- Open the index for reading, read all its entries, and close it without a flush. -/
def readIndex (key : Option Cipher) (nbits : UInt64) (d : Dir) :
    Except String (List IndexEntry) × Dir :=
  match newDedupIndex key nbits true d with
  | (.error e, d) => (.error s!"opening index: {e}", d)
  | (.ok x, d) =>
    let d := runOps d x.index.flushOps
    match x.index.flush with
    | .error e => (.error s!"reading index entries: flushing before read-all: {e}",
        runOps d x.closeDiscardOps)
    | .ok index => (.ok (decodeEntries index.file ++ index.entries.values),
        runOps d { x with index := index }.closeDiscardOps)

/-- Keep the first entry of each hash. -/
def dedupEntries : List Hash → List IndexEntry → List IndexEntry
  | _, [] => []
  | seen, e :: es =>
    if e.strongHash ∈ seen then dedupEntries seen es
    else e :: dedupEntries (e.strongHash :: seen) es

/-! ## Copying the chunks -/

/-- The packs of a `chunks` directory. -/
def packsOf (d : Dir) : Packs :=
  d.entries.foldr (fun f packs => match f with
    | ⟨.pack n, data⟩ => packs.insert n data
    | _ => packs) ∅

/-- Write packs into a `chunks` directory. -/
def writePacks (d : Dir) (packs : Packs) : Dir :=
  packs.entries.foldr (fun p d => d.insert (.pack p.1) p.2) d

/-- The order of the copy: by pack, then by offset. -/
def ByLocation (a b : IndexEntry) : Prop :=
  a.packNumber < b.packNumber ∨ a.packNumber = b.packNumber ∧ a.storeOffset ≤ b.storeOffset

instance : DecidableRel ByLocation := fun _ _ => inferInstanceAs (Decidable (_ ∨ _))

/-- The staging store and the staging index. -/
structure Staged where
  store : ChunkStore
  index : DedupIndex

/-- One chunk of the copy. -/
def rewriteChunk (inp : Input) (normalizer : Option (Bytes → Bytes)) (old : ChunkStore) (i : ℕ)
    (e : IndexEntry) (s : Staged) : Except String Unit × Staged :=
  if inp.cancelled i then (.error "context canceled", s)
  else
    match old.retrieveRaw e.packNumber.toNat e.storeOffset.toNat with
    | .error e => (.error s!"reading chunk {i}: {e}", s)
    | .ok frame =>
      match s.store.storeRaw frame (inp.faults i) with
      | (.error e, store) =>
          (.error s!"writing chunk {i} to staging: {e}", { s with store := store })
      | (.ok at', store) =>
        match inp.codec.decode ((frame.drop 8).take (statedLen frame)) with
        | .error .decrypt => (.error s!"decrypting chunk {i} for bloom", { s with store := store })
        | .error .decompress =>
          (.error s!"decompressing chunk {i} for bloom", { s with store := store })
        | .ok data =>
          let id : ChunkID := ⟨inp.weak (identityHashInput normalizer data), e.strongHash⟩
          (.ok (), ⟨store, (s.index.insert id (UInt32.ofNat at'.packNum) (UInt64.ofNat at'.offset)
            e.chunkLength).1⟩)

/-- The copy, from the `i`-th chunk on. -/
def rewriteLoop (inp : Input) (normalizer : Option (Bytes → Bytes)) (old : ChunkStore) :
    ℕ → List IndexEntry → Staged → Except String Unit × Staged
  | _, [], s => (.ok (), s)
  | i, e :: es, s =>
    match rewriteChunk inp normalizer old i e s with
    | (.error e, s) => (.error e, s)
    | (.ok (), s) => rewriteLoop inp normalizer old (i + 1) es s

/-- `rewriteChunks`, which closes what it has opened. -/
def rewriteChunks (inp : Input) (cfg : RepoConfig) (old : ChunkStore) (entries : List IndexEntry)
    (r : Repo) : Except String Unit × Repo :=
  let staging := r.staging.getD ⟨none, none⟩
  let chunks := staging.chunks.getD ∅
  let index := staging.index.getD ∅
  let leave (packs : Packs) (index : Dir) : Repo :=
    { r with staging := some ⟨some (writePacks chunks packs), some index⟩ }
  match cfg.normalizer with
  | .error e => (.error s!"reconstructing normalizer from repo config: {e}", leave ∅ index)
  | .ok normalizer =>
    let store := ChunkStore.newChunkStore (packsOf chunks) inp.codec cfg.packFileMaxSize
    match newDedupIndex (cfg.indexKeyFor inp.key) (inp.nbits (entries.length + 100)) true
        index with
    | (.error e, index) => (.error s!"opening staging index: {e}", leave ∅ index)
    | (.ok x, index) =>
      match rewriteLoop inp normalizer old 0 (entries.insertionSort ByLocation) ⟨store, x⟩ with
      | (.error e, s) =>
          (.error e, leave s.store.packs (runOps index (s.index.closeOps inp.nonces)))
      | (.ok (), s) =>
        let done := leave s.store.packs (runOps index (s.index.closeOps inp.nonces))
        match s.index.flush with
        | .error e => (.error s!"flushing staging index: {e}", done)
        | .ok _ => if inp.closeFails then (.error "closing staging store", done) else (.ok (), done)

/-! ## Run -/

/-- What a prune counts before it changes the packs. -/
def classify (all kept deduped : List IndexEntry) (chunks : Option Dir) : Result where
  totalChunks := all.length
  referencedChunks := deduped.length
  orphanedChunks := all.length - kept.length
  duplicateChunks := kept.length - deduped.length
  bytesBefore := dirSize chunks
  bytesAfter := 0
  bytesReclaimed := 0
  packFilesBefore := countFiles chunks
  packFilesAfter := 0
  bakFilesRemoved := 0

/-- The copy, the swap and the cleanup, for the entries that stay. -/
def rewriteAndSwap (inp : Input) (cfg : RepoConfig) (entries : List IndexEntry) (result : Result)
    (r : Repository) : Except String Result × Repository :=
  -- opening the chunk store creates the directory
  let chunks := r.dirs.chunks.getD ∅
  let dirs := { r.dirs with chunks := some chunks }
  let old := ChunkStore.newChunkStore (packsOf chunks) inp.codec cfg.packFileMaxSize
  match rewriteChunks inp cfg old entries dirs with
  | (.error e, dirs) => (.error s!"rewriting chunks: {e}", { r with dirs := dirs })
  | (.ok (), dirs) =>
    let swap := atomicSwap inp.generations.1 inp.generations.2
    let dirs' := Prog.stateAfter Repo.act swap dirs
    match Prog.resultAfter Repo.act swap dirs with
    | some e => (.error s!"atomic swap: {e}", { r with dirs := dirs' })
    | none =>
      let bak := removeBakFiles r.manifests
      (.ok { result with
        bakFilesRemoved := bak.1
        bytesAfter := dirSize dirs'.chunks
        bytesReclaimed := result.bytesBefore - dirSize dirs'.chunks
        packFilesAfter := countFiles dirs'.chunks }, ⟨dirs', bak.2⟩)

/-- `Run` once the entries of the index are there. -/
def runWith (inp : Input) (cfg : RepoConfig) (referenced : List Hash) (all : List IndexEntry)
    (r : Repository) : Except String Result × Repository :=
  let kept := all.filter fun e => e.strongHash ∈ referenced
  let deduped := dedupEntries [] kept
  let result := classify all kept deduped r.dirs.chunks
  if inp.dryRun then (.ok result, r)
  else if result.orphanedChunks = 0 ∧ result.duplicateChunks = 0 then
    let bak := removeBakFiles r.manifests
    (.ok { result with
      bakFilesRemoved := bak.1
      bytesAfter := result.bytesBefore
      packFilesAfter := result.packFilesBefore }, { r with manifests := bak.2 })
  else rewriteAndSwap inp cfg deduped result r

/-- `Run` after the recovery. -/
def runRecovered (inp : Input) (r : Repository) : Except String Result × Repository :=
  match inp.config with
  | .error e => (.error s!"loading repo config: {e}", r)
  | .ok cfg =>
    let cfg := cfg.effective
    match collectReferencedHashes r.manifests with
    | .error e => (.error s!"collecting referenced hashes: {e}", r)
    | .ok referenced =>
      -- opening the index creates its directory
      match readIndex (cfg.indexKeyFor inp.key) (inp.nbits readOpenExpectedChunks)
          (r.dirs.index.getD ∅) with
      | (.error e, d) => (.error e, { r with dirs := { r.dirs with index := some d } })
      | (.ok all, d) => runWith inp cfg (referenced ++ inp.extraReferencedHashes) all
          { r with dirs := { r.dirs with index := some d } }

/-- **`prune.Run`.** -/
def run (inp : Input) (r : Repository) : Except String Result × Repository :=
  if inp.dryRun then
    if pruneRecoveryPending r.dirs then
      (.error
        ("a prior prune was interrupted; run prune without --dry-run to recover before a dry " ++
        "run can report accurately"), r)
    else runRecovered inp r
  else runRecovered inp { r with dirs := r.dirs.recovered }

end DiskNexus.Prune
