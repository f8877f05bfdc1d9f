import DiskNexus.Pipeline.Backup
import DiskNexus.Store.Acknowledged

/-!
# The entries of a backup

The store loop writes the entry of each chunk it is given. Together with what the stages deliver
this tells which entries the manifest of a successful backup has.

## Main results

`run_complete`, `run_incomplete`
-/

namespace DiskNexus.Pipeline

open Binary Sha256 Files Store Index Chunking Checkpointing
open Manifest (Entry EntryWriter openEntryWriterResume)

variable {pcs : List PreparedChunk} {digest : Option Hash} {r : Repository}

section Entries

variable {cfg : Config} {opt : RunOptions} {w w' : Loop} {pc : PreparedChunk}

/-- The records that the entry writer has taken, on disk or not. -/
def Loop.written (w : Loop) : Option Bytes := w.entryWriter.map EntryWriter.written

lemma Checkpoints.written {packNum : ℕ} (h : Checkpoints opt w pc packNum w') :
    w'.written = w.written := by
  cases h with
  | none h => rfl
  | @emitted ew hckpt hpack hew =>
      simp [Loop.written, Loop.checkpointed, hew, Manifest.written_flush]

lemma Stores.written (h : Stores opt w pc w') : w'.written = w.written := by
  cases h with
  | hit hcheck => rfl
  | seen hmode => rfl
  | noted hmode => rfl
  | new hmode hcheck hstore hckpt hindex => exact hckpt.written

lemma written_withEntry (w : Loop) (opt : RunOptions) (pc : PreparedChunk) :
    (w.withEntry opt pc).written = w.written.map (· ++ Manifest.encodeEntry pc.entry) := by
  simp only [Loop.written, Loop.withEntry, Option.map_map]
  congr 1
  funext ew
  exact Manifest.written_writeEntry ew pc.entry

lemma storeChunk_written (h : storeChunk opt w pc = .ok w') :
    w'.written = w.written.map (· ++ Manifest.encodeEntry pc.entry) := by
  obtain ⟨w1, hstores, rfl⟩ := storeChunk_ok h
  rw [written_withEntry, hstores.written]
  rfl

/-- The store loop peeled into its first round and the rest. -/
lemma storeAll_cons (h : storeAll (program cfg opt) w (pc :: pcs) = .ok w') :
    ∃ w1, storeChunk opt w pc = .ok w1 ∧ storeAll (program cfg opt) w1 pcs = .ok w' := by
  rw [storeAll, List.foldlM_cons] at h
  cases hstore : storeChunk opt w pc with
  | error e =>
    simp only [program, hstore] at h
    cases h
  | ok w1 =>
    simp only [program, hstore] at h
    exact ⟨w1, rfl, h⟩

lemma storeAll_written (h : storeAll (program cfg opt) w pcs = .ok w') :
    w'.written = w.written.map (· ++ Manifest.encodeEntries (pcs.map PreparedChunk.entry)) := by
  induction pcs generalizing w with
  | nil =>
    cases h
    simp [Manifest.encodeEntries]
  | cons pc pcs ih =>
    obtain ⟨w1, hstore, hrest⟩ := storeAll_cons h
    rw [ih hrest, storeChunk_written hstore, Option.map_map]
    congr 1
    funext bytes
    simp [Manifest.encodeEntries]

/-- A sequential backup peeled into its calls. -/
lemma sequential_ok (h : sequential (program cfg opt) w pcs digest = .ok w') :
    ∃ w1 w2, storeAll (program cfg opt) w pcs = .ok w1 ∧ closeEntries opt w1 = .ok w2 ∧
      finishRun opt w2 digest = .ok w' := by
  unfold sequential at h
  cases hstore : storeAll (program cfg opt) w pcs with
  | error e =>
    rw [hstore] at h
    cases h
  | ok w1 =>
    rw [hstore] at h
    cases hclose : closeEntries opt w1 with
    | error e =>
      change closeEntries opt w1 >>= _ = _ at h
      rw [hclose] at h
      cases h
    | ok w2 =>
      change closeEntries opt w1 >>= _ = _ at h
      rw [hclose] at h
      exact ⟨w1, w2, rfl, hclose, h⟩

lemma closeEntries_ok (h : closeEntries opt w = .ok w') :
    w' = { w with entryWriter := w.entryWriter.map EntryWriter.flush } := by
  unfold closeEntries at h
  split at h
  · rename_i hew
    cases h
    rw [hew, Option.map_none, ← hew]
  · rename_i ew hew
    split at h
    · cases h
    · cases h
      rw [hew, Option.map_some]

/-- What the end of a run did. -/
lemma finishRun_ok (hmode : opt.analyzeOnly = false) (h : finishRun opt w digest = .ok w') :
    ∃ x, w.dedupIdx.flush = .ok x ∧ w' = { w with
      dedupIdx := x
      indexDir := runOps (runOps w.indexDir (w.dedupIdx.flushOps opt.flushNonces))
        (x.closeOps opt.closeNonces)
      manifest := some (w.manifestOf opt digest) } := by
  unfold finishRun at h
  rw [hmode] at h
  simp only [Bool.false_eq_true, if_false] at h
  split at h
  · cases h
  · split at h
    · cases h
    · rename_i x hflush
      split at h
      · cases h
      · cases h
        exact ⟨x, hflush, rfl⟩

lemma made_prepared (hmode : opt.analyzeOnly = false) {sc : SeqChunk}
    (h : Made (program cfg opt) sc pc) :
    ∃ nonce payload, ChunkStore.encodeChunk cfg.codec nonce sc.chunk.data = some payload ∧
      pc = ⟨sc.chunk, cfg.hasher.sum (identityHashInput cfg.normalizer sc.chunk.data),
        encodeFrame payload sc.chunk.data.length, sc.digestStateBefore⟩ := by
  obtain ⟨nonce, h⟩ := h
  simp only [program, prepareChunk, hmode, Bool.false_eq_true, if_false] at h
  split at h
  · cases h
  · rename_i payload hpayload
    cases h
    exact ⟨nonce, payload, hpayload, rfl⟩

lemma made_entry (hmode : opt.analyzeOnly = false) {sc : SeqChunk}
    (h : Made (program cfg opt) sc pc) : pc.entry = cfg.entryOf sc.chunk := by
  obtain ⟨nonce, payload, -, rfl⟩ := made_prepared hmode h
  rfl

lemma made_entries (hmode : opt.analyzeOnly = false) {scs : List SeqChunk}
    (h : List.Forall₂ (Made (program cfg opt)) scs pcs) :
    pcs.map PreparedChunk.entry = (chunksOf scs).map cfg.entryOf := by
  induction h with
  | nil => rfl
  | cons hpc _ ih =>
    rw [List.map_cons, made_entry hmode hpc, ih]
    rfl

/-- The records that a run finds in the sidecar. -/
def RunOptions.startEntries (opt : RunOptions) (entries : Option Bytes) : Bytes :=
  match opt.resume with
  | none => []
  | some rs => (entries.getD []).take rs.entriesLen.toNat

/-- The entry writer of a run: new, or the sidecar cut down to the checkpoint. -/
inductive OpensEntries (opt : RunOptions) (entries : Option Bytes) : Option EntryWriter → Prop
  | create (hresume : opt.resume = none) : OpensEntries opt entries (some .create)
  | resume {rs : ResumeState} {file : Bytes} (hresume : opt.resume = some rs)
      (hfile : entries = some file) (hpos : 0 ≤ rs.entriesLen)
      (hmod : rs.entriesLen % Manifest.entryRecordSize = 0) (hle : rs.entriesLen ≤ file.length) :
      OpensEntries opt entries (some ⟨file.take rs.entriesLen.toNat, []⟩)

lemma openEntries_ok (hmode : opt.analyzeOnly = false) {entries : Option Bytes}
    {ew : Option EntryWriter} (h : openEntries opt entries = .ok ew) :
    OpensEntries opt entries ew := by
  unfold openEntries at h
  rw [hmode] at h
  simp only [Bool.false_eq_true, if_false] at h
  split at h
  · rename_i hresume
    cases h
    exact .create hresume
  · rename_i rs hresume
    cases hopen : openEntryWriterResume entries rs.entriesLen with
    | error e =>
      rw [hopen] at h
      cases h
    | ok ew' =>
      rw [hopen] at h
      cases h
      obtain ⟨file, hfile, hpos, hmod, hle, rfl⟩ := Manifest.openEntryWriterResume_ok hopen
      exact .resume hresume hfile hpos hmod hle

lemma openEntries_written (hmode : opt.analyzeOnly = false) {entries : Option Bytes}
    {ew : Option EntryWriter} (h : openEntries opt entries = .ok ew) :
    ew.map EntryWriter.written = some (opt.startEntries entries) := by
  unfold RunOptions.startEntries
  cases openEntries_ok hmode h with
  | create hresume =>
    rw [hresume]
    rfl
  | resume hresume hfile _ _ _ =>
    rw [hresume, hfile]
    simp [EntryWriter.written]

/-- What the start of a run did. -/
lemma openRun_ok (h : openRun cfg opt r = .ok w) :
    ∃ x d x' ops ew, newDedupIndex cfg.indexKey opt.nbits false r.indexDir = (.ok x, d) ∧
      armDelta opt x = .ok (x', ops) ∧ openEntries opt r.entries = .ok ew ∧
      w = startLoop cfg opt r (preload x' (runOps d ops) opt.preloads).1
        (preload x' (runOps d ops) opt.preloads).2 ew := by
  unfold openRun at h
  split at h
  · cases h
  · split at h
    · cases h
    · rename_i x d hindex
      split at h
      · cases h
      · rename_i x' ops harm
        split at h
        · cases h
        · split at h
          · cases h
          · rename_i ew hopen
            cases h
            exact ⟨x, d, x', ops, ew, hindex, harm, hopen, rfl⟩

/-- The manifest of a sequential backup. -/
lemma sequential_manifest (hmode : opt.analyzeOnly = false) {w0 : Loop}
    (hopen : openRun cfg opt r = .ok w0) {scs : List SeqChunk}
    (hmade : List.Forall₂ (Made (program cfg opt)) scs pcs)
    (hseq : sequential (program cfg opt) w0 pcs digest = .ok w) :
    ∃ m, w.manifest = some m ∧ m.totalBytes = opt.totalSize ∧
      m.entries = opt.startEntries r.entries ++
        Manifest.encodeEntries ((chunksOf scs).map cfg.entryOf) := by
  obtain ⟨w1, w2, hstore, hclose, hfinish⟩ := sequential_ok hseq
  obtain ⟨x, -, rfl⟩ := finishRun_ok hmode hfinish
  refine ⟨_, rfl, rfl, ?_⟩
  obtain ⟨_, _, _, _, ew, -, -, hew, rfl⟩ := openRun_ok hopen
  have hwritten := storeAll_written hstore
  change _ = (ew.map EntryWriter.written).map _ at hwritten
  rw [openEntries_written hmode hew, made_entries hmode hmade] at hwritten
  obtain ⟨ew1, hew1, hfile⟩ := Option.map_eq_some_iff.1 hwritten
  rw [closeEntries_ok hclose]
  simp only [Loop.manifestOf, hew1, Option.map_some, Option.getD_some]
  exact hfile

/-- **A success is complete.** For every repository, every source and every way its reader splits
it, every number of workers, every schedule of the stages and all failures of the environment: if
the caller does not cancel between the chunker's last look at the context and the arrival of the
last chunk at the store loop, the manifest of a run that succeeds has one entry for each chunk of
the whole stream, in stream order, and nothing else, behind what a resumed run found in the sidecar.

**Proof sketch.** A guarded success is the sequential backup. -/
theorem run_complete (hmode : opt.analyzeOnly = false) {r : Repository} {w₀ : Loop}
    (hopen : openRun cfg opt r = .ok w₀) {reads : List Read} {as : List (Act (Option Bytes))}
    (hg : GuardedRun (program cfg opt) (startState cfg opt w₀ reads) as)
    {s : State Source SeqChunk PreparedChunk Loop (Option Hash)}
    (hs : exec (program cfg opt) (startState cfg opt w₀ reads) as = some s)
    (hw : s.main = .succeeded w) :
    ∃ cs digest m, Chunks (program cfg opt) (.start cfg opt reads) cs digest ∧
      bytesOf (chunksOf cs) = streamOf reads ∧ Tiles opt.startOffset (chunksOf cs) ∧
      w.manifest = some m ∧ m.entries = opt.startEntries r.entries ++
        Manifest.encodeEntries ((chunksOf cs).map cfg.entryOf) := by
  obtain ⟨cs, digest, pcs, hchunks, hmade, hseq⟩ := exec_complete (numWorkers_pos _ _) hg hs hw
  obtain ⟨hstream, htiles, -, -⟩ := hchunks.stream
  obtain ⟨m, hm, -, hentries⟩ := sequential_manifest hmode hopen hmade hseq
  exact ⟨cs, digest, m, hchunks, hstream, htiles, hm, hentries⟩

end Entries

/-! ## Small repositories -/

/-- An unencrypted repository whose chunks are single bytes. -/
def plainConfig (hashWorkers packFileMaxSize : ℤ) : Config :=
  ⟨.std, none, ChunkStore.plainCodec, none, false, ⟨0, 1, 1⟩, packFileMaxSize, hashWorkers, 1⟩

/-- A run in which nothing fails. -/
def plainOptions : RunOptions where
  backupID := "b"
  totalSize := 2
  startPackNum := 0
  nbits := 64
  indexDeltaPath := none
  analyzeOnly := false
  checkpoint := false
  resumable := false
  packsGeneration := ""
  resume := none
  checkFails := fun _ => false
  storeFaults := fun _ => .none
  checkpointFaults := fun _ => .none
  entryFails := fun _ => false
  closeEntriesFails := false
  sealFails := false
  saveFails := false
  flushNonces := fun _ => []
  closeNonces := fun _ => []

/-- A repository without a backup. -/
def emptyRepository : Repository := ⟨∅, ∅, none, none, none⟩

/-- An index that has the given chunks. -/
def knownIndex (datas : List Bytes) : RepoDir :=
  (indexDir (datas.map fun data => ⟨sum256 data, 0, 0, UInt32.ofNat data.length⟩)).insert .bloom
    ((datas.foldl (fun bf data => bf.add (Zstd.xxh64 data)) (newBloomFilter 64)).bytes)

/-- The manifest of a run, if it succeeds. -/
def savedBackup (cfg : Config) (opt : RunOptions) (r : Repository) (reads : List Read)
    (as : List (Act (Option Bytes))) : Option Manifest.Backup :=
  match openRun cfg opt r with
  | .error _ => none
  | .ok w =>
    match exec (program cfg opt) (startState cfg opt w reads) as with
    | none => none
    | some s =>
      match s.main with
      | .succeeded w => w.manifest
      | _ => none

lemma savedBackup_eq_some {cfg : Config} {opt : RunOptions} {reads : List Read}
    {as : List (Act (Option Bytes))} {m : Manifest.Backup}
    (h : savedBackup cfg opt r reads as = some m) :
    ∃ w0 s w, openRun cfg opt r = .ok w0 ∧
      exec (program cfg opt) (startState cfg opt w0 reads) as = some s ∧
      s.main = .succeeded w ∧ w.manifest = some m := by
  unfold savedBackup at h
  split at h
  · cases h
  · rename_i w0 hopen
    split at h
    · cases h
    · rename_i s hs
      split at h
      · rename_i w hw
        exact ⟨w0, s, w, hopen, hs, hw, h⟩
      · cases h

/-- Two workers prepare two chunks in the wrong order. -/
def crossed : List (Act (Option Bytes)) :=
  [.chunkerCheck, .chunkerNext, .chunkerSend, .chunkerCheck, .chunkerNext, .chunkerSend,
    .workerRecv 0, .workerRecv 1, .workerPrepare 1 none, .workerSend 1, .workerPrepare 0 none,
    .workerSend 0, .seqRecv, .seqMerge, .seqRecv, .seqMerge, .seqSend, .seqMerge, .seqSend,
    .seqMerge, .chunkerCheck, .chunkerNext, .chunkerClose, .workerExit 0, .workerExit 1,
    .closePrepared, .seqDrain, .seqMerge, .seqClose, .mainRecv, .mainStore, .mainRecv, .mainStore,
    .mainEnd, .mainClose, .mainCheck, .mainWait, .mainFinish]

/-- That schedule, cancelled when the last chunk has come to the store loop. -/
def crossedCancel : List (Act (Option Bytes)) := crossed.take 32 ++ .cancel :: crossed.drop 32

/-- The entries of that run. -/
theorem run_complete_crossed :
    ∃ m cs, savedBackup (plainConfig 2 100) plainOptions
        { emptyRepository with indexDir := knownIndex [[7], [8]] }
        [⟨[7], none⟩, ⟨[8], some .eof⟩] crossedCancel = some m ∧
      bytesOf (chunksOf cs) = [7, 8] ∧
      m.entries = Manifest.encodeEntries ((chunksOf cs).map (plainConfig 2 100).entryOf) := by
  have hsome : (savedBackup (plainConfig 2 100) plainOptions
      { emptyRepository with indexDir := knownIndex [[7], [8]] }
      [⟨[7], none⟩, ⟨[8], some .eof⟩] crossedCancel).isSome := by decide +kernel
  have hheld : (openRun (plainConfig 2 100) plainOptions
      { emptyRepository with indexDir := knownIndex [[7], [8]] }).toOption.all fun w0 =>
        (exec (program (plainConfig 2 100) plainOptions)
          (startState (plainConfig 2 100) plainOptions w0
          [⟨[7], none⟩, ⟨[8], some .eof⟩]) (crossed.take 32)).all fun s => s.held = 0 := by
    decide +kernel
  obtain ⟨m, hm⟩ := Option.isSome_iff_exists.1 hsome
  obtain ⟨w0, s, w, hopen, hs, hw, hmanifest⟩ := savedBackup_eq_some hm
  rw [hopen] at hheld
  have hheld := (Option.all_eq_true _ _).1 hheld w0 rfl
  have hg : GuardedRun (program (plainConfig 2 100) plainOptions)
      (startState (plainConfig 2 100) plainOptions w0 [⟨[7], none⟩, ⟨[8], some .eof⟩])
        crossedCancel := by
    refine (guardedRun_of_not_mem (by simp [crossed])).append fun s1 hs1 => ?_
    refine ⟨fun _ => ?_, fun _ _ => guardedRun_of_not_mem (by simp [crossed])⟩
    exact of_decide_eq_true ((Option.all_eq_true _ _).1 hheld s1 hs1)
  obtain ⟨cs, digest, m', -, hbytes, -, hm', hentries⟩ := run_complete rfl hopen hg hs hw
  rw [hmanifest] at hm'
  cases hm'
  exact ⟨m, cs, hm, hbytes, hentries⟩

/-- The chunker reports the end, the caller cancels, and the worker that holds the chunk quits. -/
def lateCancel : List (Act (Option Bytes)) :=
  [.chunkerCheck, .chunkerNext, .chunkerSend, .chunkerCheck, .chunkerNext, .cancel, .workerRecv 0,
    .workerPrepare 0 none, .workerQuit 0, .chunkerClose, .closePrepared, .seqDrain, .seqMerge,
    .seqClose, .mainEnd, .mainClose, .mainCheck, .mainWait, .mainFinish]

/-- **A success that lacks a chunk.** The run returns a manifest without any entry. -/
theorem run_incomplete :
    (savedBackup (plainConfig 1 100) plainOptions emptyRepository [⟨[7], some .eof⟩] lateCancel).map
        (fun m => m.entries) = some [] ∧
      ∀ cs digest, Chunks (program (plainConfig 1 100) plainOptions)
        (.start (plainConfig 1 100) plainOptions [⟨[7], some .eof⟩]) cs digest → cs ≠ [] := by
  refine ⟨by decide +kernel, ?_⟩
  rintro cs digest hchunks rfl
  obtain ⟨hstream, -⟩ := hchunks.stream
  exact absurd hstream (by decide)

end DiskNexus.Pipeline
