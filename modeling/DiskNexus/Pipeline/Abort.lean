import DiskNexus.Index.FlushCrash
import DiskNexus.Pipeline.Run

/-!
# Backups that come to no end

A run that only analyzes, that fails or that is suspended must not leave its inserts in the index.
It collects them in the buffer and in the hash table of the session, and closes with `CloseDiscard`.
-/

namespace DiskNexus.Pipeline

open Binary Sha256 Files Store Index Chunking Checkpointing

/-- The repository after a run, or after a start that failed. -/
def afterRun (cfg : Config) (opt : RunOptions) (r : Repository) (reads : List Read)
    (as : List (Act (Option Bytes))) : Option Repository :=
  match openRun cfg opt r with
  | .error (_, r') => some r'
  | .ok w =>
    (exec (program cfg opt) (startState cfg opt w reads) as).map fun s => leave opt r s.main

/-- Every file that an open of the index reads is in the other directory as it is. -/
def Kept (d d' : RepoDir) : Prop :=
  ∀ f : FileName, f.Persistent → ∀ data, d.lookup f = some data → d'.lookup f = some data

section Kept

variable {d d₀ : RepoDir}

lemma Kept.trans {d' : RepoDir} (h : Kept d₀ d) (h' : Kept d d') : Kept d₀ d' :=
  fun f hf data hdata => h' f hf data (h f hf data hdata)

lemma Kept.runOps {ops : List (FileOp FileName)} (h : Kept d₀ d)
    (hops : ∀ f : FileName, f.Persistent → Untouched f ops) : Kept d₀ (runOps d ops) := by
  intro f hf data hdata
  rw [lookup_runOps (hops f hf)]
  exact h f hf data hdata

lemma kept_newHashIndex (d : RepoDir) (skipHtab : Bool) : Kept d (newHashIndex d skipHtab).2 := by
  intro f hf data hdata
  rw [lookup_newHashIndex hf.not_working]
  by_cases hf' : f = .hashIndex
  · subst hf'
    rw [AList.lookup_insert, hdata, Option.getD_some]
  · rw [AList.lookup_insert_ne hf', hdata]

/-- An open without a key keeps the files, also if it fails. -/
lemma kept_newDedupIndex (nbits : UInt64) (readOnly : Bool) (d : RepoDir) :
    Kept d (newDedupIndex none nbits readOnly d).2 := by
  refine newDedupIndex_rel Kept.trans ?_ (fun a => kept_newHashIndex a readOnly)
    fun a f hf data hdata => ?_
  · rw [openFiles_dir]
    exact fun f hf data hdata => hdata
  · rw [AList.lookup_erase_ne (by rintro rfl; exact hf), hdata]

end Kept

/-! ## The session of a run -/

/-- What the calls of a run do before the end: no file that an open of the index reads is touched.
-/
structure Onward (w w' : Loop) : Prop where
  key : w'.dedupIdx.key = w.dedupIdx.key
  ops : ∃ ops, (∀ f : FileName, f.Persistent → Untouched f ops) ∧
    w'.indexDir = runOps w.indexDir ops
  store : w.chunkStore.Extends w'.chunkStore
  bounded : w.chunkStore.Bounded → w'.chunkStore.Bounded

section Onward

variable {opt : RunOptions} {w w₁ w₂ : Loop}

/-- A step that leaves the packs and the index alone. -/
lemma onward_of_eq (hstore : w₁.chunkStore = w.chunkStore) (hindex : w₁.dedupIdx = w.dedupIdx)
    (hdir : w₁.indexDir = w.indexDir) : Onward w w₁ :=
  ⟨by rw [hindex], ⟨[], fun _ _ _ ho => (by cases ho), hdir⟩, by rw [hstore]; exact .refl _,
    by rw [hstore]; exact id⟩

lemma Onward.trans (h : Onward w w₁) (h' : Onward w₁ w₂) : Onward w w₂ := by
  obtain ⟨ops, hops, hdir⟩ := h.ops
  obtain ⟨ops', hops', hdir'⟩ := h'.ops
  refine ⟨h'.key.trans h.key, ⟨ops ++ ops', fun f hf => (hops f hf).append (hops' f hf), ?_⟩,
    h.store.trans h'.store, fun hb => h'.bounded (h.bounded hb)⟩
  rw [hdir', hdir, runOps_append]

lemma Leaves.imp {ω : Type} {P Q : ω → Prop} {o : Except (String × ω) ω} (h : Leaves P o)
    (hPQ : ∀ w, P w → Q w) : Leaves Q o := by
  cases o with
  | ok w => exact hPQ w h
  | error e => exact hPQ e.2 h

lemma checkpointIfNew_onward (w : Loop) (pc : PreparedChunk) (packNum : ℕ) :
    Leaves (Onward w) (checkpointIfNew opt w pc packNum) := by
  unfold checkpointIfNew
  split
  · unfold emitCheckpoint
    split
    · exact onward_of_eq rfl rfl rfl
    · split <;> exact onward_of_eq rfl rfl rfl
  · exact onward_of_eq rfl rfl rfl

lemma insertNew_onward (w : Loop) (pc : PreparedChunk) (r : Stored) :
    Leaves (Onward w) (insertNew opt w pc r) := by
  have hkey : (w.insertChunk pc r).1.key = w.dedupIdx.key := (DedupIndex.insert_index _ _ _ _ _).2
  have hops : ∀ f : FileName, f.Persistent → Untouched f (w.insertChunk pc r).2 :=
    fun f hf => captureInsert_untouched hf _ _
  have hflushed : ∀ f : FileName, f.Persistent → Untouched f
      ((w.insertChunk pc r).2 ++ (w.insertChunk pc r).1.index.flushDeltaOps) :=
    fun f hf => (hops f hf).append (HashIndex.flushDeltaOps_untouched hf.not_working _)
  unfold insertNew
  simp only
  split
  · split
    · exact ⟨hkey, ⟨_, hflushed, (runOps_append _ _ _).symm⟩, .refl _, id⟩
    · rename_i hflush
      obtain ⟨index, -, rfl⟩ := DedupIndex.flushHashIndex_inv hflush
      exact ⟨hkey, ⟨_, hflushed, (runOps_append _ _ _).symm⟩, .refl _, id⟩
  · exact ⟨hkey, ⟨_, hops, rfl⟩, .refl _, id⟩

lemma storeNew_onward (w : Loop) (pc : PreparedChunk) : Leaves (Onward w) (storeNew opt w pc) := by
  have hstored : ∀ {f : Faults} {o : Except String Stored} {s : ChunkStore},
      w.chunkStore.storeRaw pc.frame f = (o, s) →
      Onward w { w.countUnique with chunkStore := s } := by
    intro f o s hstore
    have hext := ChunkStore.call_extends w.chunkStore (.storeRaw pc.frame f)
    have hbounded := fun hb => @ChunkStore.call_bounded w.chunkStore hb (.storeRaw pc.frame f)
    rw [ChunkStore.call, hstore] at hext hbounded
    exact ⟨rfl, ⟨[], fun _ _ _ ho => (by cases ho), rfl⟩, hext, hbounded⟩
  unfold storeNew
  simp only
  split
  · rename_i hstore
    exact hstored hstore
  · rename_i r s hstore
    have hfirst := hstored hstore
    have hckpt := @checkpointIfNew_onward opt { w.countUnique with chunkStore := s } pc r.packNum
    split
    · rename_i failed hfailed
      exact hfirst.trans (hckpt.of_error hfailed)
    · rename_i w₁ hw1
      exact (insertNew_onward w₁ pc r).imp fun _ h => (hfirst.trans (hckpt.of_ok hw1)).trans h

/-- **A round of the store loop.** -/
lemma storeChunk_onward (w : Loop) (pc : PreparedChunk) :
    Leaves (Onward w) (storeChunk opt w pc) := by
  have hcount : Onward w (w.countChunk pc) := onward_of_eq rfl rfl rfl
  unfold storeChunk
  simp only
  split
  · exact hcount
  · refine Leaves.bind ?_ fun w₁ hw1 => ?_
    · unfold storeOrSkip
      split
      · exact onward_of_eq rfl rfl rfl
      · split
        · split <;> exact onward_of_eq rfl rfl rfl
        · exact (storeNew_onward (w.countChunk pc) pc).imp fun _ h => hcount.trans h
    · unfold writeEntry
      simp only
      split
      · exact hw1.trans (onward_of_eq rfl rfl rfl)
      · split <;> exact hw1.trans (onward_of_eq rfl rfl rfl)

lemma closeEntries_onward (w : Loop) : Leaves (Onward w) (closeEntries opt w) := by
  unfold closeEntries
  split
  · exact onward_of_eq rfl rfl rfl
  · split <;> exact onward_of_eq rfl rfl rfl

/-- The end of a run that does not come to seal its last pack. -/
lemma finishRun_onward (hunsealed : opt.analyzeOnly = true ∨ opt.sealFails = true) (w : Loop)
    (digest : Option Hash) : Leaves (Onward w) (finishRun opt w digest) := by
  unfold finishRun
  split
  · exact onward_of_eq rfl rfl rfl
  · rename_i hmode
    rw [if_pos (hunsealed.resolve_left hmode)]
    exact onward_of_eq rfl rfl rfl

/-- **Before the end** a run goes onward from where it started. -/
theorem exec_onward {cfg : Config} {w0 : Loop} {reads : List Read} {as : List (Act (Option Bytes))}
    (hunsealed : .mainFinish ∈ as → opt.analyzeOnly = true ∨ opt.sealFails = true)
    {s : State Source SeqChunk PreparedChunk Loop (Option Hash)}
    (hs : exec (program cfg opt) (startState cfg opt w0 reads) as = some s) :
    Onward w0 s.main.world := by
  have hkeeps : Keeps (program cfg opt) (Onward w0) as :=
    ⟨fun w pc hw => (storeChunk_onward w pc).imp fun _ h => hw.trans h,
      fun w hw => (closeEntries_onward w).imp fun _ h => hw.trans h,
      fun hmem w digest hw => (finishRun_onward (hunsealed hmem) w digest).imp fun _ h =>
        hw.trans h⟩
  exact hkeeps.exec hs (onward_of_eq rfl rfl rfl)

end Onward

/-- The invariant of a run: its index directory has the files of the one the run found. -/
structure Holds (d : RepoDir) (w : Loop) : Prop where
  key : w.dedupIdx.key = none
  kept : Kept d w.indexDir

section Session

variable {cfg : Config} {opt : RunOptions} {d d₀ : RepoDir} {x : DedupIndex} {w : Loop}

lemma Holds.onward {w' : Loop} (h : Holds d w) (hw : Onward w w') : Holds d w' := by
  obtain ⟨ops, hops, hdir⟩ := hw.ops
  exact ⟨hw.key.trans h.key, by rw [hdir]; exact h.kept.runOps hops⟩

lemma discardOps_untouched (hkey : x.key = none) {f : FileName} (hf : f.Persistent) :
    Untouched f x.closeDiscardOps :=
  DedupIndex.closeDiscardOps_untouched hf (by rw [hkey]; exact fun h => by cases h)

lemma preload_kept (ts : List InsertTuple) (hkey : x.key = none) (hd : Kept d₀ d) :
    (preload x d ts).1.key = none ∧ Kept d₀ (preload x d ts).2 := by
  induction ts generalizing x d with
  | nil => exact ⟨hkey, hd⟩
  | cons t ts ih =>
    refine ih ?_ (hd.runOps fun f hf => captureInsert_untouched hf _ _)
    exact (DedupIndex.insert_index x _ _ _ _).2.trans hkey

/-- The journal of a run leaves the index and its files alone. -/
lemma armDelta_inv {x' : DedupIndex} {ops : List (FileOp FileName)}
    (h : armDelta opt x = .ok (x', ops)) :
    x'.index = x.index ∧ x'.key = x.key ∧ ∀ f : FileName, f.Persistent → Untouched f ops := by
  unfold armDelta at h
  split at h
  · cases h
    exact ⟨rfl, rfl, fun _ _ _ ho => by cases ho⟩
  · split at h
    · cases h
      exact ⟨rfl, rfl, fun _ _ _ ho => by cases ho⟩
    · exact captureDelta_inv h

/-! ## Whole runs -/

/-- The start of a run kept the index, also if it failed. -/
def StartHolds (d : RepoDir) : Except (String × Repository) Loop → Prop
  | .ok w => Holds d w
  | .error (_, r) => Kept d r.indexDir

lemma openRun_holds (r : Repository) (hkey : cfg.indexKey = none) :
    StartHolds r.indexDir (openRun cfg opt r) := by
  have hkept := kept_newDedupIndex opt.nbits false r.indexDir
  unfold openRun
  rw [hkey]
  split
  · exact fun f hf data hdata => hdata
  · split
    · rename_i e d hopen
      rw [hopen] at hkept
      exact hkept
    · rename_i x d hopen
      rw [hopen] at hkept
      obtain ⟨-, -, -, -, -, hx, -⟩ := newDedupIndex_inv hopen
      have hdiscard : ∀ {y : DedupIndex} {d1 : RepoDir}, y.key = none → Kept r.indexDir d1 →
          Kept r.indexDir (runOps d1 y.closeDiscardOps) :=
        fun hy hd => hd.runOps fun f hf => discardOps_untouched hy hf
      split
      · exact hdiscard hx hkept
      · rename_i x1 ops harm
        obtain ⟨-, hsame, hops⟩ := armDelta_inv harm
        have hx1 := hsame.trans hx
        have hd1 := hkept.runOps hops
        obtain ⟨hx2, hd2⟩ := preload_kept opt.preloads hx1 hd1
        split
        · exact hdiscard hx1 hd1
        · split
          · exact hdiscard hx2 hd2
          · exact ⟨hx2, hd2⟩

/-- What a run leaves has the index of its last state. -/
lemma leave_kept (r : Repository) {m : Main PreparedChunk Loop (Option Hash)}
    (h : Holds d m.world) : Kept d (leave opt r m).indexDir := by
  have hdiscard : ∀ (w : Loop) (suspended : Bool), Holds d w →
      Kept d (w.giveUp r suspended).indexDir :=
    fun w suspended hw => hw.kept.runOps fun f hf => discardOps_untouched hw.key hf
  cases m with
  | succeeded w =>
    simp only [leave]
    split
    · exact hdiscard w false h
    · exact h.kept
  | suspended w => exact hdiscard w true h
  | failed e w => exact hdiscard w false h
  | _ => exact h.kept

/-- **A run that comes to no end keeps the index.** Whether it only analyzes, fails at any point up
to the seal of its last pack, is suspended or dies, the files of an unencrypted index that an open
reads are as they were.

**Proof sketch.** Every call of the run, and the close that drops the session, writes to the journal
and to the working files only. -/
theorem afterRun_kept (hkey : cfg.indexKey = none) {r r' : Repository} {reads : List Read}
    {as : List (Act (Option Bytes))} (hrun : afterRun cfg opt r reads as = some r')
    (hunsealed : .mainFinish ∈ as → opt.analyzeOnly = true ∨ opt.sealFails = true) {f : FileName}
    (hf : f = .hashIndex ∨ f = .bloom ∨ ∃ stem enc, f = .delta stem enc) {data : Bytes}
    (hdata : r.indexDir.lookup f = some data) : r'.indexDir.lookup f = some data := by
  have hpersistent : f.Persistent := by
    rcases hf with rfl | rfl | ⟨stem, enc, rfl⟩ <;> trivial
  suffices Kept r.indexDir r'.indexDir from this f hpersistent data hdata
  have hstart := @openRun_holds cfg opt r hkey
  unfold afterRun at hrun
  split at hrun
  · rename_i e r1 hopen
    rw [hopen] at hstart
    cases hrun
    exact hstart
  · rename_i w hopen
    rw [hopen] at hstart
    obtain ⟨s, hs, rfl⟩ := Option.map_eq_some_iff.1 hrun
    exact leave_kept r (hstart.onward (exec_onward hunsealed hs))

end Session

/-- A delta with one chunk. -/
def nineDelta : Bytes := marshalDelta [⟨sum256 [9], Zstd.xxh64 [9], 0, 0, 1⟩]

/-- A repository whose index has a chunk, and another one in a pending delta. -/
def pendingRepository : Repository :=
  { emptyRepository with indexDir := (knownIndex [[7]]).insert (.delta "a" false) nineDelta }

/-- A chunk goes through the stages and is stored. -/
def oneChunk : List (Act (Option Bytes)) :=
  [.chunkerCheck, .chunkerNext, .chunkerSend, .workerRecv 0, .workerPrepare 0 none, .workerSend 0,
    .seqRecv, .seqMerge, .seqSend, .mainRecv, .mainStore]

/-- A run that stores a chunk and cannot write its entry. -/
theorem afterRun_kept_failed :
    ∃ r', afterRun (plainConfig 1 100) { plainOptions with entryFails := fun _ => true }
        pendingRepository [⟨[8], some .eof⟩] oneChunk = some r' ∧
      r'.indexDir.lookup (.delta "a" false) = some nineDelta := by
  have hsome : (afterRun (plainConfig 1 100) { plainOptions with entryFails := fun _ => true }
      pendingRepository [⟨[8], some .eof⟩] oneChunk).isSome := by decide +kernel
  obtain ⟨r', hr'⟩ := Option.isSome_iff_exists.1 hsome
  refine ⟨r', hr', afterRun_kept rfl hr' (fun hmem => ?_) (.inr (.inr ⟨"a", false, rfl⟩))
    (AList.lookup_insert _)⟩
  simp [oneChunk] at hmem

end DiskNexus.Pipeline
