import DiskNexus.Pipeline.Abort

/-!
# Chains of interrupted backups

A checkpoint records how much of the entries sidecar it covers. It outlives the run that wrote it;
the sidecar is removed by the deferred calls of each run that is not suspended: cancelled by the
caller after a checkpoint of its own. So a resumed run that is cancelled before its first
checkpoint, or that fails, takes the sidecar of the older checkpoint with it.

## Main results

`interrupted_resumable`, `resumed_run_drops_entries`
-/

namespace DiskNexus.Pipeline

open Binary Sha256 Files Store Index Chunking Checkpointing
open Manifest (Entry EntryWriter openEntryWriterResume)

/-! ## Runs that do not fail -/

section Orderly

variable {σ ν α β ω δ : Type}

/-- The chunker has reported an error. -/
def State.chunkerFailed (s : State σ α β ω δ) : Bool :=
  match s.chunkerDone with
  | some (.error _) => true
  | _ => false

/-- `run` comes upon no error of a worker, and upon one of the chunker only if it is suspended. -/
def Orderly (p : Program σ ν α β ω δ) (s : State σ α β ω δ) : Act ν → Prop
  | .mainCheck => s.workerErr = none
  | .mainWait => s.chunkerFailed = true → (p.suspendable s.main.world && s.parentErr) = true
  | _ => True

/-- A schedule of orderly actions. -/
def OrderlyRun (p : Program σ ν α β ω δ) : State σ α β ω δ → List (Act ν) → Prop
  | _, [] => True
  | s, a :: as => Orderly p s a ∧ ∀ s', step p s a = some s' → OrderlyRun p s' as

instance (p : Program σ ν α β ω δ) (s : State σ α β ω δ) (a : Act ν) :
    Decidable (Orderly p s a) := by
  cases a
  case mainCheck => exact inferInstanceAs (Decidable (s.workerErr = none))
  case mainWait => exact inferInstanceAs (Decidable (_ → _))
  all_goals exact isTrue trivial

instance OrderlyRun.decidable (p : Program σ ν α β ω δ) :
    ∀ (s : State σ α β ω δ) (as : List (Act ν)), Decidable (OrderlyRun p s as)
  | _, [] => isTrue trivial
  | s, a :: as =>
    match h : step p s a with
    | none => decidable_of_iff (Orderly p s a)
        ⟨fun ho => ⟨ho, fun s' hs' => by rw [h] at hs'; cases hs'⟩, And.left⟩
    | some s' =>
      have := OrderlyRun.decidable p s' as
      decidable_of_iff (Orderly p s a ∧ OrderlyRun p s' as)
        ⟨fun ho => ⟨ho.1, fun s₁ hs₁ => by rw [h] at hs₁; cases hs₁; exact ho.2⟩,
          fun ho => ⟨ho.1, ho.2 s' h⟩⟩

/-- `run` returned an error. -/
def Main.Failed : Main β ω δ → Prop
  | .failed _ _ => True
  | _ => False

/-- The calls of `run` on chunks of the stream succeed. -/
structure Succeeds (p : Program σ ν α β ω δ) (src₀ : σ) (w₀ : ω) : Prop where
  store : ∀ bs w b, (∀ b' ∈ bs, Stems p src₀ b') → storeAll p w₀ bs = .ok w → Stems p src₀ b →
    ∃ w', p.store w b = .ok w'
  close : ∀ bs w, (∀ b' ∈ bs, Stems p src₀ b') → storeAll p w₀ bs = .ok w →
    ∃ w', p.closeEntries w = .ok w'
  finish : ∀ bs w digest, (∀ b' ∈ bs, Stems p src₀ b') →
    (storeAll p w₀ bs >>= p.closeEntries) = .ok w → ∃ w', p.finish w digest = .ok w'

variable {p : Program σ ν α β ω δ} {src₀ : σ} {w₀ : ω}

/-- An orderly step does not fail. -/
lemma Succeeds.not_fails (h : Succeeds p src₀ w₀) {s : State σ α β ω δ} {stored : List β}
    (hs : Carries p src₀ w₀ s stored) {a : Act ν} (ho : Orderly p s a) {e : String} {w : ω} :
    ¬ Fails p s e w a := by
  intro hfails
  cases hfails with
  | store hm he =>
    have hat := hs.main_at hm id
    have hhand := hs.hand
    rw [hm] at hhand
    obtain ⟨w', hw'⟩ := h.store _ _ _ hs.kept hat (hhand _ (.head _))
    rw [he] at hw'
    cases hw'
  | close hm he =>
    obtain ⟨w', hw'⟩ := h.close _ _ hs.kept (hs.main_at hm id)
    rw [he] at hw'
    cases hw'
  | worker hm herr =>
    have hnone : s.workerErr = none := ho
    rw [hnone] at herr
    cases herr
  | chunker hm hdone hsus =>
    have hcan := ho (by simp [State.chunkerFailed, hdone])
    rw [hm] at hcan
    exact Bool.false_ne_true (hsus.symm.trans hcan)
  | finish hm he =>
    obtain ⟨-, hat⟩ := hs.main_at hm id
    obtain ⟨w', hw'⟩ := h.finish _ _ _ hs.kept hat
    rw [he] at hw'
    cases hw'

lemma Succeeds.step (h : Succeeds p src₀ w₀) {s s' : State σ α β ω δ} {stored : List β}
    (hs : Carries p src₀ w₀ s stored) {a : Act ν} (ho : Orderly p s a) (hstep : Step p s s' a)
    (hlive : ¬ s.main.Failed) : ¬ s'.main.Failed := by
  cases hstep with
  | mainFail hfails => exact absurd hfails (h.not_fails hs ho)
  | mainRecv | mainStore | mainEnd | mainClose | mainCheck | mainWait | mainFinish | mainSuspend =>
    exact id
  | _ => exact hlive

/-- **An orderly run does not fail.** -/
theorem Succeeds.exec (h : Succeeds p src₀ w₀) {s s' : State σ α β ω δ} {stored : List β}
    (hs : Carries p src₀ w₀ s stored) {as : List (Act ν)} (ho : OrderlyRun p s as)
    (hexec : exec p s as = some s') (hlive : ¬ s.main.Failed) : ¬ s'.main.Failed := by
  induction as generalizing s stored with
  | nil =>
    cases hexec
    exact hlive
  | cons a as ih =>
    obtain ⟨s1, hstep, hrest⟩ := Option.bind_eq_some_iff.1 hexec
    obtain ⟨stored1, hs1⟩ := hs.step (step_rule hstep)
    exact ih hs1 (ho.2 s1 hstep) hrest (h.step hs ho.1 (step_rule hstep) hlive)

end Orderly

/-! ## Backups in which nothing fails -/

/-- No call fails. -/
structure RunOptions.Quiet (opt : RunOptions) : Prop where
  check : ∀ n, opt.checkFails n = false
  store : ∀ n, opt.storeFaults n = .none
  checkpoint : ∀ n, opt.checkpointFaults n = .none
  entry : ∀ n, opt.entryFails n = false
  closeEntries : opt.closeEntriesFails = false
  sealing : opt.sealFails = false
  save : opt.saveFails = false

/-- The store loop can go on: the pack is not closed, and there is an entry writer. -/
structure Loop.Ready (w : Loop) : Prop where
  good : w.dedupIdx.index.Good
  table : w.dedupIdx.index.noHtab = false
  pack : w.chunkStore.currentPack ≠ .closed
  writer : w.entryWriter.isSome

variable {reads : List Read} {r : Repository}

section Quiet

variable {cfg : Config} {opt : RunOptions} {w : Loop} {pc : PreparedChunk}

/-- An index that takes a chunk and maybe flushes its buffer. -/
lemma insertNew_ready (opt : RunOptions) (h : w.Ready) (hid : pc.id.strongHash ≠ .zero)
    (r : Stored) :
    ∃ w', insertNew opt w pc r = .ok w' ∧ w'.Ready := by
  have hindex := (DedupIndex.insert_index w.dedupIdx pc.id (UInt32.ofNat r.packNum)
    (UInt64.ofNat r.offset) (UInt32.ofNat pc.chunk.length)).1
  have hgood := h.good.insert hid (UInt32.ofNat r.packNum) (UInt64.ofNat r.offset)
    (UInt32.ofNat pc.chunk.length)
  rw [← hindex] at hgood
  have htable : (w.dedupIdx.insert pc.id (UInt32.ofNat r.packNum) (UInt64.ofNat r.offset)
      (UInt32.ofNat pc.chunk.length)).1.index.noHtab = false := by
    rw [hindex]
    exact h.table
  unfold insertNew
  simp only
  split
  · obtain ⟨x, hx, hxgood, -, hxmode, -⟩ := HashIndex.flushDelta_ok hgood htable
    simp only [DedupIndex.flushHashIndex, hx]
    exact ⟨_, rfl, ⟨hxgood, hxmode.trans htable, h.pack, h.writer⟩⟩
  · exact ⟨_, rfl, ⟨hgood, htable, h.pack, h.writer⟩⟩

lemma checkpointIfNew_ready (hq : opt.Quiet) (h : w.Ready) (pc : PreparedChunk) (packNum : ℕ) :
    ∃ w', checkpointIfNew opt w pc packNum = .ok w' ∧ w'.Ready := by
  unfold checkpointIfNew
  split
  · obtain ⟨ew, hew⟩ := Option.isSome_iff_exists.1 h.writer
    simp only [emitCheckpoint, hew, hq.checkpoint]
    exact ⟨_, rfl, ⟨h.good, h.table, h.pack, rfl⟩⟩
  · exact ⟨w, rfl, h⟩

lemma storeNew_ready (hq : opt.Quiet) (h : w.Ready) (hid : pc.id.strongHash ≠ .zero) :
    ∃ w', storeNew opt w pc = .ok w' ∧ w'.Ready := by
  obtain ⟨r, s, hstore, hopened⟩ := ChunkStore.storeRaw_none h.pack pc.frame
  have hready : ({ w.countUnique with chunkStore := s } : Loop).Ready :=
    ⟨h.good, h.table, by simp [hopened], h.writer⟩
  obtain ⟨w1, hckpt, hw1⟩ := checkpointIfNew_ready hq hready pc r.packNum
  obtain ⟨w2, hinsert, hw2⟩ := insertNew_ready opt hw1 hid r
  refine ⟨w2, ?_, hw2⟩
  unfold storeNew
  simp only [hq.store, hstore]
  erw [hckpt]
  exact hinsert

/-- **A round of the store loop succeeds.** -/
lemma storeChunk_ready (hq : opt.Quiet) (hmode : opt.analyzeOnly = false) (h : w.Ready)
    (hid : pc.id.strongHash ≠ .zero) : ∃ w', storeChunk opt w pc = .ok w' ∧ w'.Ready := by
  have hcount : (w.countChunk pc).Ready := ⟨h.good, h.table, h.pack, h.writer⟩
  obtain ⟨w1, hstore, hw1⟩ : ∃ w1, storeOrSkip opt (w.countChunk pc) pc = .ok w1 ∧ w1.Ready := by
    unfold storeOrSkip
    split
    · exact ⟨_, rfl, ⟨h.good, h.table, h.pack, h.writer⟩⟩
    · rw [hmode]
      exact storeNew_ready hq hcount hid
  obtain ⟨ew, hew⟩ := Option.isSome_iff_exists.1 hw1.writer
  simp only [storeChunk, hq.check, hstore, Bool.false_eq_true, if_false]
  simp only [bind, Except.bind, writeEntry, hew, hq.entry, Bool.false_eq_true, if_false]
  exact ⟨_, rfl, ⟨hw1.good, hw1.table, hw1.pack, rfl⟩⟩

lemma storeAll_ready (cfg : Config) (hq : opt.Quiet) (hmode : opt.analyzeOnly = false)
    {bs : List PreparedChunk} (h : w.Ready) (hbs : ∀ b ∈ bs, b.id.strongHash ≠ .zero) :
    ∃ w', storeAll (program cfg opt) w bs = .ok w' ∧ w'.Ready := by
  induction bs generalizing w with
  | nil => exact ⟨w, rfl, h⟩
  | cons b bs ih =>
    obtain ⟨w1, hstore, hw1⟩ := storeChunk_ready hq hmode h (hbs b (.head _))
    obtain ⟨w2, hrest, hw2⟩ := ih hw1 fun b' hb' => hbs b' (.tail _ hb')
    refine ⟨w2, ?_, hw2⟩
    change (storeChunk opt w b >>= _) = _
    rw [hstore]
    exact hrest

lemma closeEntries_ready (hq : opt.Quiet) (h : w.Ready) :
    ∃ w', closeEntries opt w = .ok w' ∧ w'.Ready := by
  obtain ⟨ew, hew⟩ := Option.isSome_iff_exists.1 h.writer
  simp only [closeEntries, hew, hq.closeEntries, Bool.false_eq_true, if_false]
  exact ⟨_, rfl, ⟨h.good, h.table, h.pack, rfl⟩⟩

lemma finishRun_ready (hq : opt.Quiet) (h : w.Ready) (digest : Option Hash) :
    ∃ w', finishRun opt w digest = .ok w' := by
  obtain ⟨x, hflush, -⟩ := HashIndex.flush_ok h.good
  unfold finishRun
  split
  · exact ⟨w, rfl⟩
  · simp only [hq.sealing, hq.save, DedupIndex.flush, hflush, Bool.false_eq_true, if_false]
    exact ⟨_, rfl⟩

/-- The chunks of a stream have the identities of its parts. -/
lemma stems_id (hmode : opt.analyzeOnly = false)
    (h : Stems (program cfg opt) (.start cfg opt reads) pc) :
    ∃ data, data <:+: streamOf reads ∧
      pc.id = cfg.hasher.sum (identityHashInput cfg.normalizer data) := by
  obtain ⟨a, ⟨cs, src, hemits⟩, hmade⟩ := h
  obtain ⟨nonce, payload, -, rfl⟩ := made_prepared hmode hmade
  have hstream := (emits_cuts hemits).stream
  rw [chunksOf_snoc, bytesOf_snoc] at hstream
  exact ⟨a.chunk.data, ⟨_, _, hstream.symm⟩, rfl⟩

/-- What an undisturbed run starts from: a well-formed index, and no zero hash. -/
structure Undisturbed (cfg : Config) (opt : RunOptions) (r : Repository) (reads : List Read) :
    Prop where
  quiet : opt.Quiet
  index : ∀ x d, newDedupIndex cfg.indexKey opt.nbits false r.indexDir = (.ok x, d) →
    x.index.Good
  preloads : ∀ t ∈ opt.preloads, t.strongHash ≠ .zero
  hashes : ∀ data, data <:+: streamOf reads →
    (cfg.hasher.sum (identityHashInput cfg.normalizer data)).strongHash ≠ .zero

/-- The inserts of a suspended run lie over what the index holds. -/
lemma preload_overlay {x : DedupIndex} (d : RepoDir) {ts : List InsertTuple} (hx : x.index.Good)
    (hts : ∀ t ∈ ts, t.strongHash ≠ .zero) :
    (preload x d ts).1.index.Good ∧
      (preload x d ts).1.index.content = overlay x.index.content (ts.map DeltaEntry.indexEntry) ∧
      (preload x d ts).1.index.file = x.index.file ∧
      (preload x d ts).1.index.noHtab = x.index.noHtab ∧ (preload x d ts).1.key = x.key ∧
      ∃ ops, (∀ f : FileName, f.Persistent → Untouched f ops) ∧
      (preload x d ts).2 = runOps d ops := by
  induction ts generalizing x d with
  | nil => exact ⟨hx, rfl, rfl, rfl, rfl, [], fun _ _ _ ho => (by cases ho), rfl⟩
  | cons t ts ih =>
    obtain ⟨hindex, hkey⟩ := DedupIndex.insert_index x ⟨t.weakHash, t.strongHash⟩ t.packNumber
      t.storeOffset t.chunkLength
    have hgood : (x.index.insert ⟨t.weakHash, t.strongHash⟩ t.packNumber t.storeOffset
        t.chunkLength).Good := hx.insert (hts t (.head _)) _ _ _
    rw [← hindex] at hgood
    obtain ⟨h1, h2, h3, h4, h5, ops, hops, h6⟩ := ih
      (runOps d (x.insert ⟨t.weakHash, t.strongHash⟩ t.packNumber t.storeOffset t.chunkLength).2)
      hgood fun t' ht' => hts t' (.tail _ ht')
    refine ⟨h1, h2.trans ?_, h3.trans (by rw [hindex]; rfl), h4.trans (by rw [hindex]; rfl),
      h5.trans hkey,
      (x.insert ⟨t.weakHash, t.strongHash⟩ t.packNumber t.storeOffset t.chunkLength).2 ++ ops,
      fun f hf => (captureInsert_untouched hf _ _).append (hops f hf), ?_⟩
    · rw [hindex, HashIndex.content_insert]
      rfl
    · rw [runOps_append]
      exact h6

lemma openRun_ready (hu : Undisturbed cfg opt r reads) (hmode : opt.analyzeOnly = false)
    (h : openRun cfg opt r = .ok w) : w.Ready := by
  obtain ⟨x, d, x', ops, ew, hindex, harm, hew, rfl⟩ := openRun_ok h
  obtain ⟨hx', -, -⟩ := armDelta_inv harm
  have hgood := hu.index x d hindex
  obtain ⟨h1, -, -, h2, -⟩ := @preload_overlay x' (runOps d ops) _ (hx' ▸ hgood) hu.preloads
  refine ⟨h1, ?_, ?_, ?_⟩
  · obtain ⟨-, -, -, -, -, -, hx, -⟩ := newDedupIndex_inv hindex
    exact h2.trans (hx' ▸ hx)
  · unfold startLoop
    split <;> simp [ChunkStore.newChunkStore, ChunkStore.newChunkStoreAt]
  · cases openEntries_ok hmode hew <;> rfl

/-- The calls of an undisturbed run succeed. -/
lemma Undisturbed.succeeds (hu : Undisturbed cfg opt r reads) (hmode : opt.analyzeOnly = false)
    (h : openRun cfg opt r = .ok w) :
    Succeeds (program cfg opt) (.start cfg opt reads) w := by
  have hready := openRun_ready hu hmode h
  have hid : ∀ b, Stems (program cfg opt) (.start cfg opt reads) b → b.id.strongHash ≠ .zero := by
    intro b hb
    obtain ⟨data, hdata, hid⟩ := stems_id hmode hb
    rw [hid]
    exact hu.hashes data hdata
  have hall : ∀ bs w', (∀ b ∈ bs, Stems (program cfg opt) (.start cfg opt reads) b) →
      storeAll (program cfg opt) w bs = .ok w' → w'.Ready := by
    intro bs w' hbs hstore
    obtain ⟨w1, hw1, hready1⟩ := storeAll_ready cfg hu.quiet hmode hready
      fun b hb => hid b (hbs b hb)
    rw [hstore] at hw1
    cases hw1
    exact hready1
  refine ⟨fun bs w' b hbs hstore hb => ?_, fun bs w' hbs hstore => ?_,
    fun bs w' digest hbs hclose => ?_⟩
  · obtain ⟨w1, hw1, -⟩ := storeChunk_ready hu.quiet hmode (hall bs w' hbs hstore) (hid b hb)
    exact ⟨w1, hw1⟩
  · obtain ⟨w1, hw1, -⟩ := closeEntries_ready hu.quiet (hall bs w' hbs hstore)
    exact ⟨w1, hw1⟩
  · cases hstore : storeAll (program cfg opt) w bs with
    | error e =>
      rw [hstore] at hclose
      cases hclose
    | ok w1 =>
      rw [hstore] at hclose
      obtain ⟨w2, hw2, hready2⟩ := closeEntries_ready hu.quiet (hall bs w1 hbs hstore)
      have heq : (.ok w2 : Except (String × Loop) Loop) = .ok w' := hw2.symm.trans hclose
      cases heq
      exact finishRun_ready hu.quiet hready2 digest

end Quiet

/-! ## The sidecar of a checkpoint -/

/-- The sidecar holds what the checkpoint covers. -/
def Repository.Resumable (r : Repository) : Prop :=
  ∀ c, r.checkpoint = some c → ∃ file, r.entries = some file ∧ c.entriesLen ≤ file.length

/-- The file of the entry writer holds what the checkpoint covers. -/
def Loop.Covers (w : Loop) : Prop :=
  ∃ ew, w.entryWriter = some ew ∧ ∀ c, w.checkpoint = some c → c.entriesLen ≤ ew.file.length

section Sidecar

variable {cfg : Config} {opt : RunOptions} {w : Loop}

/-- A writer whose file has not shrunk. -/
lemma Loop.Covers.grow {w' : Loop} {ew ew' : EntryWriter} (h : w.Covers)
    (hew : w.entryWriter = some ew) (hckpt : w'.checkpoint = w.checkpoint)
    (hew' : w'.entryWriter = some ew') (hgrow : ew.file.length ≤ ew'.file.length) : w'.Covers := by
  obtain ⟨ew1, hew1, hcovers⟩ := h
  rw [hew] at hew1
  cases hew1
  refine ⟨ew', hew', fun c hc => ?_⟩
  have := hcovers c (hckpt ▸ hc)
  omega

lemma length_file_flush (ew : EntryWriter) : ew.file.length ≤ ew.flush.file.length := by
  rw [Manifest.file_flush, EntryWriter.written, List.length_append]
  omega

lemma checkpointIfNew_covers (h : w.Covers) (pc : PreparedChunk) (packNum : ℕ) :
    Leaves Loop.Covers (checkpointIfNew opt w pc packNum) := by
  unfold checkpointIfNew
  split
  · unfold emitCheckpoint
    split
    · exact h
    · rename_i ew hew
      split
      · exact h
      · exact h.grow hew rfl rfl (length_file_flush ew)
      · exact h.grow hew rfl rfl (length_file_flush ew)
      · refine ⟨ew.flush, rfl, fun c hc => ?_⟩
        cases hc
        exact le_refl _
  · exact h

lemma insertNew_covers (h : w.Covers) (pc : PreparedChunk) (r : Stored) :
    Leaves Loop.Covers (insertNew opt w pc r) := by
  unfold insertNew
  simp only
  split
  · split <;> exact h
  · exact h

/-- **A round of the store loop** keeps what the checkpoint covers, whether it fails or not. -/
lemma storeChunk_covers (h : w.Covers) (pc : PreparedChunk) :
    Leaves Loop.Covers (storeChunk opt w pc) := by
  unfold storeChunk
  simp only
  split
  · exact h
  · refine Leaves.bind ?_ fun w1 hw1 => ?_
    · unfold storeOrSkip
      split
      · exact h
      · split
        · split <;> exact h
        · unfold storeNew
          simp only
          split
          · exact h
          · rename_i r chunkStore hstore
            have hckpt := @checkpointIfNew_covers opt
              { (w.countChunk pc).countUnique with chunkStore := chunkStore } h pc r.packNum
            split
            · rename_i failed hfailed
              exact hckpt.of_error hfailed
            · rename_i w1 hw1
              exact insertNew_covers (hckpt.of_ok hw1) pc r
    · unfold writeEntry
      simp only
      split
      · exact hw1
      · rename_i ew hew
        split
        · exact hw1
        · exact hw1.grow hew rfl rfl (Manifest.file_isPrefix_writeEntry ew pc.entry).length_le

lemma closeEntries_covers (h : w.Covers) : Leaves Loop.Covers (closeEntries opt w) := by
  unfold closeEntries
  split
  · exact h
  · rename_i ew hew
    split
    · exact h
    · exact h.grow hew rfl rfl (length_file_flush ew)

lemma finishRun_covers (h : w.Covers) (digest : Option Hash) :
    Leaves Loop.Covers (finishRun opt w digest) := by
  unfold finishRun
  split
  · exact h
  · split
    · exact h
    · split
      · exact h
      · split <;> exact h

/-! ## Chains of runs -/

/-- A run of the backup goes on from its checkpoint, or starts if there is none. -/
def Continues (opt : RunOptions) (r : Repository) : Prop :=
  opt.analyzeOnly = false ∧
    opt.resume.map ResumeState.entriesLen = r.checkpoint.map fun c => c.entriesLen

/-- An orderly run that did not complete the backup: it could not start, was suspended, or died. -/
inductive Attempt (cfg : Config) (r : Repository) : Repository → Prop
  | refused {opt : RunOptions} {e : String} {r' : Repository} (hcont : Continues opt r)
      (hopen : openRun cfg opt r = .error (e, r')) : Attempt cfg r r'
  | stopped {opt : RunOptions} {reads : List Read} {w : Loop} {as : List (Act (Option Bytes))}
      {s : State Source SeqChunk PreparedChunk Loop (Option Hash)} (hcont : Continues opt r)
      (hu : Undisturbed cfg opt r reads) (hopen : openRun cfg opt r = .ok w)
      (horderly : OrderlyRun (program cfg opt) (startState cfg opt w reads) as)
      (hexec : exec (program cfg opt) (startState cfg opt w reads) as = some s)
      (hincomplete : ∀ w', s.main ≠ .succeeded w') : Attempt cfg r (leave opt r s.main)

/-- A chain of interrupted runs, between which the rest of the repository may change. -/
inductive Interrupted (cfg : Config) (r₀ : Repository) : Repository → Prop
  | start : Interrupted cfg r₀ r₀
  | elsewhere {r r' : Repository} (h : Interrupted cfg r₀ r) (hentries : r'.entries = r.entries)
      (hckpt : r'.checkpoint = r.checkpoint) : Interrupted cfg r₀ r'
  | attempt {r r' : Repository} (h : Interrupted cfg r₀ r) (ha : Attempt cfg r r') :
      Interrupted cfg r₀ r'

lemma openRun_covers (hcont : Continues opt r) (h : openRun cfg opt r = .ok w) :
    w.Covers := by
  obtain ⟨x, d, x', ops, ew, -, -, hew, rfl⟩ := openRun_ok h
  obtain ⟨hmode, hlen⟩ := hcont
  cases openEntries_ok hmode hew with
  | create hresume =>
    refine ⟨.create, rfl, fun c hc => ?_⟩
    rw [hresume, show r.checkpoint = some c from hc] at hlen
    cases hlen
  | resume hresume hfile hpos hmod hle =>
    refine ⟨_, rfl, fun c hc => ?_⟩
    rw [hresume, show r.checkpoint = some c from hc] at hlen
    have heq := Option.some.inj hlen
    simp only [List.length_take] at heq ⊢
    omega

/-- A start that fails leaves the checkpoint and its sidecar alone. -/
lemma openRun_error {r' : Repository} {e : String} (h : openRun cfg opt r = .error (e, r')) :
    r'.entries = r.entries ∧ r'.checkpoint = r.checkpoint := by
  unfold openRun at h
  split at h
  · cases h
    exact ⟨rfl, rfl⟩
  · split at h
    · cases h
      exact ⟨rfl, rfl⟩
    · split at h
      · cases h
        exact ⟨rfl, rfl⟩
      · split at h
        · cases h
          exact ⟨rfl, rfl⟩
        · split at h
          · cases h
            exact ⟨rfl, rfl⟩
          · cases h

/-- What is left of a run that neither failed nor completed the backup. -/
lemma leave_resumable {m : Main PreparedChunk Loop (Option Hash)} (h : m.world.Covers)
    (hfailed : ¬ m.Failed) (hincomplete : ∀ w', m ≠ .succeeded w') :
    (leave opt r m).Resumable := by
  have hfiles : ∀ w : Loop, w.Covers → (w.files r).Resumable := by
    rintro w ⟨ew, hew, hcovers⟩ c hc
    exact ⟨ew.file, by simp [Loop.files, hew], hcovers c hc⟩
  cases m with
  | succeeded w => exact absurd rfl (hincomplete w)
  | failed e w => exact absurd trivial hfailed
  | suspended w =>
    obtain ⟨ew, hew, hcovers⟩ := h
    replace hew : w.entryWriter = some ew := hew
    intro c hc
    refine ⟨ew.written, by simp [leave, Loop.giveUp, hew], ?_⟩
    have := hcovers c hc
    simp only [EntryWriter.written, List.length_append]
    omega
  | _ => exact hfiles _ h

lemma Attempt.resumable {r' : Repository} (h : Attempt cfg r r') (hr : r.Resumable) :
    r'.Resumable := by
  cases h with
  | refused hcont hopen =>
    obtain ⟨hentries, hckpt⟩ := openRun_error hopen
    intro c hc
    rw [hentries]
    exact hr c (hckpt ▸ hc)
  | @stopped opt reads w as s hcont hu hopen horderly hexec hincomplete =>
    refine leave_resumable ?_ ?_ hincomplete
    · have hkeeps : Keeps (program cfg opt) Loop.Covers as :=
        ⟨fun w pc hw => storeChunk_covers hw pc, fun w hw => closeEntries_covers hw,
          fun _ w digest hw => finishRun_covers hw digest⟩
      exact hkeeps.exec hexec (openRun_covers hcont hopen)
    · exact (hu.succeeds hcont.1 hopen).exec (carries_init _ _ _ _) horderly hexec id

/-- **A checkpoint stays resumable along a chain of orderly runs.** However often the backup is
interrupted, as long as every resumed run ends by a suspension or by the death of its process, the
sidecar holds what the latest checkpoint covers.

**Proof sketch.** No call shortens the file of the entry writer, and a checkpoint covers the file
after a flush. -/
theorem interrupted_resumable {r₀ r : Repository} (h₀ : r₀.Resumable) (h : Interrupted cfg r₀ r)
    {c : Checkpoint} (hc : r.checkpoint = some c) :
    ∃ file, r.entries = some file ∧ c.entriesLen ≤ file.length := by
  suffices r.Resumable from this c hc
  clear hc
  induction h with
  | start => exact h₀
  | elsewhere h hentries hckpt ih =>
    intro c hc
    rw [hentries]
    exact ih c (hckpt ▸ hc)
  | attempt h ha ih => exact ha.resumable ih

end Sidecar

/-! ## A run that drops the sidecar -/

/-- A run that writes checkpoints and can be suspended. -/
def resumableOptions : RunOptions := { plainOptions with checkpoint := true, resumable := true }

/-- What a resume takes from a checkpoint, with the inserts of its segments. -/
def resumeState (c : Checkpoint) (inserts : List InsertTuple) : ResumeState :=
  ⟨c.resumeOffset, c.entriesLen, c.tallies, c.digestState, inserts, c.checkpointSeq + 1⟩

/-- The options to go on from the checkpoint of a repository. -/
def resumeOptions (opt : RunOptions) (r : Repository) : RunOptions :=
  { opt with
    startPackNum := ChunkStore.findLatestPack r.packs + 1
    resume := r.checkpoint.map fun c =>
      resumeState c ((tryFastPath ⟨opt.packsGeneration, r.segments, r.entries⟩ c).1.getD []) }

/-- An index without a chunk. -/
def freshRepository : Repository := { emptyRepository with indexDir := indexDir [] }

/-- Two stored chunks. With packs of one byte the second starts a new pack. -/
def twoStored : List (Act (Option Bytes)) :=
  [.chunkerCheck, .chunkerNext, .chunkerSend, .chunkerCheck, .chunkerNext, .chunkerSend,
    .workerRecv 0, .workerPrepare 0 none, .workerSend 0, .workerRecv 0, .workerPrepare 0 none,
    .workerSend 0, .seqRecv, .seqMerge, .seqSend, .seqMerge, .seqRecv, .seqMerge, .seqSend,
    .seqMerge, .mainRecv, .mainStore, .mainRecv, .mainStore]

/-- The caller cancels, and the stages end one after the other. -/
def cancelled : List (Act (Option Bytes)) :=
  [.cancel, .chunkerCheck, .chunkerClose, .workerExit 0, .closePrepared, .seqDrain, .seqMerge,
    .seqClose, .mainEnd, .mainClose, .mainCheck, .mainWait]

/-- Whether an orderly schedule ends early, with a checkpoint. -/
def leavesCheckpoint (cfg : Config) (opt : RunOptions) (r : Repository) (reads : List Read)
    (as : List (Act (Option Bytes))) : Bool :=
  match openRun cfg opt r with
  | .error _ => false
  | .ok w =>
    decide (OrderlyRun (program cfg opt) (startState cfg opt w reads) as) &&
      match exec (program cfg opt) (startState cfg opt w reads) as with
      | none => false
      | some s =>
        match s.main with
        | .succeeded _ => false
        | m => (leave opt r m).checkpoint.isSome

lemma leavesCheckpoint_eq_true {cfg : Config} {opt : RunOptions} {as : List (Act (Option Bytes))}
    (h : leavesCheckpoint cfg opt r reads as = true) :
    ∃ w s c, openRun cfg opt r = .ok w ∧
      OrderlyRun (program cfg opt) (startState cfg opt w reads) as ∧
      exec (program cfg opt) (startState cfg opt w reads) as = some s ∧
      (∀ w', s.main ≠ .succeeded w') ∧ (leave opt r s.main).checkpoint = some c := by
  unfold leavesCheckpoint at h
  split at h
  · cases h
  · rename_i w hopen
    obtain ⟨horderly, h⟩ := Bool.and_eq_true_iff.1 h
    split at h
    · cases h
    · rename_i s hexec
      split at h
      · cases h
      · rename_i hmain
        obtain ⟨c, hc⟩ := Option.isSome_iff_exists.1 h
        exact ⟨w, s, c, hopen, of_decide_eq_true horderly, hexec, hmain, hc⟩

/-- The repository after a run suspended behind its second chunk. -/
def suspendedRepository : Option Repository :=
  afterRun (plainConfig 1 1) resumableOptions freshRepository [⟨[7], none⟩, ⟨[8], none⟩]
    (twoStored ++ cancelled)

/-- Nothing disturbs that run. -/
lemma undisturbed_fresh : Undisturbed (plainConfig 1 1) resumableOptions freshRepository
    [⟨[7], none⟩, ⟨[8], none⟩] where
  quiet := ⟨fun _ => rfl, fun _ => rfl, fun _ => rfl, fun _ => rfl, rfl, rfl, rfl⟩
  index := by
    intro x d hx
    obtain ⟨_, x', -, -, hx', hopened⟩ := newDedupIndex_keyless
      (@indexDir_openable [] (by simp) (by simp)) 64 false
    change newDedupIndex none 64 false (indexDir []) = _ at hx
    rw [hx'] at hx
    cases hx
    exact hopened.good
  preloads := by simp [RunOptions.preloads, resumableOptions, plainOptions]
  hashes := by
    have hall : ∀ data ∈ ([7, 8] : Bytes).sublists, (Hasher.std.sum data).strongHash ≠ .zero := by
      decide +kernel
    exact fun data hdata => hall data (List.mem_sublists.2 hdata.sublist)

/-- It is a link of a chain, and what its checkpoint covers is in the sidecar. -/
theorem interrupted_resumable_suspended :
    ∃ r c file, suspendedRepository = some r ∧ Interrupted (plainConfig 1 1) freshRepository r ∧
      r.checkpoint = some c ∧ r.entries = some file ∧ c.entriesLen ≤ file.length := by
  have hlink : leavesCheckpoint (plainConfig 1 1) resumableOptions freshRepository
      [⟨[7], none⟩, ⟨[8], none⟩] (twoStored ++ cancelled) = true := by decide +kernel
  obtain ⟨w, s, c, hopen, horderly, hexec, hincomplete, hc⟩ := leavesCheckpoint_eq_true hlink
  have hchain : Interrupted (plainConfig 1 1) freshRepository
      (leave resumableOptions freshRepository s.main) :=
    .attempt .start (.stopped ⟨rfl, rfl⟩ undisturbed_fresh hopen horderly hexec hincomplete)
  obtain ⟨file, hfile, hle⟩ := interrupted_resumable (fun c hc => by cases hc) hchain hc
  refine ⟨_, c, file, ?_, hchain, hc, hfile, hle⟩
  simp only [suspendedRepository, afterRun, hopen, hexec, Option.map_some]

/-- **A resumed run that is cancelled drops the sidecar** of the checkpoint it came from. -/
theorem resumed_run_drops_entries :
    (suspendedRepository.map fun r => (r.checkpoint.map fun c => c.entriesLen,
        r.entries.map List.length)) = some (some 45, some 90) ∧
      (suspendedRepository.bind fun r =>
        (afterRun (plainConfig 1 1) (resumeOptions resumableOptions r) r [⟨[8], some .eof⟩]
          cancelled).map fun r' => (r'.checkpoint.map fun c => c.entriesLen, r'.entries)) =
        some (some 45, none) := by
  constructor <;> decide +kernel

end DiskNexus.Pipeline
