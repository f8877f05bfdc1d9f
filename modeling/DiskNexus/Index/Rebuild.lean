import DiskNexus.Index.Dedup

/-!
# Rebuilding the index from the packs

`index.Rebuild` removes the hash index, walks all frames of all pack files in order and inserts
what it finds. An error or a cancellation closes the new index, which flushes what was inserted
so far over the old one.
-/

namespace DiskNexus.Index

open Binary Sha256 Files Store

/-! ## Pack files -/

/-- A pack file as the walk finds it: the number in its name, whether it opens, and the number of
bytes after which reading it fails. -/
structure PackFile where
  name : String
  number : Option UInt32
  opens : Bool
  data : Bytes
  fault : Option ℕ

/-- The ways a read can come back short. -/
inductive ReadError
  | eof
  | io

/-- `io.ReadFull` of `n` bytes at an offset. -/
def PackFile.readFull (p : PackFile) (offset n : ℕ) : Except ReadError Bytes :=
  let readable := match p.fault with
    | none => p.data
    | some k => p.data.take k
  let bytes := (readable.drop offset).take n
  if bytes.length = n then .ok bytes
  else if p.fault.isSome then .error .io
  else .error .eof

/-- A context: the number of checks until one finds it cancelled. -/
abbrev Ctx := Option ℕ

/-- `select` on `ctx.Done()`: whether the context is cancelled. -/
def Ctx.check : Ctx → Bool × Ctx
  | none => (false, none)
  | some 0 => (true, some 0)
  | some (n + 1) => (false, some n)

/-- The text of `ctx.Err()`. -/
def canceled : String := "context canceled"

/-- A frame of a pack with its chunk. -/
structure Frame where
  packNum : UInt32
  offset : ℕ
  rawLen : UInt32
  raw : Bytes
  deriving DecidableEq

/-- What the walk finds at an offset of a pack. -/
inductive FrameStep
  | done
  | fail (message : String)
  | frame (rawLen : UInt32) (raw : Bytes) (next : ℕ)

/-- Read the frame at an offset. Fewer bytes than a header are the end of the pack. -/
def readFrame (c : Codec) (p : PackFile) (offset : ℕ) : FrameStep :=
  match p.readFull offset 8 with
  | .error .eof => .done
  | .error .io => .fail s!"reading frame header at offset {offset}"
  | .ok header =>
    let compLen := ofLE (header.take 4)
    let rawLen := ofLE (header.drop 4)
    match p.readFull (offset + 8) compLen with
    | .error _ => .fail s!"reading frame payload at offset {offset}"
    | .ok payload =>
      match c.decode payload with
      | .error .decrypt => .fail s!"decrypting frame at offset {offset}"
      | .error .decompress => .fail s!"decompressing frame at offset {offset}"
      | .ok raw => .frame (UInt32.ofNat rawLen) raw (offset + (8 + compLen))

section Walk

variable {σ : Type} (c : Codec) (fn : Frame → σ → Except String σ)

/-- The loop of `streamPack` from an offset. A frame takes eight bytes at least. -/
def streamFrames (p : PackFile) (packNum : UInt32) :
    ℕ → ℕ → Ctx → σ → Except String Unit × Ctx × σ
  | 0, _, ctx, s => (.ok (), ctx, s)
  | fuel + 1, offset, ctx, s =>
    match ctx.check with
    | (true, ctx) => (.error canceled, ctx, s)
    | (false, ctx) =>
      match readFrame c p offset with
      | .done => (.ok (), ctx, s)
      | .fail message => (.error message, ctx, s)
      | .frame rawLen raw next =>
        match fn ⟨packNum, offset, rawLen, raw⟩ s with
        | .error e => (.error e, ctx, s)
        | .ok s => streamFrames p packNum fuel next ctx s

/-- `streamPack`. -/
def streamPack (p : PackFile) (packNum : UInt32) (ctx : Ctx) (s : σ) :
    Except String Unit × Ctx × σ :=
  if p.opens then streamFrames c fn p packNum (p.data.length + 1) 0 ctx s
  else (.error "open", ctx, s)

/-- How the walk over the packs ends. After a file name that does not parse the new index is
abandoned, not closed. -/
inductive Outcome
  | done
  | closed (message : String)
  | abandoned (message : String)
  deriving DecidableEq

/-- The main streaming pass of `Rebuild`. -/
def rebuildPacks : List PackFile → Ctx → σ → Outcome × σ
  | [], _, s => (.done, s)
  | p :: ps, ctx, s =>
    match ctx.check with
    | (true, _) => (.closed canceled, s)
    | (false, ctx) =>
      let name := p.name
      match p.number with
      | none => (.abandoned s!"parsing pack number from {name}", s)
      | some packNum =>
        match streamPack c fn p packNum ctx s with
        | (.error e, _, s) => (.closed s!"streaming pack {name}: {e}", s)
        | (.ok (), ctx, s) => rebuildPacks ps ctx s

end Walk

/-- `countFramesInPack`: read headers and seek over payloads. -/
def countFrames (p : PackFile) : ℕ → ℕ → Except String ℕ
  | 0, _ => .ok 0
  | fuel + 1, offset =>
    match p.readFull offset 8 with
    | .error .eof => .ok 0
    | .error .io => .error "read"
    | .ok header =>
      match countFrames p fuel (offset + (8 + ofLE (header.take 4))) with
      | .error e => .error e
      | .ok n => .ok (n + 1)

/-- `countPackChunks`. -/
def countPackChunks : List PackFile → Ctx → Except String ℕ × Ctx
  | [], ctx => (.ok 0, ctx)
  | p :: ps, ctx =>
    match ctx.check with
    | (true, ctx) => (.error canceled, ctx)
    | (false, ctx) =>
      let name := p.name
      match (if p.opens then countFrames p (p.data.length + 1) 0 else .error "open") with
      | .error e => (.error s!"counting frames in {name}: {e}", ctx)
      | .ok n =>
        match countPackChunks ps ctx with
        | (.error e, ctx) => (.error e, ctx)
        | (.ok total, ctx) => (.ok (n + total), ctx)

/-! ## Rebuild -/

/-- What `Rebuild` reads of the repository's configuration. -/
structure RepoConfig where
  managed : Bool
  normalizer : Except String (Bytes → Bytes)

/-- The options and the surroundings of a rebuild. `codec` and `indexKey` are the two domains of the
repository's key. -/
structure RebuildInput where
  repoExists : Bool
  config : Except String RepoConfig
  packs : Except String (List PackFile)
  rebuildBloom : Bool
  rebuildHashIndex : Bool
  codec : Codec
  indexKey : Option Cipher
  nonces : ℕ → Bytes
  deltaFlushEvery : ℕ
  expectedChunks : ℕ
  nbits : ℕ → UInt64
  hasher : Hasher
  ctx : Ctx

/-- The state of the walk. -/
structure RebuildState where
  bloom : Option BloomFilter
  hashIdx : Option HashIndex
  chunksScanned : ℕ

/-- What `Rebuild` has when it starts to change files. -/
structure Prepared where
  normalizer : Bytes → Bytes
  packs : List PackFile
  ctx : Ctx
  bloom : Option BloomFilter

namespace RebuildInput

/-- The default of `DeltaFlushEvery`. -/
def flushEvery (inp : RebuildInput) : ℕ :=
  if inp.deltaFlushEvery = 0 then 500000 else inp.deltaFlushEvery

/-- The number of chunks: given, or counted in a pre-scan. -/
def totalChunks (inp : RebuildInput) (packs : List PackFile) : Except String ℕ × Ctx :=
  if inp.expectedChunks = 0 ∧ inp.rebuildBloom then
    match countPackChunks packs inp.ctx with
    | (.error e, ctx) => (.error s!"pre-scanning packs: {e}", ctx)
    | (.ok n, ctx) => (.ok n, ctx)
  else (.ok inp.expectedChunks, inp.ctx)

/-- The checks, the listing and the pre-scan, which change no file. -/
def prepare (inp : RebuildInput) : Except String Prepared :=
  if !inp.repoExists then .error "repository not found"
  else
    match inp.config with
    | .error e => .error s!"loading repo config: {e}"
    | .ok cfg =>
      if cfg.managed then
        .error "index rebuild is not supported for managed-encryption repositories"
      else
        match cfg.normalizer with
        | .error e => .error s!"reconstructing normalizer from repo config: {e}"
        | .ok normalizer =>
          match inp.packs with
          | .error e => .error s!"listing pack files: {e}"
          | .ok [] => .error "no pack files found"
          | .ok packs =>
            match inp.totalChunks packs with
            | (.error e, _) => .error e
            | (.ok total, ctx) =>
              let total := if total = 0 then 1000000 else total
              .ok ⟨normalizer, packs, ctx,
                if inp.rebuildBloom then some (newBloomFilter (inp.nbits total)) else none⟩

end RebuildInput

/-- The callback of the walk: insert the chunk's identity, and flush now and then. -/
def rebuildFrame (H : Hasher) (normalizer : Bytes → Bytes) (every : ℕ) (f : Frame)
    (s : RebuildState) : Except String RebuildState :=
  let id := H.sum (normalizer f.raw)
  let bloom := s.bloom.map (·.add id.weakHash)
  let n := s.chunksScanned + 1
  match s.hashIdx with
  | none => .ok ⟨bloom, none, n⟩
  | some x =>
    let x := x.insert id f.packNum (UInt64.ofNat f.offset) f.rawLen
    if n % every = 0 then
      match x.flushDelta with
      | .error e => .error s!"flushing hash index delta: {e}"
      | .ok x => .ok ⟨bloom, some x, n⟩
    else .ok ⟨bloom, some x, n⟩

/-- `HashIndex.Close`. -/
def HashIndex.close (x : HashIndex) (d : RepoDir) : Except String Unit × RepoDir :=
  match x.flush with
  | .error e => (.error e, (runOps d x.flushOps).erase .htab)
  | .ok x' => (.ok (), runOps d (x.flushOps ++ x'.closeOps))

/-- Persist the bloom filter. -/
def saveBloom (inp : RebuildInput) (bloom : Option BloomFilter) (d : RepoDir) : RepoDir :=
  match bloom with
  | none => d
  | some bf =>
    let d := runOps d bf.saveOps
    match inp.indexKey with
    | none => d
    | some k =>
      (runOps d (DedupIndex.encryptFileOps k (inp.nonces 0) bf.bytes .bloomEnc)).erase .bloom

/-- Persist the hash index: flush, close, and encrypt it if there is a key. -/
def saveIndex (inp : RebuildInput) (hashIdx : Option HashIndex) (d : RepoDir) :
    Except String Unit × RepoDir :=
  match hashIdx with
  | none => (.ok (), d)
  | some x =>
    match x.flush with
    | .error e => (.error s!"flushing hash index: {e}", (runOps d x.flushOps).erase .htab)
    | .ok x' =>
      let d := runOps d x.flushOps
      match x'.close d with
      | (.error e, d) => (.error s!"closing hash index: {e}", d)
      | (.ok (), d) =>
        match inp.indexKey with
        | none => (.ok (), d)
        | some k => (.ok (), (runOps d
            (DedupIndex.encryptFileOps k (inp.nonces 1) x'.file .hashIndexEnc)).erase .hashIndex)

/-- A fresh hash index, over a file that is removed first. -/
def freshIndex (inp : RebuildInput) (d : RepoDir) :
    Except String (Option HashIndex) × RepoDir :=
  if inp.rebuildHashIndex then
    match newHashIndex (d.erase .hashIndex) false with
    | (.error e, d) => (.error s!"opening hash index: {e}", d)
    | (.ok x, d) => (.ok (some x), d)
  else (.ok none, d)

/-- **`Rebuild`**: the number of chunks, and the directory it leaves. -/
def rebuild (inp : RebuildInput) (d : RepoDir) : Except String ℕ × RepoDir :=
  match inp.prepare with
  | .error e => (.error e, d)
  | .ok prep =>
    match freshIndex inp d with
    | (.error e, d) => (.error e, d)
    | (.ok hashIdx, d) =>
      match rebuildPacks inp.codec (rebuildFrame inp.hasher prep.normalizer inp.flushEvery)
          prep.packs prep.ctx ⟨prep.bloom, hashIdx, 0⟩ with
      | (.abandoned e, _) => (.error e, d)
      | (.closed e, s) => (.error e, match s.hashIdx with
          | none => d
          | some x => (x.close d).2)
      | (.done, s) =>
        match saveIndex inp s.hashIdx (saveBloom inp s.bloom d) with
        | (.error e, d) => (.error e, d)
        | (.ok (), d) => (.ok s.chunksScanned, d)

/-! ## The frames of a walk -/

/-- The callback that only records the frames. -/
def record (f : Frame) (fs : List Frame) : Except String (List Frame) := .ok (fs ++ [f])

/-- The frames a walk gets to see, and how it ends. -/
def seen (c : Codec) (packs : List PackFile) (ctx : Ctx) : Outcome × List Frame :=
  rebuildPacks c record packs ctx []

lemma streamFrames_record_extends (c : Codec) (p : PackFile) (packNum : UInt32)
    (fuel offset : ℕ) (ctx : Ctx) (fs : List Frame) :
    fs <+: (streamFrames c record p packNum fuel offset ctx fs).2.2 := by
  induction fuel generalizing offset ctx fs with
  | zero => exact List.prefix_rfl
  | succ fuel ih =>
    unfold streamFrames
    rcases ctx.check with ⟨_ | _, ctx'⟩
    · cases readFrame c p offset with
      | done => exact List.prefix_rfl
      | fail message => exact List.prefix_rfl
      | frame rawLen raw next => exact (List.prefix_append fs _).trans (ih _ _ _)
    · exact List.prefix_rfl

lemma streamPack_record_extends (c : Codec) (p : PackFile) (packNum : UInt32) (ctx : Ctx)
    (fs : List Frame) : fs <+: (streamPack c record p packNum ctx fs).2.2 := by
  unfold streamPack
  split
  · exact streamFrames_record_extends c p packNum _ 0 ctx fs
  · exact List.prefix_rfl

lemma rebuildPacks_record_extends (c : Codec) (packs : List PackFile) (ctx : Ctx)
    (fs : List Frame) : fs <+: (rebuildPacks c record packs ctx fs).2 := by
  induction packs generalizing ctx fs with
  | nil => exact List.prefix_rfl
  | cons p ps ih =>
    unfold rebuildPacks
    rcases ctx.check with ⟨_ | _, ctx'⟩
    · cases p.number with
      | none => exact List.prefix_rfl
      | some packNum =>
        have hpack := streamPack_record_extends c p packNum ctx' fs
        simp only
        generalize streamPack c record p packNum ctx' fs = r at hpack
        obtain ⟨_ | _, ctx'', fs'⟩ := r
        · exact hpack
        · exact hpack.trans (ih ctx'' fs')
    · exact List.prefix_rfl

section Simulation

variable {σ : Type} {c : Codec} {fn : Frame → σ → Except String σ} {P : Frame → Prop}
  {R : List Frame → σ → Prop}

/-- The loop of one pack, with a callback that keeps up. -/
lemma streamFrames_sim
    (hstep : ∀ fs s f, R fs s → P f → ∃ s', fn f s = .ok s' ∧ R (fs ++ [f]) s')
    (p : PackFile) (packNum : UInt32) (fuel : ℕ) {offset : ℕ} {ctx : Ctx} {fs : List Frame}
    {s : σ} (hP : ∀ f ∈ (streamFrames c record p packNum fuel offset ctx fs).2.2, P f)
    (hR : R fs s) :
    ∃ s', streamFrames c fn p packNum fuel offset ctx s =
        ((streamFrames c record p packNum fuel offset ctx fs).1,
          (streamFrames c record p packNum fuel offset ctx fs).2.1, s') ∧
      R (streamFrames c record p packNum fuel offset ctx fs).2.2 s' := by
  induction fuel generalizing offset ctx fs s with
  | zero => exact ⟨s, rfl, hR⟩
  | succ fuel ih =>
    unfold streamFrames at hP ⊢
    rcases hctx : ctx.check with ⟨_ | _, ctx'⟩ <;> simp only [hctx] at hP ⊢
    · cases hread : readFrame c p offset with
      | done => exact ⟨s, rfl, hR⟩
      | fail message => exact ⟨s, rfl, hR⟩
      | frame rawLen raw next =>
        simp only [hread] at hP
        -- the frame is among those recorded in the end
        have hmem : ⟨packNum, offset, rawLen, raw⟩ ∈
            (streamFrames c record p packNum fuel next ctx'
              (fs ++ [⟨packNum, offset, rawLen, raw⟩])).2.2 :=
          (streamFrames_record_extends c p packNum fuel next ctx' _).subset (by simp)
        obtain ⟨s1, hs1, hR1⟩ := hstep fs s _ hR (hP _ hmem)
        obtain ⟨s', hs', hR'⟩ := ih hP hR1
        refine ⟨s', ?_, hR'⟩
        simp only [hs1]
        exact hs'
    · exact ⟨s, rfl, hR⟩

lemma streamPack_sim
    (hstep : ∀ fs s f, R fs s → P f → ∃ s', fn f s = .ok s' ∧ R (fs ++ [f]) s')
    (p : PackFile) (packNum : UInt32) {ctx : Ctx} {fs : List Frame} {s : σ}
    (hP : ∀ f ∈ (streamPack c record p packNum ctx fs).2.2, P f) (hR : R fs s) :
    ∃ s', streamPack c fn p packNum ctx s = ((streamPack c record p packNum ctx fs).1,
        (streamPack c record p packNum ctx fs).2.1, s') ∧
      R (streamPack c record p packNum ctx fs).2.2 s' := by
  unfold streamPack at hP ⊢
  split
  · rw [if_pos (by assumption)] at hP
    exact streamFrames_sim hstep p packNum _ hP hR
  · exact ⟨s, rfl, hR⟩

/-- **The walk over all packs** ends as the recording walk, in a state that goes with its frames. -/
theorem rebuildPacks_sim
    (hstep : ∀ fs s f, R fs s → P f → ∃ s', fn f s = .ok s' ∧ R (fs ++ [f]) s')
    {packs : List PackFile} {ctx : Ctx} {fs : List Frame} {s : σ}
    (hP : ∀ f ∈ (rebuildPacks c record packs ctx fs).2, P f) (hR : R fs s) :
    ∃ s', rebuildPacks c fn packs ctx s = ((rebuildPacks c record packs ctx fs).1, s') ∧
      R (rebuildPacks c record packs ctx fs).2 s' := by
  induction packs generalizing ctx fs s with
  | nil => exact ⟨s, rfl, hR⟩
  | cons p ps ih =>
    unfold rebuildPacks at hP ⊢
    rcases hctx : ctx.check with ⟨_ | _, ctx'⟩ <;> simp only [hctx] at hP ⊢
    · cases hnum : p.number with
      | none => exact ⟨s, rfl, hR⟩
      | some packNum =>
        simp only [hnum] at hP
        have hsub : ∀ f ∈ (streamPack c record p packNum ctx' fs).2.2, P f := by
          intro f hf
          apply hP
          generalize streamPack c record p packNum ctx' fs = r at hf
          obtain ⟨_ | _, ctx'', fs'⟩ := r
          · exact hf
          · exact (rebuildPacks_record_extends c ps ctx'' fs').subset hf
        obtain ⟨s1, hs1, hR1⟩ := streamPack_sim hstep p packNum hsub hR
        simp only [hs1]
        generalize streamPack c record p packNum ctx' fs = r at hP hR1
        obtain ⟨_ | _, ctx'', fs'⟩ := r
        · exact ⟨s1, rfl, hR1⟩
        · exact ih hP hR1
    · exact ⟨s, rfl, hR⟩

end Simulation

/-! ## The index a walk builds -/

/-- The index entry of a frame. -/
def Frame.entry (H : Hasher) (normalizer : Bytes → Bytes) (f : Frame) : IndexEntry :=
  ⟨H.strong (normalizer f.raw), f.packNum, UInt64.ofNat f.offset, f.rawLen⟩

/-- The state of a walk that goes with the frames it has seen. -/
structure Scanned (H : Hasher) (normalizer : Bytes → Bytes) (fs : List Frame)
    (s : RebuildState) : Prop where
  index : ∃ x, s.hashIdx = some x ∧ x.Good ∧ x.noHtab = false ∧ x.file = [] ∧
    x.content = overlay (fun _ => none) (fs.map (Frame.entry H normalizer))

/-- A frame goes into the index. -/
lemma rebuildFrame_scanned {H : Hasher} {normalizer : Bytes → Bytes} {every : ℕ}
    {fs : List Frame} {s : RebuildState} {f : Frame} (hs : Scanned H normalizer fs s)
    (hf : (f.entry H normalizer).strongHash ≠ .zero) :
    ∃ s', rebuildFrame H normalizer every f s = .ok s' ∧
      Scanned H normalizer (fs ++ [f]) s' := by
  obtain ⟨x, hx, hgood, hmode, hfile, hcontent⟩ := hs.index
  set y := x.insert (H.sum (normalizer f.raw)) f.packNum (UInt64.ofNat f.offset) f.rawLen with hy
  have hygood : y.Good := hgood.insert hf _ _ _
  have hycontent : y.content =
      overlay (fun _ => none) ((fs ++ [f]).map (Frame.entry H normalizer)) := by
    rw [hy, HashIndex.content_insert, hcontent, List.map_append, overlay_append]
    rfl
  unfold rebuildFrame
  simp only [hx, ← hy]
  split
  · obtain ⟨z, hz, hzgood, hzcontent, hzmode, hzfile⟩ :=
      HashIndex.flushDelta_ok hygood (by rw [hy]; exact hmode)
    refine ⟨_, by rw [hz], ⟨z, rfl, hzgood, hzmode.trans hmode, hzfile.trans hfile, ?_⟩⟩
    rw [hzcontent, hycontent]
  · exact ⟨_, rfl, ⟨y, rfl, hygood, hmode, hfile, hycontent⟩⟩

/-- What `Close` leaves of an index. -/
lemma HashIndex.close_ok {x : HashIndex} (hx : x.Good) {d : RepoDir}
    (hd : d.lookup .hashIndex = some x.file) :
    (x.close d).1 = .ok () ∧
      (∃ file, (x.close d).2.lookup .hashIndex = some file ∧ IndexFile file ∧
        fileMap file = x.content) ∧
      ∀ f, ¬ f.Working → f ≠ .hashIndex → (x.close d).2.lookup f = d.lookup f := by
  obtain ⟨x', hx', hgood', -, hmap, -⟩ := flush_ok hx
  have hclose : x.close d = (.ok (), runOps d (x.flushOps ++ x'.closeOps)) := by
    simp only [close, hx']
  rw [hclose]
  refine ⟨rfl, ⟨x'.file, ?_, hgood'.indexFile, hmap⟩, fun f hf hne => ?_⟩
  · rw [runOps_append, lookup_runOps (closeOps_untouched not_working_hashIndex _),
      lookup_runOps_flushOps hx' hd]
  · exact lookup_runOps
      ((flushOps_untouched hf hne.symm x).append (closeOps_untouched hf x')) d

/-- A fresh index is empty, over an otherwise unchanged directory. -/
lemma freshIndex_ok {inp : RebuildInput} (hidx : inp.rebuildHashIndex = true) (d : RepoDir) :
    ∃ x d', freshIndex inp d = (.ok (some x), d') ∧ x.Good ∧ x.noHtab = false ∧ x.file = [] ∧
      x.content = (fun _ => none) ∧ d'.lookup .hashIndex = some [] ∧
      ∀ f, ¬ f.Working → f ≠ .hashIndex → d'.lookup f = d.lookup f := by
  have hlookup : ((d.erase .hashIndex).lookup .hashIndex).getD [] = [] := by simp
  have hempty : IndexFile (((d.erase .hashIndex).lookup .hashIndex).getD []) := by
    exact ⟨by simp [decodeEntries, decodeN], by simp [decodeEntries, decodeN]⟩
  obtain ⟨x, hx, hgood, hcontent, hmode, hfile⟩ := newHashIndex_ok hempty false
  refine ⟨x, (newHashIndex (d.erase .hashIndex) false).2, ?_, hgood, hmode,
    hfile.trans hlookup, ?_, ?_, fun f hf hne => ?_⟩
  · unfold freshIndex
    rw [if_pos hidx, show newHashIndex (d.erase .hashIndex) false = (.ok x, _) from
      Prod.ext hx rfl]
  · rw [hcontent, hlookup]
    rfl
  · rw [lookup_newHashIndex HashIndex.not_working_hashIndex, AList.lookup_insert, hlookup]
  · rw [lookup_newHashIndex hf, AList.lookup_insert_ne hne, AList.lookup_erase_ne hne]

/-- Saving the bloom filter leaves the index file alone. -/
lemma lookup_saveBloom (inp : RebuildInput) (bloom : Option BloomFilter) (d : RepoDir) :
    (saveBloom inp bloom d).lookup .hashIndex = d.lookup .hashIndex := by
  have hsave : ∀ bf : BloomFilter, Untouched FileName.hashIndex bf.saveOps := by
    intro bf
    simp [BloomFilter.saveOps]
  unfold saveBloom
  cases bloom with
  | none => rfl
  | some bf =>
    cases inp.indexKey with
    | none => exact lookup_runOps (hsave bf) d
    | some k =>
      have hencrypt : Untouched FileName.hashIndex
          (DedupIndex.encryptFileOps k (inp.nonces 0) bf.bytes .bloomEnc) :=
        untouched_replaceOps (by simp) (by simp) _
      rw [AList.lookup_erase_ne (by simp), lookup_runOps hencrypt,
        lookup_runOps (hsave bf)]

/-- Persisting an index succeeds, and the file holds its content. -/
lemma saveIndex_ok {inp : RebuildInput} {x : HashIndex} (hx : x.Good) {d : RepoDir}
    (hd : d.lookup .hashIndex = some x.file) :
    ∃ d' file, saveIndex inp (some x) d = (.ok (), d') ∧ IndexFile file ∧
      fileMap file = x.content ∧
      match inp.indexKey with
      | none => d'.lookup .hashIndex = some file
      | some k => d'.lookup .hashIndexEnc = some (k.encryptWithAAD (inp.nonces 1) file) := by
  obtain ⟨x', hx', hgood', hcontent', hmap, -⟩ := HashIndex.flush_ok hx
  have hd' := HashIndex.lookup_runOps_flushOps hx' hd
  obtain ⟨hclose, ⟨file, hlookup, hfile, hfilemap⟩, -⟩ := HashIndex.close_ok hgood' hd'
  generalize hr : x'.close (runOps d x.flushOps) = r at hclose hlookup
  obtain ⟨res, d2⟩ := r
  obtain rfl : res = .ok () := hclose
  unfold saveIndex
  simp only [hx', hr]
  cases hk : inp.indexKey with
  | none => exact ⟨d2, file, rfl, hfile, hfilemap.trans hcontent', hlookup⟩
  | some k =>
    refine ⟨_, x'.file, rfl, hgood'.indexFile, hmap, ?_⟩
    simp only
    rw [AList.lookup_erase_ne (by simp), DedupIndex.encryptFileOps, lookup_runOps_replaceOps]

end DiskNexus.Index
