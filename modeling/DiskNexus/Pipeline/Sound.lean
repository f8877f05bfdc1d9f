import DiskNexus.Index.Sessions
import DiskNexus.Pipeline.Interrupted
import DiskNexus.Prune.Rewrite

/-!
# Repositories whose index leads to the chunks

Dedup rests on an invariant of the whole repository: whatever hash the index resolves, the frame at
the place it names reads as a chunk with that hash. Runs keep it, since packs only grow and a chunk
is inserted at the place where its frame was just written.

## Main results

`storeChunk_sound`, `storeAll_sound`, `succeeded_sound`, `reachable_sound`
-/

namespace DiskNexus.Pipeline

open Binary Sha256 Files Store Index Chunking Checkpointing
open Store.ChunkStore (Grows Extends FrameAt)
open Prune (opened)

/-! ## Chunks in the packs -/

/-- The hash under which a chunk is known. -/
def Config.identity (cfg : Config) (data : Bytes) : Hash :=
  cfg.hasher.strong (identityHashInput cfg.normalizer data)

/-- The frame at the place of an index entry reads as the chunk. -/
def Fetches (c : Codec) (packs : Packs) (e : IndexEntry) (data : Bytes) : Prop :=
  ∃ frame, FrameAt packs e.packNumber.toNat e.storeOffset.toNat frame ∧ WellFramed c frame data

/-- An entry for the hash `h` that leads to one of the chunks `D`. -/
structure Located (cfg : Config) (D : Set Bytes) (packs : Packs) (h : Hash) (e : IndexEntry) :
    Prop where
  hash : e.strongHash = h
  chunk : ∃ data ∈ D, cfg.identity data = h ∧ Fetches cfg.codec packs e data

/-- No pack is longer than a file can be. -/
def Small (packs : Packs) : Prop := ∀ n file, packs.lookup n = some file → file.length < 2 ^ 63

/-- All that a map resolves leads to chunks of `D`. -/
def Leads (cfg : Config) (D : Set Bytes) (packs : Packs) (m : Hash → Option IndexEntry) : Prop :=
  Small packs → ∀ h e, m h = some e → Located cfg D packs h e

variable {e : IndexEntry} {data file : Bytes} {packs : Packs}

section Packs

variable {cfg : Config} {D : Set Bytes} {packs packs' : Packs} {m : Hash → Option IndexEntry}

lemma Fetches.mono {c : Codec} (h : Fetches c packs e data) (hgrows : Grows packs packs') :
    Fetches c packs' e data := by
  obtain ⟨frame, hat, hframed⟩ := h
  exact ⟨frame, hat.mono hgrows, hframed⟩

/-- A restore reads the chunk. -/
lemma Fetches.retrieve {s : ChunkStore} (h : Fetches s.codec s.packs e data) :
    s.retrieve e.packNumber.toNat e.storeOffset.toNat = .ok data := by
  obtain ⟨frame, hat, hframed⟩ := h
  exact ChunkStore.retrieve_of_frameAt hat hframed.reads hframed.bound

lemma Located.mono {h : Hash} (he : Located cfg D packs h e) (hgrows : Grows packs packs') :
    Located cfg D packs' h e := by
  obtain ⟨data, hdata, hid, hfetches⟩ := he.chunk
  exact ⟨he.hash, data, hdata, hid, hfetches.mono hgrows⟩

lemma Small.of_grows (h : Small packs') (hgrows : Grows packs packs') : Small packs := by
  intro n file hfile
  obtain ⟨more, hmore⟩ := hgrows n file hfile
  have := h n _ hmore
  rw [List.length_append] at this
  omega

lemma Leads.mono (h : Leads cfg D packs m) (hgrows : Grows packs packs') :
    Leads cfg D packs' m :=
  fun hsmall k e he => (h (hsmall.of_grows hgrows) k e he).mono hgrows

lemma Leads.update (h : Leads cfg D packs m) {k : Hash}
    (he : Small packs → Located cfg D packs k e) :
    Leads cfg D packs (Function.update m k (some e)) := by
  intro hsmall k' e' he'
  rw [Function.update_apply] at he'
  split_ifs at he' with hk
  · cases he'
    rw [hk]
    exact he hsmall
  · exact h hsmall k' e' he'

lemma Leads.overlay (h : Leads cfg D packs m) {es : List IndexEntry}
    (hes : Small packs → ∀ e ∈ es, Located cfg D packs e.strongHash e) :
    Leads cfg D packs (overlay m es) := by
  intro hsmall k e he
  rcases mem_of_overlay he with ⟨hmem, rfl⟩ | hm
  · exact hes hsmall e hmem
  · exact h hsmall k e hm

/-- The entry of a frame that was just stored. -/
lemma fetches_stored {c : Codec} {r : Stored} {frame : Bytes}
    (hat : FrameAt packs r.packNum r.offset frame) (hframed : WellFramed c frame data)
    (hnum : r.packNum < 2 ^ 32) (hsmall : Small packs) (h : Hash) (l : UInt32) :
    Fetches c packs ⟨h, UInt32.ofNat r.packNum, UInt64.ofNat r.offset, l⟩ data := by
  refine ⟨frame, ?_, hframed⟩
  obtain ⟨before, after, hlookup, hlen⟩ := hat
  have hsize := hsmall _ _ hlookup
  simp only [List.length_append] at hsize
  have hoffset : (UInt64.ofNat r.offset).toNat = r.offset :=
    UInt64.toNat_ofNat_of_lt' (by simp [UInt64.size]; omega)
  have hpack : (UInt32.ofNat r.packNum).toNat = r.packNum :=
    UInt32.toNat_ofNat_of_lt' (by simpa [UInt32.size] using hnum)
  rw [hoffset, hpack]
  exact ⟨before, after, hlookup, hlen⟩

end Packs

/-! ## Sound repositories -/

/-- What an open sees of the index leads to chunks: the file is sorted, and under a key it is there
in its encrypted form, unless it is empty. -/
structure IndexSound (cfg : Config) (D : Set Bytes) (packs : Packs) (d : RepoDir) (file : Bytes)
    (es : List DeltaEntry) : Prop where
  opened : opened cfg.indexKey d = some (file, es)
  wellFormed : WellFormed file es
  sorted : PrefixSorted (decodeEntries file)
  leads : Leads cfg D packs (openedMap file es)
  encrypted : cfg.indexKey.isSome → (d.lookup .hashIndexEnc).isSome ∨ file = []

/-- A repository whose index leads to chunks of `D`. -/
structure Repository.Sound (cfg : Config) (D : Set Bytes) (r : Repository) : Prop where
  bounded : ∀ n ∈ r.packs, n < 2 ^ 32
  index : ∃ file es, IndexSound cfg D r.packs r.indexDir file es

/-- An open for reading or for writing looks up what it sees. -/
lemma IndexSound.lookup {cfg : Config} {D : Set Bytes} {d : RepoDir} {es : List DeltaEntry}
    (h : IndexSound cfg D packs d file es) (nbits : UInt64) (readOnly : Bool) :
    ∃ x d', newDedupIndex cfg.indexKey nbits readOnly d = (.ok x, d') ∧
      ∀ k, x.lookupDirect k = openedMap file es k := by
  obtain ⟨x, d', hindex, hdir, hx⟩ :=
    newDedupIndex_succeeds nbits readOnly h.opened h.wellFormed
  have hrep : Represents (x.index, d') readOnly (openedMap file es) :=
    ⟨hx.good, by rw [hx.file]; exact h.sorted, hx.content, by rw [hx.file]; exact hdir.hashIndex,
      hx.mode⟩
  exact ⟨x, d', hindex, fun k => hrep.lookup k⟩

/-- What is taken for granted: the decoders invert the encoders, the sizes fit their fields, and the
payload of a chunk passes the read bound. -/
structure Config.Valid (cfg : Config) : Prop where
  lawful : cfg.codec.Lawful
  indexKey : ∀ k ∈ cfg.indexKey, ∀ nonce data,
    k.decryptWithAAD (k.encryptWithAAD nonce data) = some data
  length : cfg.geometry.limit < 2 ^ 32
  payload : ∀ data : Bytes, data.length ≤ max 1 cfg.geometry.limit → ∀ nonce payload,
    ChunkStore.encodeChunk cfg.codec nonce data = some payload → payload.length ≤ maxChunkFrameLen

/-- The session of a run over `r`: all that its index resolves leads to chunks in the packs. -/
structure Loop.Sound (cfg : Config) (D : Set Bytes) (r : Repository) (es : List DeltaEntry)
    (w : Loop) : Prop where
  grows : Grows r.packs w.chunkStore.packs
  settled : w.chunkStore.Settled
  bounded : w.chunkStore.Bounded
  codec : w.chunkStore.codec = cfg.codec
  key : w.dedupIdx.key = cfg.indexKey
  good : w.dedupIdx.index.Good
  table : w.dedupIdx.index.noHtab = false
  dir : SessionDir cfg.indexKey r.indexDir w.dedupIdx.index.file w.indexDir
  base : IndexSound cfg D r.packs r.indexDir w.dedupIdx.index.file es
  leads : Leads cfg D w.chunkStore.packs w.dedupIdx.index.content

/-- A chunk as the workers prepare it. -/
structure PreparedChunk.Genuine (cfg : Config) (D : Set Bytes) (pc : PreparedChunk) : Prop where
  mem : pc.chunk.data ∈ D
  hash : pc.id.strongHash = cfg.identity pc.chunk.data
  nonzero : pc.id.strongHash ≠ .zero
  framed : WellFramed cfg.codec pc.frame pc.chunk.data

section Session

variable {cfg : Config} {D : Set Bytes} {opt : RunOptions} {r : Repository} {es : List DeltaEntry}
  {w w' : Loop} {pc : PreparedChunk}

/-- The invariant does not look at the other fields. -/
lemma Loop.Sound.congr (h : w.Sound cfg D r es) (hstore : w'.chunkStore = w.chunkStore)
    (hindex : w'.dedupIdx = w.dedupIdx) (hdir : w'.indexDir = w.indexDir) :
    w'.Sound cfg D r es := by
  obtain ⟨h1, h2, h3, h4, h5, h6, h7, h8, h9, h10⟩ := h
  rw [← hstore] at h1 h2 h3 h4 h10
  rw [← hindex] at h5 h6 h7 h8 h9 h10
  rw [← hdir] at h8
  exact ⟨h1, h2, h3, h4, h5, h6, h7, h8, h9, h10⟩

/-- What the session finds. -/
def Loop.resolves (w : Loop) (h : Hash) : Prop := (w.dedupIdx.index.content h).isSome

lemma Checkpoints.same {packNum : ℕ} (h : Checkpoints opt w pc packNum w') :
    w'.chunkStore = w.chunkStore ∧ w'.dedupIdx = w.dedupIdx ∧ w'.indexDir = w.indexDir := by
  cases h with
  | none h => exact ⟨rfl, rfl, rfl⟩
  | emitted hckpt hpack hew => exact ⟨rfl, rfl, rfl⟩

/-- The index after a chunk is inserted, and maybe its buffer flushed. -/
structure Inserted (x : DedupIndex) (h : Hash) (e : IndexEntry) (x' : DedupIndex)
    (ops : List (FileOp FileName)) : Prop where
  good : x'.index.Good
  content : x'.index.content = Function.update x.index.content h (some e)
  file : x'.index.file = x.index.file
  mode : x'.index.noHtab = x.index.noHtab
  key : x'.key = x.key
  ops : ∀ f : FileName, f.Persistent → Untouched f ops

lemma inserted_insert {x : DedupIndex} (hx : x.index.Good) {id : ChunkID}
    (hid : id.strongHash ≠ .zero) (p : UInt32) (o : UInt64) (l : UInt32) :
    Inserted x id.strongHash ⟨id.strongHash, p, o, l⟩ (x.insert id p o l).1
      (x.insert id p o l).2 := by
  obtain ⟨hindex, hkey⟩ := DedupIndex.insert_index x id p o l
  refine ⟨?_, ?_, ?_, ?_, hkey, fun f hf => captureInsert_untouched hf _ _⟩
  · rw [hindex]
    exact hx.insert hid p o l
  · rw [hindex, HashIndex.content_insert]
  · rw [hindex]
    rfl
  · rw [hindex]
    rfl

lemma Indexes.inserted {s : Stored} {x : DedupIndex} {ops : List (FileOp FileName)}
    (h : Indexes w pc s x ops) (hgood : w.dedupIdx.index.Good)
    (htable : w.dedupIdx.index.noHtab = false) (hid : pc.id.strongHash ≠ .zero) :
    Inserted w.dedupIdx pc.id.strongHash ⟨pc.id.strongHash, UInt32.ofNat s.packNum,
      UInt64.ofNat s.offset, UInt32.ofNat pc.chunk.length⟩ x ops := by
  have hplain := inserted_insert hgood hid (UInt32.ofNat s.packNum) (UInt64.ofNat s.offset)
    (UInt32.ofNat pc.chunk.length)
  cases h with
  | plain => exact hplain
  | flushed hflush =>
    obtain ⟨index, hindex, hgood', hcontent, hmode, hfile⟩ :=
      HashIndex.flushDelta_ok hplain.good (hplain.mode.trans htable)
    obtain ⟨index', hindex', rfl⟩ := DedupIndex.flushHashIndex_inv hflush
    obtain rfl : index = index' := Except.ok.inj (hindex.symm.trans hindex')
    refine ⟨hgood', hcontent.trans hplain.content, hfile.trans hplain.file,
      hmode.trans hplain.mode, hplain.key, fun f hf => (hplain.ops f hf).append ?_⟩
    exact HashIndex.flushDeltaOps_untouched hf.not_working _

/-- A chunk that was stored and inserted. -/
lemma Loop.Sound.inserted (h : w.Sound cfg D r es) (hpc : pc.Genuine cfg D) {f : Faults}
    {s : Stored}
    {store : ChunkStore} (hstore : w.chunkStore.storeRaw pc.frame f = (.ok s, store)) {w1 : Loop}
    (hw1 : w1.chunkStore = store ∧ w1.dedupIdx = w.dedupIdx ∧ w1.indexDir = w.indexDir)
    {x : DedupIndex} {ops : List (FileOp FileName)} (hindex : Indexes w1 pc s x ops) :
    (w1.inserted opt pc s x ops).Sound cfg D r es ∧
      x.index.content = Function.update w.dedupIdx.index.content pc.id.strongHash
        (some ⟨pc.id.strongHash, UInt32.ofNat s.packNum, UInt64.ofNat s.offset,
          UInt32.ofNat pc.chunk.length⟩) := by
  obtain ⟨rfl, hidx, hdir⟩ := hw1
  obtain ⟨hext, hsettled, hbounded, hnum, hat⟩ :=
    Prune.storeRaw_frameAt h.settled h.bounded hstore
  have hins := hindex.inserted (hidx ▸ h.good) (hidx ▸ h.table) hpc.nonzero
  rw [hidx] at hins
  refine ⟨⟨h.grows.trans hext.grows, hsettled, hbounded, hext.codec.trans h.codec,
    hins.key.trans h.key, hins.good, hins.mode.trans h.table, ?_, ?_, ?_⟩, hins.content⟩
  · have hsession := (h.dir.runOps hins.ops)
    rw [← hdir, ← hins.file] at hsession
    exact hsession
  · have hbase := h.base
    rw [← hins.file] at hbase
    exact hbase
  · change Leads cfg D w1.chunkStore.packs x.index.content
    rw [hins.content]
    refine (h.leads.mono hext.grows).update fun hsmall =>
      ⟨rfl, pc.chunk.data, hpc.mem, hpc.hash.symm, ?_⟩
    exact fetches_stored hat hpc.framed hnum hsmall _ _

/-- **One round of the store loop** keeps the invariant; the index resolves the chunk then. -/
theorem storeChunk_sound (hmode : opt.analyzeOnly = false) (h : w.Sound cfg D r es)
    (hpc : pc.Genuine cfg D) (hstep : storeChunk opt w pc = .ok w') :
    w'.Sound cfg D r es ∧ w'.resolves pc.id.strongHash ∧ ∀ k, w.resolves k → w'.resolves k := by
  obtain ⟨w1, hstores, rfl⟩ := storeChunk_ok hstep
  cases hstores with
  | @hit e hcheck =>
    refine ⟨h.congr rfl rfl rfl, ?_, fun k hk => hk⟩
    have hlookup : w.dedupIdx.index.lookup pc.id.strongHash = some e := by
      have hcheck' : w.dedupIdx.check pc.id = some e := hcheck
      unfold DedupIndex.check at hcheck'
      split at hcheck'
      · exact hcheck'
      · cases hcheck'
    rw [HashIndex.lookup_eq_content (by rw [h.good.mode, h.table]; rfl)] at hlookup
    exact Option.isSome_iff_exists.2 ⟨e, hlookup⟩
  | seen hanalyze =>
    rw [hmode] at hanalyze
    cases hanalyze
  | noted hanalyze =>
    rw [hmode] at hanalyze
    cases hanalyze
  | @new s store w2 x ops _ hcheck hstore hckpt hindex =>
    obtain ⟨hsound, hcontent⟩ := @Loop.Sound.inserted cfg D opt r es w pc h hpc _ _ _ hstore w2
      hckpt.same _ _ hindex
    refine ⟨hsound.congr rfl rfl rfl, ?_, fun k hk => ?_⟩
    · change (x.index.content _).isSome
      rw [hcontent, Function.update_self]
      rfl
    · change (x.index.content k).isSome
      rw [hcontent, Function.update_apply]
      split
      · rfl
      · exact hk

/-- **The store loop** keeps the invariant, and resolves all that it was given. -/
theorem storeAll_sound (hmode : opt.analyzeOnly = false) {pcs : List PreparedChunk}
    (h : w.Sound cfg D r es) (hpcs : ∀ pc ∈ pcs, pc.Genuine cfg D)
    (hrun : storeAll (program cfg opt) w pcs = .ok w') :
    w'.Sound cfg D r es ∧ (∀ pc ∈ pcs, w'.resolves pc.id.strongHash) ∧
      ∀ k, w.resolves k → w'.resolves k := by
  induction pcs generalizing w with
  | nil =>
    cases hrun
    exact ⟨h, fun pc hpc => (by cases hpc), fun k hk => hk⟩
  | cons pc pcs ih =>
    obtain ⟨w1, hstore, hrest⟩ := storeAll_cons hrun
    obtain ⟨h1, hpc1, hkeep1⟩ := storeChunk_sound hmode h (hpcs pc (.head _)) hstore
    obtain ⟨h2, hpcs2, hkeep2⟩ :=
      ih h1 (fun pc' hpc' => hpcs pc' (.tail _ hpc')) hrest
    refine ⟨h2, fun pc' hpc' => ?_, fun k hk => hkeep2 k (hkeep1 k hk)⟩
    rcases List.mem_cons.1 hpc' with rfl | hpc'
    · exact hkeep2 _ hpc1
    · exact hpcs2 pc' hpc'

/-! ## The start and the end of a run -/

/-- The inserts that a resume makes again lead to chunks. -/
def RunOptions.PreloadsSound (opt : RunOptions) (cfg : Config) (D : Set Bytes) (packs : Packs) :
    Prop :=
  ∀ t ∈ opt.preloads, t.strongHash ≠ .zero ∧
    (Small packs → Located cfg D packs t.strongHash t.indexEntry)

/-- The store of a run, before it has opened a pack. -/
lemma startLoop_store (hr : ∀ n ∈ r.packs, n < 2 ^ 32) (hstart : opt.startPackNum < 2 ^ 32)
    (x : DedupIndex) (d : RepoDir) (ew : Option Manifest.EntryWriter) :
    (startLoop cfg opt r x d ew).chunkStore.packs = r.packs ∧
      (startLoop cfg opt r x d ew).chunkStore.codec = cfg.codec ∧
      (startLoop cfg opt r x d ew).chunkStore.Settled ∧
      (startLoop cfg opt r x d ew).chunkStore.Bounded := by
  unfold startLoop
  simp only
  split
  · exact ⟨rfl, rfl, fun hopen => (by cases hopen), hstart, hr⟩
  · exact ⟨rfl, rfl, fun hopen => (by cases hopen), newChunkStore_bounded hr _ _⟩

/-- **The start of a run** on a sound repository. -/
theorem openRun_sound (hr : r.Sound cfg D) (hstart : opt.startPackNum < 2 ^ 32)
    (hpre : opt.PreloadsSound cfg D r.packs) (h : openRun cfg opt r = .ok w) :
    ∃ es, w.Sound cfg D r es := by
  obtain ⟨x, d, x', ops, ew, hindex, harm, -, rfl⟩ := openRun_ok h
  obtain ⟨file, es, hbase⟩ := hr.index
  obtain ⟨_, _, hindex', hdir, ⟨hkey, -, -, -, hgood, hmode, hfile, hcontent⟩⟩ :=
    newDedupIndex_succeeds opt.nbits false hbase.opened hbase.wellFormed
  rw [hindex] at hindex'
  cases hindex'
  obtain ⟨hsame, hsamekey, hops⟩ := armDelta_inv harm
  obtain ⟨hgood', hcontent', hfile', hmode', hkey', ops', hops', hdir'⟩ :=
    @preload_overlay x' (runOps d ops) opt.preloads (hsame ▸ hgood) fun t ht => (hpre t ht).1
  obtain ⟨hpacks, hcodec, hsettled, hbounded⟩ := @startLoop_store cfg opt r hr.bounded hstart
    (preload x' (runOps d ops) opt.preloads).1 (preload x' (runOps d ops) opt.preloads).2 ew
  have hfile1 : (preload x' (runOps d ops) opt.preloads).1.index.file = file := by
    rw [hfile', hsame, hfile]
  refine ⟨es,
    ⟨by rw [hpacks]; exact .refl _, hsettled, hbounded, hcodec, ?_, hgood', ?_, ?_, ?_, ?_⟩⟩
  · exact hkey'.trans (hsamekey.trans hkey)
  · exact hmode'.trans (by rw [hsame, hmode])
  · change SessionDir cfg.indexKey r.indexDir _ (preload x' (runOps d ops) opt.preloads).2
    rw [hdir']
    change SessionDir _ _ (preload x' (runOps d ops) opt.preloads).1.index.file _
    rw [hfile1]
    exact (hdir.runOps hops).runOps hops'
  · change IndexSound cfg D r.packs r.indexDir
      (preload x' (runOps d ops) opt.preloads).1.index.file es
    rw [hfile1]
    exact hbase
  · rw [hpacks]
    change Leads cfg D r.packs (preload x' (runOps d ops) opt.preloads).1.index.content
    rw [hcontent', hsame, hcontent]
    refine hbase.leads.overlay fun hsmall e he => ?_
    obtain ⟨t, ht, rfl⟩ := List.mem_map.1 he
    exact (hpre t ht).2 hsmall

/-- **The end of a run**: the index that an open sees then resolves all that the session did. -/
theorem finishRun_sound (hvalid : cfg.Valid) (hmode : opt.analyzeOnly = false)
    (h : w.Sound cfg D r es) {digest : Option Hash} (hfinish : finishRun opt w digest = .ok w') :
    w'.chunkStore = w.chunkStore ∧ ∃ file,
      IndexSound cfg D w'.chunkStore.packs w'.indexDir file es ∧
      ∀ k, w.resolves k → (openedMap file es k).isSome := by
  obtain ⟨x, hflush, rfl⟩ := finishRun_ok hmode hfinish
  obtain ⟨hindex, -⟩ := flush_inv hflush
  obtain ⟨x', hx', hgood, -, hmap, -⟩ := HashIndex.flush_ok h.good
  rw [hindex] at hx'
  cases hx'
  obtain ⟨hopened, henc⟩ := h.dir.finished h.key h.base.opened hvalid.indexKey hflush
    opt.flushNonces opt.closeNonces
  refine ⟨rfl, x.index.file, ⟨hopened, ⟨hgood.indexFile, h.base.wellFormed.deltas⟩,
    prefixSorted_flush h.base.sorted hindex, ?_, fun hkey => .inl (henc hkey)⟩, fun k hk => ?_⟩
  · -- a pending delta decides on a hash as it did before, and on the others the session does
    intro hsmall k e he
    rcases overlay_eq_or_base (fileMap x.index.file) (fileMap w.dedupIdx.index.file)
      (es.map DeltaEntry.indexEntry) k with heq | ⟨hnew, -⟩
    · have hold : openedMap w.dedupIdx.index.file es k =
        some e := by rw [openedMap, ← heq]; exact he
      exact (h.base.leads (hsmall.of_grows h.grows) k e hold).mono h.grows
    · rw [openedMap, hnew, hmap] at he
      exact h.leads hsmall k e he
  · rw [openedMap, isSome_overlay, hmap]
    exact .inl hk

lemma closeEntries_sound (h : w.Sound cfg D r es) (hclose : closeEntries opt w = .ok w') :
    w'.Sound cfg D r es ∧ ∀ k, w.resolves k → w'.resolves k := by
  rw [closeEntries_ok hclose]
  exact ⟨h.congr rfl rfl rfl, fun k hk => hk⟩

/-- A sequential backup. -/
theorem sequential_sound (hvalid : cfg.Valid) (hmode : opt.analyzeOnly = false)
    {pcs : List PreparedChunk} (h : w.Sound cfg D r es) (hpcs : ∀ pc ∈ pcs, pc.Genuine cfg D)
    {digest : Option Hash} (hseq : sequential (program cfg opt) w pcs digest = .ok w') :
    w'.chunkStore.Bounded ∧ ∃ file,
      IndexSound cfg D w'.chunkStore.packs w'.indexDir file es ∧
      ∀ pc ∈ pcs, (openedMap file es pc.id.strongHash).isSome := by
  obtain ⟨w1, w2, hstore, hclose, hfinish⟩ := sequential_ok hseq
  obtain ⟨h1, hpcs1, -⟩ := storeAll_sound hmode h hpcs hstore
  obtain ⟨h2, hkeep2⟩ := closeEntries_sound h1 hclose
  obtain ⟨hsame, file, hindex, hkeep⟩ := finishRun_sound hvalid hmode h2 hfinish
  rw [hsame] at hindex ⊢
  exact ⟨h2.bounded, file, hindex, fun pc hpc => hkeep _ (hkeep2 _ (hpcs1 pc hpc))⟩

/-! ## Chunks of a stream -/

/-- None of the chunks of `D` has the zero hash, which stands for an empty slot. -/
def Config.Hashes (cfg : Config) (D : Set Bytes) : Prop := ∀ data ∈ D, cfg.identity data ≠ .zero

/-- The chunks that a stream can be cut into are in `D`. -/
def Within (D : Set Bytes) (stream : Bytes) : Prop := ∀ data, data <:+: stream → data ∈ D

lemma emitted_chunk {reads : List Read} {sc : SeqChunk}
    (h : Emitted (program cfg opt) (.start cfg opt reads) sc) :
    sc.chunk.data <:+: streamOf reads ∧ sc.chunk.data.length ≤ max 1 cfg.geometry.limit := by
  obtain ⟨cs, src, hemits⟩ := h
  have hcuts := emits_cuts hemits
  refine ⟨?_, hcuts.bounded sc (by simp)⟩
  have hstream := hcuts.stream
  rw [chunksOf_snoc, bytesOf_snoc] at hstream
  exact ⟨_, _, hstream.symm⟩

/-- **What a worker prepares** of a chunk. -/
lemma made_genuine (hvalid : cfg.Valid) (hmode : opt.analyzeOnly = false) (hhash : cfg.Hashes D)
    {sc : SeqChunk} (hmem : sc.chunk.data ∈ D)
    (hlen : sc.chunk.data.length ≤ max 1 cfg.geometry.limit)
    (hmade : Made (program cfg opt) sc pc) : pc.Genuine cfg D := by
  obtain ⟨nonce, payload, hpayload, rfl⟩ := made_prepared hmode hmade
  refine ⟨hmem, rfl, hhash _ hmem, ?_⟩
  have hframe : ChunkStore.Call.frame cfg.codec (.store nonce sc.chunk.data .none) =
      some (encodeFrame payload sc.chunk.data.length) := by
    simp [ChunkStore.Call.frame, hpayload]
  have hfits : ChunkStore.Call.Fits cfg.codec (.store nonce sc.chunk.data .none) :=
    fun payload' hpayload' => hvalid.payload _ hlen nonce payload' hpayload'
  obtain ⟨data, hown, hframed⟩ :=
    ChunkStore.Call.Sound.wellFramed hvalid.lawful hframe ⟨hfits, trivial⟩
  cases hown
  exact hframed

lemma stems_genuine {reads : List Read} (hvalid : cfg.Valid) (hmode : opt.analyzeOnly = false)
    (hhash : cfg.Hashes D) (hD : Within D (streamOf reads))
    (h : Stems (program cfg opt) (.start cfg opt reads) pc) : pc.Genuine cfg D := by
  obtain ⟨sc, hemitted, hmade⟩ := h
  obtain ⟨hpart, hlen⟩ := emitted_chunk hemitted
  exact made_genuine hvalid hmode hhash (hD _ hpart) hlen hmade

end Session

/-! ## Whole runs -/

section Runs

variable {cfg cfg' : Config} {D : Set Bytes} {opt : RunOptions} {r r' : Repository}
  {es : List DeltaEntry} {w w₀ : Loop} {reads : List Read} {as : List (Act (Option Bytes))}

/-- **A run that succeeds** keeps the repository sound, whatever the schedule. -/
theorem succeeded_sound (hvalid : cfg.Valid) (hmode : opt.analyzeOnly = false)
    (hhash : cfg.Hashes D)
    (hD : Within D (streamOf reads)) (hr : r.Sound cfg D) (hstart : opt.startPackNum < 2 ^ 32)
    (hpre : opt.PreloadsSound cfg D r.packs) (hopen : openRun cfg opt r = .ok w₀)
    {s : State Source SeqChunk PreparedChunk Loop (Option Hash)}
    (hs : exec (program cfg opt) (startState cfg opt w₀ reads) as = some s)
    (hw : s.main = .succeeded w) : (leave opt r s.main).Sound cfg D := by
  obtain ⟨es, hsound⟩ := openRun_sound hr hstart hpre hopen
  obtain ⟨stored, hcarries⟩ := carries_exec (carries_init _ _ _ _) hs
  obtain ⟨digest, -, hseq⟩ := hcarries.main_at hw id
  obtain ⟨hbounded, file, hindex, -⟩ := sequential_sound hvalid hmode hsound
    (fun pc hpc => stems_genuine hvalid hmode hhash hD (hcarries.kept pc hpc)) hseq
  rw [hw, leave_succeeded hmode]
  exact ⟨hbounded.packs, file, es, hindex⟩

/-- What a run that comes to no end leaves of the index. -/
lemma SessionDir.indexSound {packs' : Packs} {d d' : RepoDir} {x : DedupIndex}
    (h : IndexSound cfg D packs d file es) (hdir : SessionDir cfg.indexKey d file d')
    (hkey : x.key = cfg.indexKey) (hgrows : Grows packs packs') :
    IndexSound cfg D packs' d' file es ∧
      IndexSound cfg D packs' (runOps d' x.closeDiscardOps) file es := by
  have henc := hdir.rest .hashIndexEnc trivial (by simp) (by simp)
  refine ⟨⟨hdir.opened h.opened, h.wellFormed, h.sorted, h.leads.mono hgrows, ?_⟩,
    ⟨hdir.discard hkey h.opened h.encrypted, h.wellFormed, h.sorted, h.leads.mono hgrows, ?_⟩⟩
  · rw [henc]
    exact h.encrypted
  · have huntouched : Untouched FileName.hashIndexEnc x.closeDiscardOps :=
      DedupIndex.closeDiscardOps_untouched trivial (by simp)
    rw [lookup_runOps huntouched, henc]
    exact h.encrypted

/-- What is left of a run, by the files it has at hand. -/
lemma leave_sound {m : Main PreparedChunk Loop (Option Hash)}
    (h : IndexSound cfg D r.packs r.indexDir file es)
    (hdir : SessionDir cfg.indexKey r.indexDir file m.world.indexDir)
    (hkey : m.world.dedupIdx.key = cfg.indexKey) (hbounded : m.world.chunkStore.Bounded)
    (hgrows : Grows r.packs m.world.chunkStore.packs) : (leave opt r m).Sound cfg D := by
  obtain ⟨hdied, hdiscarded⟩ := SessionDir.indexSound h hdir hkey hgrows
  cases m with
  | succeeded w =>
    simp only [leave]
    split
    · exact ⟨hbounded.packs, file, es, hdiscarded⟩
    · exact ⟨hbounded.packs, file, es, hdied⟩
  | suspended w => exact ⟨hbounded.packs, file, es, hdiscarded⟩
  | failed e w => exact ⟨hbounded.packs, file, es, hdiscarded⟩
  | _ => exact ⟨hbounded.packs, file, es, hdied⟩

/-- A start that fails. -/
lemma openRun_error_sound (hr : r.Sound cfg D) (hpre : opt.PreloadsSound cfg D r.packs) {e : String}
    (h : openRun cfg opt r = .error (e, r')) : r'.Sound cfg D := by
  obtain ⟨file, es, hbase⟩ := hr.index
  obtain ⟨x, d, hindex, hdir, ⟨hkey, -, -, -, hgood, -, hfile, -⟩⟩ :=
    newDedupIndex_succeeds opt.nbits false hbase.opened hbase.wellFormed
  have hdiscard : ∀ {y : DedupIndex} {ops : List (FileOp FileName)}, y.key = cfg.indexKey →
      (∀ f : FileName, f.Persistent → Untouched f ops) →
      ({ r with indexDir := runOps (runOps d ops) y.closeDiscardOps } : Repository).Sound cfg D :=
    fun hy hops => ⟨hr.bounded, file, es,
      (SessionDir.indexSound hbase (hdir.runOps hops) hy (.refl _)).2⟩
  unfold openRun at h
  split at h
  · cases h
    exact hr
  · rw [hindex] at h
    simp only at h
    split at h
    · cases h
      exact @hdiscard _ [] hkey fun _ _ _ ho => by cases ho
    · rename_i x1 ops harm
      obtain ⟨hsame, hsamekey, hops⟩ := armDelta_inv harm
      split at h
      · cases h
        exact hdiscard (hsamekey.trans hkey) hops
      · split at h
        · cases h
          obtain ⟨-, -, -, -, hkey', ops', hops', hdir'⟩ := @preload_overlay x1 (runOps d ops)
            opt.preloads (hsame ▸ hgood) fun t ht => (hpre t ht).1
          rw [hdir', ← runOps_append d]
          exact hdiscard (hkey'.trans (hsamekey.trans hkey)) fun f hf =>
            (hops f hf).append (hops' f hf)
        · cases h

/-- **A run that comes to no end** keeps the repository sound. -/
theorem stopped_sound (hr : r.Sound cfg D) (hstart : opt.startPackNum < 2 ^ 32)
    (hpre : opt.PreloadsSound cfg D r.packs)
    (hunsealed : .mainFinish ∈ as → opt.analyzeOnly = true ∨ opt.sealFails = true)
    (hrun : afterRun cfg opt r reads as = some r') : r'.Sound cfg D := by
  unfold afterRun at hrun
  split at hrun
  · rename_i e r1 hopen
    cases hrun
    exact openRun_error_sound hr hpre hopen
  · rename_i w hopen
    obtain ⟨s, hs, rfl⟩ := Option.map_eq_some_iff.1 hrun
    obtain ⟨es, hsound⟩ := openRun_sound hr hstart hpre hopen
    have honward := exec_onward hunsealed hs
    obtain ⟨ops, hops, hdir⟩ := honward.ops
    exact leave_sound hsound.base (by rw [hdir]; exact hsound.dir.runOps hops)
      (honward.key.trans hsound.key) (honward.bounded hsound.bounded)
      (hsound.grows.trans honward.store.grows)

/-! ## Reachable repositories -/

/-- Two configurations of one repository: they read each other's chunks. -/
structure Config.Shares (cfg' cfg : Config) : Prop where
  identity : cfg'.identity = cfg.identity
  decode : cfg'.codec.decode = cfg.codec.decode
  indexKey : cfg'.indexKey = cfg.indexKey

lemma Config.Shares.symm (h : cfg'.Shares cfg) : cfg.Shares cfg' :=
  ⟨h.identity.symm, h.decode.symm, h.indexKey.symm⟩

lemma Config.Shares.fetches (h : cfg'.Shares cfg) (hf : Fetches cfg.codec packs e data) :
    Fetches cfg'.codec packs e data := by
  obtain ⟨frame, hat, hframed⟩ := hf
  refine ⟨frame, hat, hframed.length, hframed.bound, ?_⟩
  have hreads := hframed.reads
  unfold retrieveFromFrame at hreads ⊢
  rwa [h.decode]

lemma Config.Shares.located (h : cfg'.Shares cfg) {k : Hash} (he : Located cfg D packs k e) :
    Located cfg' D packs k e := by
  obtain ⟨data, hdata, hid, hf⟩ := he.chunk
  exact ⟨he.hash, data, hdata, by rw [h.identity]; exact hid, h.fetches hf⟩

lemma Config.Shares.sound (h : cfg'.Shares cfg) (hr : r.Sound cfg D) : r.Sound cfg' D := by
  obtain ⟨file, es, hindex⟩ := hr.index
  refine ⟨hr.bounded, file, es, by rw [h.indexKey]; exact hindex.opened, hindex.wellFormed,
    hindex.sorted, fun hsmall k e he => h.located (hindex.leads hsmall k e he), ?_⟩
  rw [h.indexKey]
  exact hindex.encrypted

lemma Config.Shares.preloads (h : cfg'.Shares cfg) (hpre : opt.PreloadsSound cfg D packs) :
    opt.PreloadsSound cfg' D packs :=
  fun t ht => ⟨(hpre t ht).1, fun hsmall => h.located ((hpre t ht).2 hsmall)⟩

/-- What backups make of an empty repository. A backup may be a resumed one, whose first inserts
were made by a run that was suspended; runs that come to no end may be in between. The entries and
checkpoints are those of whichever backup is next. -/
inductive Reachable (cfg : Config) (D : Set Bytes) : Repository → Prop
  | empty : Reachable cfg D emptyRepository
  | elsewhere {r r' : Repository} (h : Reachable cfg D r) (hpacks : r'.packs = r.packs)
      (hindex : r'.indexDir = r.indexDir) : Reachable cfg D r'
  | backup {cfg' : Config} {opt : RunOptions} {r : Repository} {w₀ w : Loop} {reads : List Read}
      {as : List (Act (Option Bytes))} {s : State Source SeqChunk PreparedChunk Loop (Option Hash)}
      (h : Reachable cfg D r) (hshares : cfg'.Shares cfg) (hvalid : cfg'.Valid)
      (hmode : opt.analyzeOnly = false) (hstart : opt.startPackNum < 2 ^ 32)
      (hpre : opt.PreloadsSound cfg D r.packs) (hD : Within D (streamOf reads))
      (hopen : openRun cfg' opt r = .ok w₀)
      (hs : exec (program cfg' opt) (startState cfg' opt w₀ reads) as = some s)
      (hw : s.main = .succeeded w) : Reachable cfg D (leave opt r s.main)
  | stopped {cfg' : Config} {opt : RunOptions} {r r' : Repository} {reads : List Read}
      {as : List (Act (Option Bytes))} (h : Reachable cfg D r) (hshares : cfg'.Shares cfg)
      (hstart : opt.startPackNum < 2 ^ 32) (hpre : opt.PreloadsSound cfg D r.packs)
      (hunsealed : .mainFinish ∈ as → opt.analyzeOnly = true ∨ opt.sealFails = true)
      (hrun : afterRun cfg' opt r reads as = some r') : Reachable cfg D r'

lemma emptyRepository_sound (cfg : Config) (D : Set Bytes) : emptyRepository.Sound cfg D := by
  have hopened : opened cfg.indexKey emptyRepository.indexDir = some ([], []) := by
    refine opened_eq_some.2 ⟨?_, pendingDeltas_nil (fun _ _ => rfl) _⟩
    cases cfg.indexKey with
    | none => rfl
    | some k => exact openedFile_keyed.2 ⟨none, none, rfl, rfl, rfl, rfl⟩
  refine ⟨fun n hn => absurd hn (AList.notMem_empty n), [], [], hopened, ⟨?_, by simp⟩, ?_, ?_,
    fun _ => .inr rfl⟩
  · exact ⟨by decide, by decide⟩
  · exact List.Pairwise.nil
  · intro _ k e he
    cases he

/-- **Every reachable repository is sound.** -/
theorem reachable_sound (hhash : cfg.Hashes D) (h : Reachable cfg D r) : r.Sound cfg D := by
  induction h with
  | empty => exact emptyRepository_sound cfg D
  | elsewhere _ hpacks hindex ih =>
    obtain ⟨hbounded, hsound⟩ := ih
    rw [← hpacks] at hbounded hsound
    rw [← hindex] at hsound
    exact ⟨hbounded, hsound⟩
  | backup _ hshares hvalid hmode hstart hpre hD hopen hs hw ih =>
    refine hshares.symm.sound (succeeded_sound hvalid hmode ?_ hD (hshares.sound ih) hstart
      (hshares.preloads hpre) hopen hs hw)
    intro data hdata
    rw [hshares.identity]
    exact hhash data hdata
  | stopped _ hshares hstart hpre hunsealed hrun ih =>
    exact hshares.symm.sound (stopped_sound (hshares.sound ih) hstart (hshares.preloads hpre)
      hunsealed hrun)

end Runs

end DiskNexus.Pipeline
