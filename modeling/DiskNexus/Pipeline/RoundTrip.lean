import DiskNexus.Pipeline.Sound
import DiskNexus.Restore.Entries

/-!
# A backup restores to its stream

The entries of a complete backup place the chunks of the stream one behind the other. In a sound
repository the index leads from the hash of each entry to the chunk of the stream, whichever run has
stored it. A restore therefore writes the stream.

## Main results

`restore_chunks`, `restore_backup`, `reachable_index_reads`
-/

namespace DiskNexus.Pipeline

open Binary Sha256 Files Store Index Chunking Overwrite
open Restore (Restorer restore restoreEntries fileTarget Look)
open Manifest (Entry Backup)

/-! ## Chunks one behind the other -/

lemma Tiles.lies {start : ℕ} {cs : List Chunk} (h : Tiles start cs) {c : Chunk} (hc : c ∈ cs) :
    ∃ before after, bytesOf cs = before ++ c.data ++ after ∧ c.offset = start + before.length := by
  induction cs generalizing start with
  | nil => cases hc
  | cons c' cs ih =>
    obtain ⟨hoffset, hlength, -, hrest⟩ := h
    rcases List.mem_cons.1 hc with rfl | hc
    · exact ⟨[], bytesOf cs, rfl, by simpa using hoffset⟩
    · obtain ⟨before, after, hbytes, hoff⟩ := ih hrest hc
      refine ⟨c'.data ++ before, after, ?_, ?_⟩
      · simp only [bytesOf, List.flatMap_cons] at hbytes ⊢
        rw [hbytes]
        simp
      · rw [hoff, hlength, List.length_append, Nat.add_assoc]

lemma Tiles.covers {start : ℕ} {cs : List Chunk} (h : Tiles start cs) {i : ℕ}
    (hi : i < (bytesOf cs).length) :
    ∃ c ∈ cs, Covers (c.offset, c.data) (start + i) := by
  induction cs generalizing start i with
  | nil => simp [bytesOf] at hi
  | cons c cs ih =>
    obtain ⟨hoffset, hlength, -, hrest⟩ := h
    simp only [bytesOf, List.flatMap_cons, List.length_append] at hi
    rcases Nat.lt_or_ge i c.data.length with hlt | hge
    · refine ⟨c, List.mem_cons_self, ?_, ?_⟩
      · simp only [hoffset]
        omega
      · simp only [hoffset]
        omega
    · obtain ⟨c', hc', hcovers⟩ := ih hrest (i := i - c.data.length) (by
        simp only [bytesOf]
        omega)
      refine ⟨c', .tail _ hc', ?_⟩
      rwa [hlength, Nat.add_assoc, Nat.add_sub_cancel' hge] at hcovers

lemma Tiles.nonempty {start : ℕ} {cs : List Chunk} (h : Tiles start cs) {c : Chunk} (hc : c ∈ cs) :
    c.data ≠ [] ∧ c.length = c.data.length := by
  induction cs generalizing start with
  | nil => cases hc
  | cons c' cs ih =>
    obtain ⟨-, hlength, hne, hrest⟩ := h
    rcases List.mem_cons.1 hc with rfl | hc
    · exact ⟨hne, hlength⟩
    · exact ih hrest hc

section Restore

variable {cfg : Config} {D : Set Bytes} {packs : Packs} {d : RepoDir} {file : Bytes}
  {es : List DeltaEntry} {cs : List Chunk}

/-- The entry of a chunk that the index resolves leads to it, if the hash tells the chunks apart. -/
lemma IndexSound.fetches (h : IndexSound cfg D packs d file es) (hsmall : Small packs)
    (hinj : Set.InjOn cfg.identity D) {data : Bytes} (hdata : data ∈ D)
    (hresolved : (openedMap file es (cfg.identity data)).isSome) :
    ∃ e, openedMap file es (cfg.identity data) = some e ∧ Fetches cfg.codec packs e data := by
  obtain ⟨e, he⟩ := Option.isSome_iff_exists.1 hresolved
  obtain ⟨data', hdata', hid, hfetches⟩ := (h.leads hsmall _ e he).chunk
  rw [hinj hdata' hdata hid] at hfetches
  exact ⟨e, he, hfetches⟩

/-- **Restoring chunks that lie one behind the other**: a restore of their entries writes their
bytes. -/
theorem restore_chunks (hstd : cfg.hasher = .std) (hnorm : cfg.normalizer = none)
    (hinj : Set.InjOn sum256 D) (htiles : Tiles 0 cs) (hmem : ∀ c ∈ cs, c.data ∈ D)
    (hlength : ∀ c ∈ cs, c.data.length < 2 ^ 32) (hbytes : (bytesOf cs).length < 2 ^ 63)
    (hindex : IndexSound cfg D packs d file es) (hsmall : Small packs)
    (hresolved : ∀ c ∈ cs, (openedMap file es (cfg.identity c.data)).isSome) {m : Backup}
    (hentries : m.entries = Manifest.encodeEntries (cs.map cfg.entryOf)) (hsize : 0 ≤ m.totalBytes)
    (hempty : bytesOf cs = [] → m.totalBytes = 0) {store : ChunkStore}
    (hpacks : store.packs = packs)
    (hcodec : store.codec = cfg.codec) {cancelled : Look → Bool} (hctx : ∀ l, cancelled l = false)
    (nbits : UInt64) (readOnly : Bool) (t : Bytes) :
    ∃ x d' result, newDedupIndex cfg.indexKey nbits readOnly d = (.ok x, d') ∧
      restore ⟨x, store, none⟩ cancelled fileTarget m t = .ok (result,
        bytesOf cs ++ (resize 0 t m.totalBytes.toNat).drop (bytesOf cs).length) := by
  have hid : cfg.identity = sum256 := by
    funext data
    rw [Config.identity, hstd, hnorm]
    rfl
  obtain ⟨x, d', hopen, hlookup⟩ := hindex.lookup nbits readOnly
  set R : Restorer := ⟨x, store, none⟩ with hR
  -- what the restore finds for the entry of a chunk
  have hchunk : ∀ c ∈ cs, ∃ ie, R.index.lookupDirect (cfg.entryOf c).chunkHash = some ie ∧
      R.store.retrieve ie.packNumber.toNat ie.storeOffset.toNat = .ok c.data := by
    intro c hc
    obtain ⟨ie, hie, hfetches⟩ :=
      hindex.fetches hsmall (by rwa [hid]) (hmem c hc) (hresolved c hc)
    refine ⟨ie, (hlookup _).trans hie, Fetches.retrieve ?_⟩
    rw [hR, hpacks, hcodec]
    exact hfetches
  have hrestorable : ∀ e ∈ cs.map cfg.entryOf, R.Restorable e := by
    intro e he
    obtain ⟨c, hc, rfl⟩ := List.mem_map.1 he
    obtain ⟨ie, hie, hread⟩ := hchunk c hc
    refine ⟨Int.natCast_nonneg _, fun _ => ⟨ie, c.data, hie, hread, ?_, ?_⟩⟩
    · exact (congrFun hid c.data).symm
    · exact (htiles.nonempty hc).2.symm
  have hpiece : ∀ c ∈ cs, R.piece (cfg.entryOf c) = (c.offset, c.data) := by
    intro c hc
    obtain ⟨ie, hie, hread⟩ := hchunk c hc
    rw [Restorer.piece, Restorer.Restorable.chunkOf_eq rfl hie hread]
    rfl
  have hrange : ∀ e ∈ cs.map cfg.entryOf, e.InRange := by
    intro e he
    obtain ⟨c, hc, rfl⟩ := List.mem_map.1 he
    obtain ⟨before, after, hsplit, hoffset⟩ := htiles.lies hc
    have hle := congrArg List.length hsplit
    simp only [List.length_append] at hle
    have hlen := (htiles.nonempty hc).2
    have := hlength c hc
    refine ⟨?_, ?_, ?_⟩
    · change -2 ^ 63 ≤ (c.offset : ℤ)
      omega
    · change (c.offset : ℤ) < 2 ^ 63
      omega
    · change c.length < 2 ^ 32
      omega
  have hread : Manifest.readEntries m.entries = .ok (cs.map cfg.entryOf) := by
    rw [hentries]
    exact Manifest.readEntries_encode hrange
  obtain ⟨result, hrestore⟩ := @Restore.restoreEntries_tiles R (cs.map cfg.entryOf) cancelled
    hrestorable hctx m hsize (fun hnil => hempty (by rw [List.map_eq_nil_iff.1 hnil]; rfl))
    (bytesOf cs) (fun e he => by
      obtain ⟨c, hc, rfl⟩ := List.mem_map.1 he
      obtain ⟨before, after, hsplit, hoffset⟩ := htiles.lies hc
      have hchunkOf : R.chunkOf (cfg.entryOf c) = c.data := congrArg Prod.snd (hpiece c hc)
      rw [hpiece c hc, hchunkOf]
      exact ⟨⟨before, after, hsplit, by simpa using hoffset.symm⟩, (htiles.nonempty hc).1⟩)
    (fun i hi => by
      obtain ⟨c, hc, hcovers⟩ := htiles.covers hi
      refine ⟨cfg.entryOf c, List.mem_map_of_mem hc, ?_⟩
      rw [hpiece c hc]
      rwa [Nat.zero_add] at hcovers) t
  refine ⟨x, d', result, hopen, ?_⟩
  simp only [restore, hread]
  exact hrestore

/-- What the workers prepare of the chunks of a stream. -/
lemma all_made_genuine {opt : RunOptions} (hvalid : cfg.Valid) (hmode : opt.analyzeOnly = false)
    (hhash : cfg.Hashes D) {scs : List SeqChunk} {pcs : List PreparedChunk}
    (hmem : ∀ sc ∈ scs, sc.chunk.data ∈ D)
    (hbounded : ∀ sc ∈ scs, sc.chunk.data.length ≤ max 1 cfg.geometry.limit)
    (hmade : List.Forall₂ (Made (program cfg opt)) scs pcs) :
    (∀ pc ∈ pcs, pc.Genuine cfg D) ∧
      ∀ sc ∈ scs, ∃ pc ∈ pcs, pc.id.strongHash = cfg.identity sc.chunk.data := by
  induction hmade with
  | nil => simp
  | @cons sc pc scs pcs hpc _ ih =>
    obtain ⟨hrest, hhashes⟩ := ih (fun sc' h => hmem sc' (.tail _ h))
      fun sc' h => hbounded sc' (.tail _ h)
    have hgenuine := made_genuine hvalid hmode hhash (hmem sc (.head _))
      (hbounded sc (.head _)) hpc
    obtain ⟨nonce, payload, -, rfl⟩ := made_prepared hmode hpc
    refine ⟨List.forall_mem_cons.2 ⟨hgenuine, hrest⟩, List.forall_mem_cons.2 ⟨?_, ?_⟩⟩
    · exact ⟨_, List.mem_cons_self, rfl⟩
    · intro sc' hsc'
      obtain ⟨pc', hpc', hid⟩ := hhashes sc' hsc'
      exact ⟨pc', .tail _ hpc', hid⟩

/-- **A run that succeeds** has stored the chunks of the stream in their order, and its index
resolves the hash of each. -/
lemma succeeded_chunks {opt : RunOptions} (hvalid : cfg.Valid) (hmode : opt.analyzeOnly = false)
    (hhash : cfg.Hashes D) {r : Repository} {w₀ w : Loop} (hsound : w₀.Sound cfg D r es)
    {reads : List Read} (hD : Within D (streamOf reads)) {as : List (Act (Option Bytes))}
    (hcancel : .cancel ∉ as) {s : State Source SeqChunk PreparedChunk Loop (Option Hash)}
    (hs : exec (program cfg opt) (startState cfg opt w₀ reads) as = some s)
    (hw : s.main = .succeeded w) :
    ∃ scs digest pcs file, Chunks (program cfg opt) (.start cfg opt reads) scs digest ∧
      List.Forall₂ (Made (program cfg opt)) scs pcs ∧
      sequential (program cfg opt) w₀ pcs digest = .ok w ∧ (∀ sc ∈ scs, sc.chunk.data ∈ D) ∧
      IndexSound cfg D w.chunkStore.packs w.indexDir file es ∧
      ∀ sc ∈ scs, (openedMap file es (cfg.identity sc.chunk.data)).isSome := by
  obtain ⟨scs, digest, pcs, hchunks, hmade, hseq⟩ :=
    exec_complete (numWorkers_pos _ _) (guardedRun_of_not_mem hcancel) hs hw
  obtain ⟨hstream, htiles, -, hbounded⟩ := hchunks.stream
  have hmem : ∀ sc ∈ scs, sc.chunk.data ∈ D := by
    intro sc hsc
    obtain ⟨before, after, hsplit, -⟩ := htiles.lies (List.mem_map_of_mem hsc)
    exact hD _ ⟨before, after, hsplit.symm.trans hstream⟩
  obtain ⟨hgenuine, hhashed⟩ := all_made_genuine hvalid hmode hhash hmem hbounded hmade
  obtain ⟨-, file, hindex, hresolved⟩ := sequential_sound hvalid hmode hsound hgenuine hseq
  refine ⟨scs, digest, pcs, file, hchunks, hmade, hseq, hmem, hindex, fun sc hsc => ?_⟩
  obtain ⟨pc, hpc, hid⟩ := hhashed sc hsc
  exact hid ▸ hresolved pc hpc

/-- **Backup, then restore.** Take any repository that earlier backups lead to, any stream and any
way its reader splits it, any valid sizes, any number of workers, any schedule of the stages in
which the caller does not cancel, and any failures that still let the run succeed. Then a restore of
the backup writes the stream, over whatever the target held. The set `D` has every part of the
stream and of those of the earlier backups, and SHA-256 tells its members apart.

**Proof sketch.** The run is the sequential backup of the chunks of the whole stream. It keeps the
repository sound, and the index resolves the hash of each chunk. -/
theorem restore_backup (hstd : cfg.hasher = .std) (hnorm : cfg.normalizer = none)
    (hvalid : cfg.Valid) (hinj : Set.InjOn sum256 D) (hzero : ∀ data ∈ D, sum256 data ≠ .zero)
    {r : Repository} (hr : Reachable cfg D r) {opt : RunOptions} (hmode : opt.analyzeOnly = false)
    (hfresh : opt.resume = none) (hstart : opt.startPackNum < 2 ^ 32) {reads : List Read}
    (hD : Within D (streamOf reads)) (hlen : (streamOf reads).length < 2 ^ 63)
    (hsize : 0 ≤ opt.totalSize) (hempty : streamOf reads = [] → opt.totalSize = 0) {w₀ w : Loop}
    (hopen : openRun cfg opt r = .ok w₀) {as : List (Act (Option Bytes))} (hcancel : .cancel ∉ as)
    {s : State Source SeqChunk PreparedChunk Loop (Option Hash)}
    (hs : exec (program cfg opt) (startState cfg opt w₀ reads) as = some s)
    (hw : s.main = .succeeded w) {m : Backup} (hm : w.manifest = some m)
    (hsmall : Small (leave opt r s.main).packs) {store : ChunkStore}
    (hpacks : store.packs = (leave opt r s.main).packs) (hcodec : store.codec = cfg.codec)
    {cancelled : Look → Bool} (hctx : ∀ l, cancelled l = false) (nbits : UInt64)
    (readOnly : Bool) (t : Bytes) :
    ∃ x d' result,
      newDedupIndex cfg.indexKey nbits readOnly (leave opt r s.main).indexDir = (.ok x, d') ∧
      restore ⟨x, store, none⟩ cancelled fileTarget m t = .ok (result,
        streamOf reads ++ (resize 0 t opt.totalSize.toNat).drop (streamOf reads).length) := by
  have hhash : cfg.Hashes D := by
    intro data hdata
    rw [Config.identity, hstd, hnorm]
    exact hzero data hdata
  have hpre : opt.PreloadsSound cfg D r.packs := by
    intro t ht
    simp [RunOptions.preloads, hfresh] at ht
  obtain ⟨es, hsound⟩ := openRun_sound (reachable_sound hhash hr) hstart hpre hopen
  obtain ⟨scs, digest, pcs, file, hchunks, hmade, hseq, hmem, hindex, hresolved⟩ :=
    succeeded_chunks hvalid hmode hhash hsound hD hcancel hs hw
  obtain ⟨hstream, htiles, -, hbounded⟩ := hchunks.stream
  obtain ⟨m', hm', htotal, hentries⟩ := sequential_manifest hmode hopen hmade hseq
  rw [hm] at hm'
  cases hm'
  rw [hw, leave_succeeded hmode] at hsmall hpacks ⊢
  have hstartOffset : opt.startOffset = 0 := by simp [RunOptions.startOffset, hfresh]
  rw [hstartOffset] at htiles
  have hlength : ∀ c ∈ chunksOf scs, c.data.length < 2 ^ 32 := by
    intro c hc
    obtain ⟨sc, hsc, rfl⟩ := List.mem_map.1 hc
    have := hvalid.length
    have := hbounded sc hsc
    omega
  rw [← hstream] at hlen hempty ⊢
  rw [← htotal] at hsize hempty ⊢
  refine restore_chunks hstd hnorm hinj htiles ?_ hlength hlen hindex hsmall ?_ ?_ hsize
    hempty hpacks
    hcodec hctx nbits readOnly t
  · intro c hc
    obtain ⟨sc, hsc, rfl⟩ := List.mem_map.1 hc
    exact hmem sc hsc
  · intro c hc
    obtain ⟨sc, hsc, rfl⟩ := List.mem_map.1 hc
    exact hresolved sc hsc
  · rw [hentries]
    simp [RunOptions.startEntries, hfresh]

end Restore

/-! ## A backup over another -/

/-- The parts of a stream of two bytes. -/
def pieces : Set Bytes := {data | data <:+: [7, 8]}

lemma mem_pieces {data : Bytes} (h : data ∈ pieces) : data ∈ [[], [7], [8], [7, 8]] := by
  have hsub := List.mem_sublists.2 (List.IsInfix.sublist h)
  simpa [List.sublists] using hsub

lemma sum256_injOn_pieces : Set.InjOn sum256 pieces := by
  have hall : ∀ a ∈ [[], [7], [8], [7, 8]], ∀ b ∈ [[], [7], [8], [7, 8]],
      sum256 a = sum256 b → a = b := by decide +kernel
  intro a ha b hb h
  exact hall a (mem_pieces ha) b (mem_pieces hb) h

lemma sum256_pieces_ne_zero (data : Bytes) (h : data ∈ pieces) : sum256 data ≠ .zero := by
  have hall : ∀ data ∈ [[], [7], [8], [7, 8]], sum256 data ≠ .zero := by decide +kernel
  exact hall data (mem_pieces h)

lemma plainConfig_valid (hashWorkers packFileMaxSize : ℤ) :
    (plainConfig hashWorkers packFileMaxSize).Valid where
  lawful := ChunkStore.plainCodec_lawful
  indexKey := fun k hk => by cases hk
  length := by
    change 1 < 2 ^ 32
    decide
  payload := by
    intro data hdata nonce payload hpayload
    have hlimit : (plainConfig hashWorkers packFileMaxSize).geometry.limit = 1 := rfl
    rw [hlimit] at hdata
    cases hpayload
    change (Zstd.rawFrame data).length ≤ maxChunkFrameLen
    simp only [Zstd.rawFrame, Zstd.length_frameHead, Zstd.checksum, length_le, List.length_append,
      maxChunkFrameLen]
    omega

/-- A run at its last step succeeds if that does not fail. -/
lemma exec_finishing {cfg : Config} {D : Set Bytes} {opt : RunOptions} {r : Repository}
    {w0 w : Loop}
    {es : List DeltaEntry} {reads : List Read} {as : List (Act (Option Bytes))} (hvalid : cfg.Valid)
    (hmode : opt.analyzeOnly = false) (hhash : cfg.Hashes D) (hD : Within D (streamOf reads))
    (hsound : w0.Sound cfg D r es) {s : State Source SeqChunk PreparedChunk Loop (Option Hash)}
    (hs : exec (program cfg opt) (startState cfg opt w0 reads) as = some s) {digest : Option Hash}
    (hw : s.main = .finishing w digest) (hseal : opt.sealFails = false)
    (hsave : opt.saveFails = false) :
    ∃ s' w' m, exec (program cfg opt) (startState cfg opt w0 reads) (as ++ [.mainFinish]) =
      some s' ∧
      s'.main = .succeeded w' ∧ w'.manifest = some m ∧ w'.chunkStore = w.chunkStore := by
  obtain ⟨stored, hcarries⟩ := carries_exec (carries_init _ _ _ _) hs
  obtain ⟨-, hclosed⟩ := hcarries.main_at hw id
  cases hstore : storeAll (program cfg opt) w0 stored with
  | error e =>
    rw [hstore] at hclosed
    cases hclosed
  | ok w1 =>
    rw [hstore] at hclosed
    obtain ⟨h1, -, -⟩ := storeAll_sound hmode hsound
      (fun pc hpc => stems_genuine hvalid hmode hhash hD (hcarries.kept pc hpc)) hstore
    obtain ⟨h2, -⟩ := closeEntries_sound h1 hclosed
    obtain ⟨x, hflush, -⟩ := HashIndex.flush_ok h2.good
    have hflush' : w.dedupIdx.flush = .ok { w.dedupIdx with
        index := x
        delta := w.dedupIdx.delta.map fun c => { c with buffered := [] } } := by
      simp [DedupIndex.flush, hflush]
    have hfinish : ∃ w', finishRun opt w digest = .ok w' := by
      simp [finishRun, hmode, hseal, hsave, hflush']
    obtain ⟨w', hw'⟩ := hfinish
    obtain ⟨_, -, hlast⟩ := finishRun_ok hmode hw'
    refine ⟨{ s with main := .succeeded w' }, w', w.manifestOf opt digest, ?_, rfl, by rw [hlast],
      by rw [hlast]⟩
    rw [exec_append, hs]
    simp only [Option.bind_some, exec, step, mainFinish, hw]
    change some (proceed s (finishRun opt w digest) .succeeded) = _
    rw [hw']
    rfl

/-- What a run that is about to end has in its packs. -/
def finishingPacks (cfg : Config) (opt : RunOptions) (r : Repository) (reads : List Read)
    (as : List (Act (Option Bytes))) : Option Packs :=
  match openRun cfg opt r with
  | .error _ => none
  | .ok w =>
    match exec (program cfg opt) (startState cfg opt w reads) as with
    | none => none
    | some s =>
      match s.main with
      | .finishing w _ => some w.chunkStore.packs
      | _ => none

lemma finishingPacks_eq_some {cfg : Config} {opt : RunOptions} {r : Repository} {reads : List Read}
    {as : List (Act (Option Bytes))} {packs : Packs}
    (h : finishingPacks cfg opt r reads as = some packs) :
    ∃ w0 s w digest, openRun cfg opt r = .ok w0 ∧
      exec (program cfg opt) (startState cfg opt w0 reads) as = some s ∧
      s.main = .finishing w digest ∧ w.chunkStore.packs = packs := by
  unfold finishingPacks at h
  split at h
  · cases h
  · rename_i w0 hopen
    split at h
    · cases h
    · rename_i s hs
      split at h
      · rename_i w digest hw
        cases h
        exact ⟨w0, s, w, digest, hopen, hs, hw, rfl⟩
      · cases h

/-- The reads of a stream of two bytes. -/
def twoReads : List Read := [⟨[7], none⟩, ⟨[8], some .eof⟩]

lemma within_twoReads : Within pieces (streamOf twoReads) := fun _ h => h

/-- A first run dies before its last step. A second run over what it leaves succeeds. -/
lemma crossed_run :
    ∃ r w0 s w m, afterRun (plainConfig 2 100) plainOptions emptyRepository twoReads
        crossed.dropLast = some r ∧
      Reachable (plainConfig 2 100) pieces r ∧ openRun (plainConfig 2 100) plainOptions r = .ok w0 ∧
      exec (program (plainConfig 2 100) plainOptions)
        (startState (plainConfig 2 100) plainOptions w0 twoReads) crossed = some s ∧
      s.main = .succeeded w ∧ w.manifest = some m ∧
      Small (leave plainOptions r s.main).packs := by
  have hruns : (afterRun (plainConfig 2 100) plainOptions emptyRepository twoReads
      crossed.dropLast).any fun r =>
        (finishingPacks (plainConfig 2 100) plainOptions r twoReads crossed.dropLast).any
          fun packs =>
          packs.entries.all fun p => p.2.length < 2 ^ 63 := by decide +kernel
  obtain ⟨r, hfirst, hsecond⟩ := Option.any_eq_true _ _ |>.1 hruns
  obtain ⟨packs, hfinishing, hpacks⟩ := Option.any_eq_true _ _ |>.1 hsecond
  rw [List.all_eq_true] at hpacks
  obtain ⟨w0, s1, w1, digest, hopen, hs1, hw1, hsame⟩ := finishingPacks_eq_some hfinishing
  have hreach : Reachable (plainConfig 2 100) pieces r :=
    .stopped .empty ⟨rfl, rfl, rfl⟩ (by decide) (fun t ht => by cases ht)
      (fun h => absurd h (by simp [crossed])) hfirst
  have hhash : (plainConfig 2 100).Hashes pieces := sum256_pieces_ne_zero
  obtain ⟨es, hsound⟩ := openRun_sound (reachable_sound hhash hreach) (by decide)
    (fun t ht => by cases ht) hopen
  obtain ⟨s, w, m, hs, hw, hm, hstore⟩ := exec_finishing (plainConfig_valid 2 100) rfl
    hhash within_twoReads hsound hs1 hw1 rfl rfl
  change exec _ _ crossed = some s at hs
  have hleft : (leave plainOptions r s.main).packs = packs := by
    rw [hw, leave_succeeded rfl, ← hsame, ← hstore]
    rfl
  have hsmall : Small (leave plainOptions r s.main).packs := by
    rw [hleft]
    exact fun n file hfile => of_decide_eq_true (hpacks ⟨n, file⟩ (AList.mem_lookup_iff.1 hfile))
  exact ⟨r, w0, s, w, m, hfirst, hreach, hopen, hs, hw, hm, hsmall⟩

/-- The backup of the second run is restored over a target that is too long. -/
theorem restore_backup_crossed :
    ∃ r m r', afterRun (plainConfig 2 100) plainOptions emptyRepository twoReads
        crossed.dropLast = some r ∧
      savedBackup (plainConfig 2 100) plainOptions r twoReads crossed = some m ∧
      afterRun (plainConfig 2 100) plainOptions r twoReads crossed = some r' ∧
      ∃ x d' result, newDedupIndex none 64 true r'.indexDir = (.ok x, d') ∧
        restore ⟨x, ChunkStore.newChunkStore r'.packs ChunkStore.plainCodec 100, none⟩
          (fun _ => false) fileTarget m [1, 2, 3] = .ok (result, [7, 8]) := by
  obtain ⟨r, w0, s, w, m, hfirst, hreach, hopen, hs, hw, hm, hsmall⟩ := crossed_run
  refine ⟨r, m, leave plainOptions r s.main, hfirst, ?_, ?_, ?_⟩
  · simp [savedBackup, hopen, hs, hw, hm]
  · simp [afterRun, hopen, hs]
  · exact restore_backup rfl rfl (plainConfig_valid 2 100) sum256_injOn_pieces sum256_pieces_ne_zero
      hreach rfl rfl (by decide) within_twoReads (by decide) (by decide) (by decide) hopen
      (by simp [crossed]) hs hw hm hsmall rfl rfl (fun _ => rfl) 64 true [1, 2, 3]

/-- **The index never dangles.** Whatever backups have made of a repository, its index opens, and
each hash that it resolves leads to a chunk with that hash. -/
theorem reachable_index_reads {cfg : Config} {D : Set Bytes} {r : Repository}
    (hhash : cfg.Hashes D) (hr : Reachable cfg D r) (hsmall : Small r.packs)
    (nbits : UInt64) (readOnly : Bool) :
    ∃ x d', newDedupIndex cfg.indexKey nbits readOnly r.indexDir = (.ok x, d') ∧
      ∀ h e, x.lookupDirect h = some e → ∃ data ∈ D, cfg.identity data = h ∧
        ∀ s : ChunkStore, s.packs = r.packs → s.codec = cfg.codec →
          s.retrieve e.packNumber.toNat e.storeOffset.toNat = .ok data := by
  obtain ⟨-, file, es, hindex⟩ := reachable_sound hhash hr
  obtain ⟨x, d', hopen, hlookup⟩ := hindex.lookup nbits readOnly
  refine ⟨x, d', hopen, fun h e he => ?_⟩
  obtain ⟨data, hdata, hid, hfetches⟩ := (hindex.leads hsmall h e (hlookup h ▸ he)).chunk
  refine ⟨data, hdata, hid, fun s hpacks hcodec => Fetches.retrieve ?_⟩
  rwa [hpacks, hcodec]

/-- Chunks of one byte are the bytes of their stream. -/
lemma exists_chunk_of_mem {cs : List Chunk} (hlen : ∀ c ∈ cs, c.data.length ≤ 1) {b : UInt8}
    (hb : b ∈ bytesOf cs) : ∃ c ∈ cs, c.data = [b] := by
  obtain ⟨c, hc, hmem⟩ := List.mem_flatMap.1 hb
  obtain ⟨a, ha⟩ := List.length_eq_one_iff.1
    (le_antisymm (hlen c hc) (List.length_pos_of_mem hmem))
  rw [ha, List.mem_singleton] at hmem
  exact ⟨c, hc, by rw [ha, hmem]⟩

/-- The index that the second run leaves resolves each chunk of its stream to what is read back. -/
theorem reachable_index_reads_crossed :
    ∃ r r' x d', afterRun (plainConfig 2 100) plainOptions emptyRepository twoReads
        crossed.dropLast = some r ∧
      afterRun (plainConfig 2 100) plainOptions r twoReads crossed = some r' ∧
      newDedupIndex none 64 true r'.indexDir = (.ok x, d') ∧
      ∀ b ∈ streamOf twoReads, ∃ e, x.lookupDirect (sum256 [b]) = some e ∧
        (ChunkStore.newChunkStore r'.packs ChunkStore.plainCodec 100).retrieve
          e.packNumber.toNat e.storeOffset.toNat = .ok [b] := by
  obtain ⟨r, w0, s, w, m, hfirst, hreach, hopen, hs, hw, hm, hsmall⟩ := crossed_run
  have hhash : (plainConfig 2 100).Hashes pieces := sum256_pieces_ne_zero
  have hreach' : Reachable (plainConfig 2 100) pieces (leave plainOptions r s.main) :=
    .backup hreach ⟨rfl, rfl, rfl⟩ (plainConfig_valid 2 100) rfl (by decide)
      (fun t ht => by cases ht) within_twoReads hopen hs hw
  obtain ⟨x, d', hindex, hreads⟩ := reachable_index_reads hhash hreach' hsmall 64 true
  refine ⟨r, leave plainOptions r s.main, x, d', hfirst, by simp [afterRun, hopen, hs], hindex,
    fun b hb => ?_⟩
  -- the run has stored the chunk of this byte
  obtain ⟨es, hsound⟩ := openRun_sound (reachable_sound hhash hreach) (by decide)
    (fun t ht => by cases ht) hopen
  obtain ⟨scs, digest, pcs, file, hchunks, -, -, -, hleft, hresolved⟩ :=
    succeeded_chunks (plainConfig_valid 2 100) rfl hhash hsound within_twoReads
      (by simp [crossed]) hs hw
  obtain ⟨hstream, -, -, hbounded⟩ := hchunks.stream
  have hshort : ∀ c ∈ chunksOf scs, c.data.length ≤ 1 := by
    intro c hc
    obtain ⟨sc, hsc, rfl⟩ := List.mem_map.1 hc
    exact hbounded sc hsc
  obtain ⟨c, hc, hdata⟩ := exists_chunk_of_mem hshort (hstream ▸ hb)
  obtain ⟨sc, hsc, rfl⟩ := List.mem_map.1 hc
  have hfound := hresolved sc hsc
  rw [hdata] at hfound
  obtain ⟨e, he⟩ := Option.isSome_iff_exists.1 hfound
  -- and the index that opens is the one that it left
  obtain ⟨x', d'', hindex', hlookup⟩ := hleft.lookup 64 true
  rw [hw, leave_succeeded rfl] at hindex
  have hsame : x' = x := by
    injection (Prod.mk.inj (hindex'.symm.trans hindex)).1
  rw [← hlookup, hsame] at he
  refine ⟨e, he, ?_⟩
  obtain ⟨data, hmem, hid, hretrieve⟩ := hreads _ e he
  have hsingle : [b] ∈ pieces := (List.singleton_infix_iff b _).2 hb
  rw [hretrieve _ rfl rfl, sum256_injOn_pieces hmem hsingle hid]

end DiskNexus.Pipeline
