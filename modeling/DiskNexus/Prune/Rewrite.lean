import DiskNexus.Index.Closing
import DiskNexus.Prune.Resolve
import DiskNexus.Store.History

/-!
# The copy of a prune

`rewriteChunks` reads the frames of the entries that stay, appends each to a fresh series of packs
and inserts its new place into a fresh index. The invariant of the loop: the frame of the old place
lies at the new one.

## Main results

`rewriteLoop_copying`, `Copied.readFrame_eq`
-/

namespace DiskNexus.Prune

open Binary Sha256 Files Index Store

/-! ## Packs and directories -/

lemma lookup_packsOf (d : Dir) (n : ℕ) : (packsOf d).lookup n = d.lookup (.pack n) := by
  unfold packsOf
  change _ = d.entries.dlookup (.pack n)
  induction d.entries with
  | nil => rfl
  | cons f fs ih =>
    rw [List.foldr_cons]
    obtain ⟨name, data⟩ := f
    by_cases hname : name = .pack n
    · subst hname
      rw [List.dlookup_cons_eq]
      exact AList.lookup_insert _
    · rw [List.dlookup_cons_ne _ _ (Ne.symm hname), ← ih]
      split
      · rename_i m data' heq
        cases heq
        refine AList.lookup_insert_ne fun hnm => hname ?_
        rw [hnm]
      · rfl

lemma lookup_writePacks (d : Dir) (packs : Packs) (n : ℕ) :
    (writePacks d packs).lookup (.pack n) = (packs.lookup n).or (d.lookup (.pack n)) := by
  unfold writePacks
  change _ = (packs.entries.dlookup n).or _
  induction packs.entries with
  | nil => rfl
  | cons p ps ih =>
    rw [List.foldr_cons]
    obtain ⟨m, data⟩ := p
    by_cases hm : m = n
    · subst hm
      rw [List.dlookup_cons_eq, AList.lookup_insert]
      rfl
    · rw [List.dlookup_cons_ne _ _ (Ne.symm hm), ← ih, AList.lookup_insert_ne]
      simpa using Ne.symm hm

/-- The packs of a repository after a swap are the staged ones. -/
lemma lookup_packsOf_staged (packs : Packs) (gen : Bytes) (n : ℕ) :
    (packsOf (withGeneration (writePacks ∅ packs) gen)).lookup n = packs.lookup n := by
  have hne : FileName.pack n ≠ packsGenerationFile := by simp [packsGenerationFile]
  rw [lookup_packsOf, withGeneration, AList.lookup_insert_ne hne, lookup_writePacks,
    AList.lookup_empty, Option.or_none]

/-! ## One chunk -/

variable {s old : ChunkStore} {frame : Bytes} {e : IndexEntry} {packs : Packs} {d : DeltaEntry}
  {es entries : List IndexEntry} {ds : List DeltaEntry} {inp : Input} {key : Option Cipher}
  {x : DedupIndex} {cfg : RepoConfig}

/-- A raw write that succeeds in a store without leftovers. -/
lemma storeRaw_frameAt {s' : ChunkStore} {f : Faults} {r : Stored} (hs : s.Settled) (hb : s.Bounded)
    (h : s.storeRaw frame f = (.ok r, s')) :
    s.Extends s' ∧ s'.Settled ∧ s'.Bounded ∧ r.packNum < 2 ^ 32 ∧
      ChunkStore.FrameAt s'.packs r.packNum r.offset frame := by
  have hext := ChunkStore.call_extends s (.storeRaw frame f)
  obtain ⟨_, s1, hframe, hprep, hopen, rfl, rfl⟩ := ChunkStore.call_ok (c := .storeRaw frame f) h
  cases hframe
  rw [ChunkStore.call, h] at hext
  have haligned : s1.Aligned := hprep.1.settled hs hopen
  obtain ⟨hnum, hbounded⟩ := (hprep.1.appended hs hopen frame).2 hb
  exact ⟨hext, ChunkStore.appended_settled haligned frame, hbounded, hnum, s1.currentFile, [],
    by simp [ChunkStore.appended], haligned⟩

/-- The frame that a raw read returns, and its chunk. -/
lemma readFrame_of_raw {data : Bytes}
    (hraw : s.retrieveRaw e.packNumber.toNat e.storeOffset.toNat = .ok frame)
    (hdecode : s.codec.decode ((frame.drop 8).take (statedLen frame)) = .ok data) :
    readFrame s e = some (frame, data) := by
  have hread : s.retrieve e.packNumber.toNat e.storeOffset.toNat = .ok data := by
    unfold ChunkStore.retrieveRaw at hraw
    unfold ChunkStore.retrieve
    cases hfile : s.packs.lookup e.packNumber.toNat with
    | none => rw [hfile] at hraw; cases hraw
    | some file =>
      rw [hfile] at hraw
      obtain ⟨-, hlen, hiff⟩ := @retrieveRawAt_ok s.codec file frame data _ hraw
      refine hiff.2 ?_
      unfold retrieveFromFrame
      rw [if_neg (by omega), if_neg (by omega), hdecode]
  simp only [readFrame, hraw, hread]

/-- The frame of a reader is complete, and it decodes to the chunk. -/
lemma readFrame_inv {data : Bytes} (h : readFrame s e = some (frame, data)) :
    statedLen frame ≤ maxChunkFrameLen ∧ frame.length = 8 + statedLen frame ∧
      retrieveFromFrame s.codec frame = .ok data := by
  unfold readFrame at h
  split at h
  · rename_i hraw hread
    cases h
    unfold ChunkStore.retrieveRaw at hraw
    unfold ChunkStore.retrieve at hread
    cases hfile : s.packs.lookup e.packNumber.toNat with
    | none => rw [hfile] at hraw; cases hraw
    | some file =>
      rw [hfile] at hraw hread
      obtain ⟨hbound, hlen, hiff⟩ := @retrieveRawAt_ok s.codec file frame data _ hraw
      exact ⟨hbound, hlen, hiff.1 hread⟩
  · cases h

/-- An index entry and the insert that its copy made: the frame of the one lies where the other
says. -/
structure Copied (old : ChunkStore) (packs : Packs) (e : IndexEntry) (d : DeltaEntry) : Prop where
  hash : d.strongHash = e.strongHash
  frame : ∃ frame data packNum offset, readFrame old e = some (frame, data) ∧
    ChunkStore.FrameAt packs packNum offset frame ∧ packNum < 2 ^ 32 ∧
    d.packNumber = UInt32.ofNat packNum ∧ d.storeOffset = UInt64.ofNat offset

lemma Copied.mono {packs' : Packs} (hgrows : ChunkStore.Grows packs packs')
    (h : Copied old packs e d) : Copied old packs' e d := by
  obtain ⟨frame, data, packNum, offset, hread, hat, hrest⟩ := h.frame
  exact ⟨h.hash, frame, data, packNum, offset, hread, hat.mono hgrows, hrest⟩

/-- An entry of a copied list has its insert. -/
lemma exists_insert_of_mem (h : List.Forall₂ (Copied old packs) es ds) (he : e ∈ es) :
    ∃ d ∈ ds, Copied old packs e d := by
  induction h with
  | nil => cases he
  | cons hcopied _ ih =>
    rcases List.mem_cons.1 he with rfl | he
    · exact ⟨_, List.mem_cons_self, hcopied⟩
    · obtain ⟨d, hd, hcopied⟩ := ih he
      exact ⟨d, .tail _ hd, hcopied⟩

/-- An insert of a copy has its entry. -/
lemma exists_entry_of_mem (h : List.Forall₂ (Copied old packs) es ds) (hd : d ∈ ds) :
    ∃ e ∈ es, Copied old packs e d := by
  induction h with
  | nil => cases hd
  | cons hcopied _ ih =>
    rcases List.mem_cons.1 hd with rfl | hd
    · exact ⟨_, List.mem_cons_self, hcopied⟩
    · obtain ⟨e, he, hcopied⟩ := ih hd
      exact ⟨e, .tail _ he, hcopied⟩

/-- The inserts of a copy have the hashes of the entries. -/
lemma map_strongHash_of_copied (h : List.Forall₂ (Copied old packs) es ds) :
    ds.map (·.strongHash) = es.map (·.strongHash) := by
  induction h with
  | nil => rfl
  | cons hcopied _ ih => rw [List.map_cons, List.map_cons, hcopied.hash, ih]

/-- A copied entry reads the same at its new place, if the new packs are not too long. -/
lemma Copied.readFrame_eq {new : ChunkStore} (h : Copied old new.packs e d)
    (hcodec : new.codec = old.codec)
    (hsize : ∀ n file, new.packs.lookup n = some file → file.length < 2 ^ 64) :
    readFrame new d.indexEntry = readFrame old e := by
  obtain ⟨frame, data, packNum, offset, hread, ⟨before, after, hfile, rfl⟩, hnum, hp, ho⟩ := h.frame
  obtain ⟨hbound, hlen, hdata⟩ := readFrame_inv hread
  have hoffset : before.length < 2 ^ 64 := by
    have := hsize _ _ hfile
    simp only [List.length_append] at this
    omega
  have hp' : d.packNumber.toNat = packNum := by
    rw [hp, UInt32.toNat_ofNat_of_lt' hnum]
  have ho' : d.storeOffset.toNat = before.length := by
    rw [ho, UInt64.toNat_ofNat_of_lt' hoffset]
  have hraw : new.retrieveRaw packNum before.length = .ok frame := by
    rw [ChunkStore.retrieveRaw, hfile]
    exact retrieveRawAt_append hbound hlen
  have hret : new.retrieve packNum before.length = .ok data := by
    rw [ChunkStore.retrieve, hfile]
    exact retrieveAt_eq_retrieveFromFrame (hcodec ▸ hdata) hbound
  rw [hread, readFrame]
  simp only [DeltaEntry.indexEntry, hp', ho', hraw, hret]

/-! ## The loop -/

/-- The hash index of a fresh directory that is opened without a hash table. -/
def freshIndex : HashIndex := ⟨[], ∅, false, true, none⟩

/-- The invariant of the copy: the entries in `done` have been copied from `old`. -/
structure Copying (old : ChunkStore) (key : Option Cipher) (done : List IndexEntry) (s : Staged) :
    Prop where
  codec : s.store.codec = old.codec
  settled : s.store.Settled
  bounded : s.store.Bounded
  key : s.index.key = key
  index : ∃ ds, s.index.index = insertDeltas freshIndex ds ∧
    List.Forall₂ (Copied old s.store.packs) done ds

/-- The frame of an entry that is copied. -/
lemma rewriteChunk_ok {normalizer : Option (Bytes → Bytes)} {i : ℕ} {s s' : Staged}
    (h : rewriteChunk inp normalizer old i e s = (.ok (), s')) :
    ∃ frame data r store weakHash,
      old.retrieveRaw e.packNumber.toNat e.storeOffset.toNat = .ok frame ∧
      s.store.storeRaw frame (inp.faults i) = (.ok r, store) ∧
      inp.codec.decode ((frame.drop 8).take (statedLen frame)) = .ok data ∧
      s' = ⟨store, (s.index.insert ⟨weakHash, e.strongHash⟩ (UInt32.ofNat r.packNum)
        (UInt64.ofNat r.offset) e.chunkLength).1⟩ := by
  unfold rewriteChunk at h
  split at h
  · cases h
  cases hraw : old.retrieveRaw e.packNumber.toNat e.storeOffset.toNat with
  | error msg => rw [hraw] at h; cases h
  | ok frame =>
    rw [hraw] at h
    simp only at h
    rcases hstore : s.store.storeRaw frame (inp.faults i) with ⟨_ | r, store⟩ <;> rw [hstore] at h
    · cases h
    cases hdecode : inp.codec.decode ((frame.drop 8).take (statedLen frame)) with
    | error err => rw [hdecode] at h; cases err <;> cases h
    | ok data =>
      rw [hdecode] at h
      cases h
      exact ⟨frame, data, r, store, _, rfl, hstore, hdecode, rfl⟩

/-- One chunk keeps the invariant. -/
lemma Copying.step {inp : Input} {normalizer : Option (Bytes → Bytes)} {old : ChunkStore}
    {key : Option Cipher} {done : List IndexEntry} {i : ℕ} {e : IndexEntry} {s s' : Staged}
    (hold : old.codec = inp.codec) (hs : Copying old key done s)
    (h : rewriteChunk inp normalizer old i e s = (.ok (), s')) :
    Copying old key (done ++ [e]) s' := by
  obtain ⟨frame, data, r, store, weakHash, hraw, hstore, hdecode, rfl⟩ := rewriteChunk_ok h
  obtain ⟨hext, hsettled, hbounded, hnum, hat⟩ := storeRaw_frameAt hs.settled hs.bounded hstore
  obtain ⟨ds, hindex, hcopied⟩ := hs.index
  have hread : readFrame old e = some (frame, data) := readFrame_of_raw hraw (hold ▸ hdecode)
  obtain ⟨hinsert, hkey⟩ := s.index.insert_index ⟨weakHash, e.strongHash⟩ (UInt32.ofNat r.packNum)
    (UInt64.ofNat r.offset) e.chunkLength
  refine ⟨hext.codec.trans hs.codec, hsettled, hbounded, hkey.trans hs.key, ds ++
    [⟨e.strongHash, weakHash, UInt32.ofNat r.packNum, UInt64.ofNat r.offset, e.chunkLength⟩], ?_,
      ?_⟩
  · rw [hinsert, hindex, insertDeltas, insertDeltas, List.foldl_append]
    rfl
  · refine List.rel_append (hcopied.imp fun _ _ hc => hc.mono hext.grows) (.cons ?_ .nil)
    exact ⟨rfl, frame, data, r.packNum, r.offset, hread, hat, hnum, rfl, rfl⟩

/-- **The copy** keeps the invariant. -/
theorem rewriteLoop_copying {normalizer : Option (Bytes → Bytes)} {done : List IndexEntry} {i : ℕ}
    {s s' : Staged} (hold : old.codec = inp.codec) (hs : Copying old key done s)
    (h : rewriteLoop inp normalizer old i es s = (.ok (), s')) :
    Copying old key (done ++ es) s' := by
  induction es generalizing i s done with
  | nil =>
    cases h
    rwa [List.append_nil]
  | cons e es ih =>
    unfold rewriteLoop at h
    rcases hstep : rewriteChunk inp normalizer old i e s with ⟨_ | _, s1⟩ <;> rw [hstep] at h
    · cases h
    · have := ih (hs.step hold hstep) h
      rwa [List.append_assoc] at this

/-! ## The staging index -/

/-- A fresh directory has no delta objects. -/
lemma lookup_delta_fresh (stem : String) (enc : Bool) :
    (newHashIndex ∅ true).2.lookup (.delta stem enc) = none :=
  (newHashIndex_leaves ∅ none).rest (.delta stem enc) trivial (by simp) (by simp)

/-- Opening a fresh directory. -/
lemma newDedupIndex_fresh (key : Option Cipher) (nbits : UInt64) :
    ∃ x : DedupIndex, newDedupIndex key nbits true ∅ = (.ok x, (newHashIndex ∅ true).2) ∧
      x.index = freshIndex ∧ x.key = key := by
  have hcopies : workingCopies key ∅ = (.ok (), ∅) := by cases key <;> rfl
  have hbloom : openBloom key nbits ∅ = (.ok (newBloomFilter nbits, true), ∅) := rfl
  have hindex : newHashIndex ∅ true = (.ok freshIndex, (newHashIndex ∅ true).2) := rfl
  have hpending : pendingDeltas key (newHashIndex ∅ true).2 = .ok [] :=
    pendingDeltas_nil lookup_delta_fresh key
  refine ⟨⟨newBloomFilter nbits, freshIndex, key, false, none⟩, ?_, rfl, rfl⟩
  unfold newDedupIndex
  simp only [hcopies, hbloom]
  rw [hindex]
  simp only [hpending]
  rfl

/-- **The staging index** after its close: an open sees its inserts, and no deltas. -/
theorem opened_close (hkey : x.key = key)
    (hindex : x.index = insertDeltas freshIndex ds)
    (hlaw : ∀ k ∈ key, ∀ nonce data, k.decryptWithAAD (k.encryptWithAAD nonce data) = some data)
    (nonces : ℕ → Bytes) :
    opened key (runOps (newHashIndex ∅ true).2 (x.closeOps nonces)) =
      some (mergedFile [] ds, []) := by
  have hflush : x.index.flush = .ok ⟨mergedFile [] ds, ∅, false, true, none⟩ := by
    rw [hindex]
    exact flush_insertDeltas [] ds
  have hleaves := newHashIndex_leaves ∅ none
  refine opened_shutdown hkey hflush (fun _ => ⟨?_, ?_, ?_⟩) hlaw
    (pendingDeltas_nil lookup_delta_fresh key) .close nonces
  · rw [hleaves.hashIndex, hindex, (insertDeltas_fields _ _).1]
    rfl
  · exact hleaves.rest _ trivial (by simp) (by simp)
  · exact hleaves.rest _ trivial (by simp) (by simp)

/-! ## The copy and the swap -/

/-- The store and the index that a copy into a fresh staging directory starts with. -/
def freshStaged (inp : Input) (cfg : RepoConfig) (x : DedupIndex) : Staged :=
  ⟨.newChunkStore (packsOf ∅) inp.codec cfg.packFileMaxSize, x⟩

lemma freshStaged_copying (hold : old.codec = inp.codec) (hindex : x.index = freshIndex)
    (hkey : x.key = key) : Copying old key [] (freshStaged inp cfg x) :=
  ⟨hold.symm, fun hopen => (by cases hopen),
    Store.newChunkStore_bounded (fun n hn => absurd hn (AList.notMem_empty n)) _ _,
    hkey, [], hindex, .nil⟩

/-- The loop of a copy into a fresh staging directory, and what it leaves there. -/
lemma rewriteChunks_loop {r r' : Repo} (hstaging : r.staging = none)
    (h : rewriteChunks inp cfg old entries r = (.ok (), r')) :
    ∃ x normalizer s, x.index = freshIndex ∧ x.key = cfg.indexKeyFor inp.key ∧
      rewriteLoop inp normalizer old 0 (entries.insertionSort ByLocation) (freshStaged inp cfg x) =
        (.ok (), s) ∧
      r' = { r with staging := some ⟨some (writePacks ∅ s.store.packs),
        some (runOps (newHashIndex ∅ true).2 (s.index.closeOps inp.nonces))⟩ } := by
  obtain ⟨x, hx, hindex, hkey⟩ :=
    newDedupIndex_fresh (cfg.indexKeyFor inp.key) (inp.nbits (entries.length + 100))
  unfold rewriteChunks at h
  simp only [hstaging, Option.getD_none] at h
  cases hnormalizer : cfg.normalizer with
  | error e => rw [hnormalizer] at h; cases h
  | ok normalizer =>
    rw [hnormalizer, hx] at h
    simp only at h
    rcases hloop : rewriteLoop inp normalizer old 0 (entries.insertionSort ByLocation)
      ⟨.newChunkStore (packsOf ∅) inp.codec cfg.packFileMaxSize, x⟩ with
        ⟨_ | _, s⟩ <;> rw [hloop] at h
    · cases h
    · refine ⟨x, normalizer, s, hindex, hkey, hloop, ?_⟩
      simp only at h
      split at h
      · cases h
      · split at h
        · cases h
        · exact (Prod.mk.inj h).2.symm

/-- The swap of a complete pair into place, when nothing fails. -/
lemma atomicSwap_installs (oldC oldI newC newI : Dir) (gen1 gen2 : Bytes) :
    CrashLogic.Prog.stateAfter Repo.act (atomicSwap gen1 gen2) (.staged oldC oldI newC newI) =
        ⟨some (withGeneration newC gen2), some newI, none, none, none⟩ ∧
      CrashLogic.Prog.resultAfter Repo.act (atomicSwap gen1 gen2) (.staged oldC oldI newC newI) =
        none := by
  have hgen : (newC.insert packsGenerationFile gen1).insert packsGenerationFile gen2 =
      withGeneration newC gen2 := AList.insert_insert newC
  exact ⟨rfl, rfl⟩

/-- The copy and the swap, if they succeed, put in place what the loop leaves. -/
lemma rewriteAndSwap_loop {result result' : Result} {c : Option Dir} {i : Dir} {m : Manifests}
    {r' : Repository}
    (h : rewriteAndSwap inp cfg entries result ⟨⟨c, some i, none, none, none⟩, m⟩ =
      (.ok result', r')) :
    ∃ x normalizer s, x.index = freshIndex ∧ x.key = cfg.indexKeyFor inp.key ∧
      rewriteLoop inp normalizer
        (.newChunkStore (packsOf (c.getD ∅)) inp.codec cfg.packFileMaxSize) 0
        (entries.insertionSort ByLocation) (freshStaged inp cfg x) = (.ok (), s) ∧
      r'.dirs = ⟨some (withGeneration (writePacks ∅ s.store.packs) inp.generations.2),
        some (runOps (newHashIndex ∅ true).2 (s.index.closeOps inp.nonces)), none, none, none⟩ := by
  unfold rewriteAndSwap at h
  simp only at h
  rcases hcopy : rewriteChunks inp cfg
    (.newChunkStore (packsOf (c.getD ∅)) inp.codec cfg.packFileMaxSize) entries
    ⟨some (c.getD ∅), some i, none, none, none⟩ with ⟨_ | _, dirs⟩ <;> rw [hcopy] at h
  · cases h
  obtain ⟨x, normalizer, s, hindex, hkey, hloop, rfl⟩ := rewriteChunks_loop rfl hcopy
  obtain ⟨hstate, hresult⟩ := atomicSwap_installs (c.getD ∅) i (writePacks ∅ s.store.packs)
    (runOps (newHashIndex ∅ true).2 (s.index.closeOps inp.nonces)) inp.generations.1
    inp.generations.2
  obtain ⟨-, rfl⟩ := Prod.mk.inj h
  exact ⟨x, normalizer, s, hindex, hkey, hloop, rfl⟩

/-- **The copy and the swap**, if they succeed: the new packs hold the frames, the index their
places. -/
theorem rewriteAndSwap_ok {result result' : Result} {c : Option Dir} {i : Dir} {m : Manifests}
    {r' : Repository} (hlaw : ∀ k ∈ cfg.indexKeyFor inp.key, ∀ nonce data,
      k.decryptWithAAD (k.encryptWithAAD nonce data) = some data)
    (h : rewriteAndSwap inp cfg entries result ⟨⟨c, some i, none, none, none⟩, m⟩ =
      (.ok result', r')) :
    ∃ packs index ds,
      r'.dirs = ⟨some (withGeneration (writePacks ∅ packs) inp.generations.2), some index,
        none, none, none⟩ ∧
      opened (cfg.indexKeyFor inp.key) index = some (mergedFile [] ds, []) ∧
      List.Forall₂
        (Copied (.newChunkStore (packsOf (c.getD ∅)) inp.codec cfg.packFileMaxSize) packs)
        (entries.insertionSort ByLocation) ds := by
  obtain ⟨x, normalizer, s, hindex, hkey, hloop, hdirs⟩ := rewriteAndSwap_loop h
  have hdone := rewriteLoop_copying rfl (freshStaged_copying rfl hindex hkey) hloop
  obtain ⟨ds, hds, hcopied⟩ := hdone.index
  exact ⟨s.store.packs, _, ds, hdirs, opened_close hdone.key hds hlaw inp.nonces, hcopied⟩

/-- A recovery leaves nothing behind but the pair. -/
lemma recovered_clean (r : Repo) : ∃ c i, r.recovered = ⟨c, i, none, none, none⟩ := by
  rcases r with ⟨_ | c, _ | i, _ | ⟨_ | sc, _ | si⟩, _ | oc, _ | oi⟩ <;> exact ⟨_, _, rfl⟩

end DiskNexus.Prune
