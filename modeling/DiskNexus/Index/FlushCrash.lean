import DiskNexus.Index.Opening

/-!
# A process that dies in a flush

A session opens an unencrypted index, inserts, and may die inside `Flush` or `Close`. The index file
is replaced by renaming, but `bloom.bin` is truncated and rewritten in place, and an open refuses a
filter that is cut short.

## Main results

`shutdown_crash_iff`, `shutdown_crash_torn`
-/

namespace DiskNexus.Index

open Binary Sha256 Files Store

/-! ## Sessions -/

/-- An unencrypted index in use, with its directory. The hashes of a file are distinct, and all
hashes are nonzero: the hash table takes the zero hash for an empty slot. -/
inductive Reachable : DedupIndex → RepoDir → Prop
  | opened {nbits : UInt64} {readOnly : Bool} {d d' : RepoDir} {x : DedupIndex}
      (hfile : IndexFile ((d.lookup .hashIndex).getD []))
      (hdeltas : ∀ e, PendingEntry d e → e.strongHash ≠ .zero)
      (h : newDedupIndex none nbits readOnly d = (.ok x, d')) : Reachable x d'
  | insert {x : DedupIndex} {d : RepoDir} (hr : Reachable x d) (id : ChunkID)
      (packNumber : UInt32) (storeOffset : UInt64) (chunkLength : UInt32)
      (hid : id.strongHash ≠ .zero) :
      Reachable (x.insert id packNumber storeOffset chunkLength).1
        (runOps d (x.insert id packNumber storeOffset chunkLength).2)
  /-- The hash table is ephemeral: a flush of the buffer into it may change working files. -/
  | flushHashIndex {x x' : DedupIndex} {d d' : RepoDir} (hr : Reachable x d)
      (h : x.flushHashIndex = .ok x') (hd : ∀ f, ¬ f.Working → d'.lookup f = d.lookup f) :
      Reachable x' d'
  | captureDelta {x x' : DedupIndex} {d : RepoDir} {path : String} {ops : List (FileOp FileName)}
      (hr : Reachable x d) (h : x.captureDelta path = .ok (x', ops)) : Reachable x' (runOps d ops)
  /-- `ReadAllEntries` flushes the hash index alone. -/
  | readAllEntries {x : DedupIndex} {index : HashIndex} {d : RepoDir} (hr : Reachable x d)
      (h : x.index.flush = .ok index) :
      Reachable { x with index := index } (runOps d x.index.flushOps)
  | flush {x x' : DedupIndex} {d : RepoDir} (hr : Reachable x d) (nonces : ℕ → Bytes)
      (h : x.flush = .ok x') : Reachable x' (runOps d (x.flushOps nonces))

/-- The calls that write the index to its files. -/
inductive Shutdown
  | flush
  | close

/-- The file operations of a call. -/
def Shutdown.ops (call : Shutdown) (x : DedupIndex) (nonces : ℕ → Bytes) :
    List (FileOp FileName) :=
  match call with
  | .flush => x.flushOps nonces
  | .close => x.closeOps nonces

/-! ## What the calls touch -/

variable {f : FileName} {x : DedupIndex} {d : RepoDir}

/-- The journal is no file an open reads. -/
lemma persistent_ne_journal (hf : f.Persistent) (path : String) : DedupIndex.journal path ≠ f :=
  hf.ne_other path

lemma persistent_ne_atomicTmp (hf : f.Persistent) : FileName.atomicTmp ≠ f := by
  rintro rfl
  exact hf

lemma encryptFileOps_untouched {dst : FileName} (h1 : FileName.atomicTmp ≠ f) (h2 : dst ≠ f)
    (k : Cipher) (nonce data : Bytes) : Untouched f (DedupIndex.encryptFileOps k nonce data dst) :=
  untouched_replaceOps h1 h2 _

/-- The delta object is no file that an open reads. -/
lemma writeDeltaObjectOps_untouched (hf : f.Persistent) (key : Option Cipher) (nonce : Bytes)
    (delta : Option DeltaCapture) :
    Untouched f (DedupIndex.writeDeltaObjectOps key nonce delta) := by
  cases delta with
  | none => exact untouched_nil
  | some c =>
    refine .append (by simp [persistent_ne_journal hf]) ?_
    cases key with
    | none => exact untouched_nil
    | some k =>
      simp only
      split
      · exact untouched_nil
      · exact encryptFileOps_untouched (persistent_ne_atomicTmp hf) (hf.ne_other _) _ _ _

lemma captureInsert_untouched (hf : f.Persistent) (x : DedupIndex) (e : DeltaEntry) :
    Untouched f (x.captureInsert e).2 := by
  unfold DedupIndex.captureInsert
  split
  · exact untouched_nil
  · simp only [DedupIndex.DeltaCapture.append]
    split <;> simp [persistent_ne_journal hf]

lemma captureDelta_inv {x' : DedupIndex} {path : String} {ops : List (FileOp FileName)}
    (h : x.captureDelta path = .ok (x', ops)) :
    x'.index = x.index ∧ x'.key = x.key ∧ ∀ f : FileName, f.Persistent → Untouched f ops := by
  unfold DedupIndex.captureDelta at h
  split at h
  · cases h
  · cases h
    exact ⟨rfl, rfl, fun f hf => by simp [persistent_ne_journal hf]⟩

/-- The removed journal is no file an open reads. -/
lemma DedupIndex.discardDeltaOps_untouched (hf : f.Persistent) :
    Untouched f x.discardDeltaOps := by
  unfold DedupIndex.discardDeltaOps
  cases x.delta <;> simp [persistent_ne_journal hf]

/-- A session that is given up removes its journal, its hash table and the plaintext copies. -/
lemma DedupIndex.closeDiscardOps_untouched (hf : f.Persistent)
    (h : x.key.isSome → f ≠ .bloom ∧ f ≠ .hashIndex) : Untouched f x.closeDiscardOps := by
  refine .append (.append (DedupIndex.discardDeltaOps_untouched hf)
    (HashIndex.closeDiscardOps_untouched hf.not_working _)) ?_
  split_ifs with hsome
  · obtain ⟨h1, h2⟩ := h hsome
    simp [h1.symm, h2.symm]
  · exact untouched_nil

/-- So is its journal when it is closed. -/
lemma DedupIndex.closeDeltaOps_untouched (hf : f.Persistent) (nonce : Bytes) :
    Untouched f (x.closeDeltaOps nonce) := by
  unfold DedupIndex.closeDeltaOps
  cases x.delta with
  | none => exact untouched_nil
  | some c =>
    refine (writeDeltaObjectOps_untouched hf _ _ _).append ?_
    split <;> simp [persistent_ne_journal hf]

/-- The calls save the bloom filter and flush the hash index before the files that an open does not
read. -/
lemma Shutdown.ops_eq (hkey : x.key = none) {index : HashIndex} (h : x.index.flush = .ok index)
    (call : Shutdown) (nonces : ℕ → Bytes) :
    ∃ rest, call.ops x nonces = x.bloom.saveOps ++ (x.index.flushOps ++ rest) ∧
      ∀ f, f.Persistent → Untouched f rest := by
  have hwrite : ∀ f : FileName, f.Persistent →
      Untouched f (DedupIndex.writeDeltaObjectOps none (nonces 2) x.delta) :=
    fun f hf => writeDeltaObjectOps_untouched hf _ _ _
  have hflush : x.flushOps nonces = x.bloom.saveOps ++ (x.index.flushOps ++
      DedupIndex.writeDeltaObjectOps none (nonces 2) x.delta) := by
    simp only [DedupIndex.flushOps, h, hkey, List.nil_append]
  cases call with
  | flush => exact ⟨_, hflush, hwrite⟩
  | close =>
    have hclean : index.flushOps = [] := by
      rw [HashIndex.flushOps, if_pos (HashIndex.isClean_of_flush h)]
    refine ⟨DedupIndex.writeDeltaObjectOps none (nonces 2) x.delta ++
      (x.closeDeltaOps (nonces 3) ++ index.closeOps), ?_, fun f hf => ?_⟩
    · simp only [Shutdown.ops, DedupIndex.closeOps, hflush, h, hclean, hkey, Option.isSome_none,
        Bool.false_eq_true, if_false, List.append_nil, List.append_assoc]
    · refine (hwrite f hf).append (.append ?_ (HashIndex.closeOps_untouched hf.not_working _))
      exact DedupIndex.closeDeltaOps_untouched hf _

/-! ## The invariant of a session -/

/-- The invariant: the directory can be opened, and its index file is the one in use. -/
structure Session (x : DedupIndex) (d : RepoDir) : Prop where
  key : x.key = none
  good : x.index.Good
  openable : Openable d
  file : d.lookup .hashIndex = some x.index.file

/-- Steps that leave alone what an open reads keep a directory openable. -/
lemma Openable.of_same {d' : RepoDir} (hd : Openable d)
    (hsame : ∀ f, f.Persistent → d'.lookup f = d.lookup f) : Openable d' := by
  refine (hd.update (fun f hf _ _ => hsame f hf) ?_ ?_).1
  · rw [hsame .bloom trivial]
    exact hd.bloom
  · rw [hsame .hashIndex trivial]
    exact hd.indexFile

lemma runOps_saveOps (bf : BloomFilter) (d : RepoDir) :
    runOps d bf.saveOps = appendTo (d.insert .bloom []) .bloom bf.bytes := rfl

/-- The rewrite of the bloom filter, cut after `n` bytes. -/
lemma crashAt_saveOps (bf : BloomFilter) (d : RepoDir) (n : ℕ) :
    crashAt d bf.saveOps 1 n = appendTo (d.insert .bloom []) .bloom (bf.bytes.take n) := rfl

lemma lookup_appendTo_create (d : RepoDir) (data : Bytes) :
    (appendTo (d.insert .bloom []) .bloom data).lookup .bloom = some data := by
  simp [appendTo]

/-- The bloom filter after it has been saved. -/
lemma lookup_saveOps (bf : BloomFilter) (d : RepoDir) :
    (runOps d bf.saveOps).lookup .bloom = some bf.bytes := by
  rw [runOps_saveOps, lookup_appendTo_create]

lemma saveOps_untouched (hf : f ≠ .bloom) (bf : BloomFilter) :
    Untouched f bf.saveOps := by
  simp [BloomFilter.saveOps, hf.symm]

/-- A complete call without a key: the saved bloom filter, the flushed index file, and the rest. -/
lemma lookup_shutdown (hkey : x.key = none) (hfile : d.lookup .hashIndex = some x.index.file)
    {index : HashIndex} (h : x.index.flush = .ok index) (call : Shutdown) (nonces : ℕ → Bytes) :
    (runOps d (call.ops x nonces)).lookup .bloom = some x.bloom.bytes ∧
      (runOps d (call.ops x nonces)).lookup .hashIndex = some index.file ∧
      ∀ f, f.Persistent → f ≠ .bloom → f ≠ .hashIndex →
        (runOps d (call.ops x nonces)).lookup f = d.lookup f := by
  obtain ⟨rest, hops, hrest⟩ := call.ops_eq hkey h nonces
  have hfile : (runOps d x.bloom.saveOps).lookup .hashIndex = some x.index.file := by
    rw [lookup_runOps (saveOps_untouched (by simp) _), hfile]
  rw [hops, runOps_append, runOps_append]
  refine ⟨?_, ?_, fun f hf h1 h2 => ?_⟩
  · rw [lookup_runOps (hrest .bloom trivial), lookup_runOps
      (HashIndex.flushOps_untouched not_working_bloom (by simp) _), lookup_saveOps]
  · rw [lookup_runOps (hrest .hashIndex trivial), HashIndex.lookup_runOps_flushOps h hfile]
  · rw [lookup_runOps (hrest f hf), lookup_runOps
      (HashIndex.flushOps_untouched hf.not_working h2.symm _),
      lookup_runOps (saveOps_untouched h1 _)]

/-! ### What one call does to a session -/

section Calls

variable {x : DedupIndex} {d : RepoDir}

/-- The files that an open reads, after a keyless open. -/
lemma lookup_opened {d d' : RepoDir} {readOnly : Bool} (hd' : d' = (newHashIndex d readOnly).2) :
    d'.lookup .hashIndex = some ((d.lookup .hashIndex).getD []) ∧
      ∀ f, f.Persistent → f ≠ .hashIndex → d'.lookup f = d.lookup f := by
  subst hd'
  refine ⟨?_, fun f hf hne => ?_⟩
  · rw [lookup_newHashIndex HashIndex.not_working_hashIndex, AList.lookup_insert]
  · rw [lookup_newHashIndex hf.not_working, AList.lookup_insert_ne hne]

lemma Openable.session {d' : RepoDir} {nbits : UInt64} {readOnly : Bool} (hd : Openable d)
    (h : newDedupIndex none nbits readOnly d = (.ok x, d')) : Session x d' := by
  obtain ⟨_, y, -, -, hy, hopened⟩ := newDedupIndex_keyless hd nbits readOnly
  rw [h] at hy
  obtain ⟨rfl, hd'⟩ : x = y ∧ d' = _ := by simpa using hy
  obtain ⟨hlookup, hsame⟩ := lookup_opened hd'
  refine ⟨hopened.key, hopened.good, (hd.update (fun f hf _ hne => hsame f hf hne) ?_ ?_).1,
    by rw [hlookup, hopened.file]⟩
  · rw [hsame .bloom trivial (by simp)]
    exact hd.bloom
  · rw [hlookup]
    exact hd.indexFile

lemma Session.insert (hs : Session x d) {id : ChunkID} (hid : id.strongHash ≠ .zero) (p : UInt32)
    (o : UInt64) (l : UInt32) : Session (x.insert id p o l).1 (runOps d (x.insert id p o l).2) := by
  have hsame : ∀ f : FileName, f.Persistent →
      (runOps d (x.insert id p o l).2).lookup f = d.lookup f :=
    fun f hf => lookup_runOps (captureInsert_untouched hf _ _) d
  have hindex := x.insert_index id p o l
  refine ⟨hindex.2.trans hs.key, ?_, hs.openable.of_same hsame, ?_⟩
  · rw [hindex.1]
    exact hs.good.insert hid p o l
  · rw [hsame .hashIndex trivial, hs.file, hindex.1]
    rfl

lemma Session.flushHashIndex {x' : DedupIndex} {d' : RepoDir} (hs : Session x d)
    (h : x.flushHashIndex = .ok x') (hd : ∀ f, ¬ f.Working → d'.lookup f = d.lookup f) :
    Session x' d' := by
  obtain ⟨index, hflush, rfl⟩ := DedupIndex.flushHashIndex_inv h
  obtain ⟨hgood, hfile, -⟩ := HashIndex.flushDelta_inv hs.good hflush
  refine ⟨hs.key, hgood, hs.openable.of_same fun f hf => hd f hf.not_working, ?_⟩
  rw [hd .hashIndex HashIndex.not_working_hashIndex, hs.file]
  exact congrArg some hfile.symm

lemma Session.captureDelta {x' : DedupIndex} {path : String} {ops : List (FileOp FileName)}
    (hs : Session x d) (h : x.captureDelta path = .ok (x', ops)) : Session x' (runOps d ops) := by
  obtain ⟨hindex, hkey, huntouched⟩ := captureDelta_inv h
  have hsame : ∀ f : FileName, f.Persistent → (runOps d ops).lookup f = d.lookup f :=
    fun f hf => lookup_runOps (huntouched f hf) d
  refine ⟨hkey.trans hs.key, by rw [hindex]; exact hs.good, hs.openable.of_same hsame, ?_⟩
  rw [hsame .hashIndex trivial, hs.file, hindex]

lemma Session.readAllEntries {index : HashIndex} (hs : Session x d)
    (h : x.index.flush = .ok index) :
    Session { x with index := index } (runOps d x.index.flushOps) := by
  obtain ⟨x', hx', hgood, -⟩ := HashIndex.flush_ok hs.good
  obtain rfl : index = x' := by simpa [h] using hx'
  have hlookup := HashIndex.lookup_runOps_flushOps h hs.file
  refine ⟨hs.key, hgood, (hs.openable.update (fun f hf _ hne => ?_) ?_ ?_).1, hlookup⟩
  · exact lookup_runOps
      (HashIndex.flushOps_untouched hf.not_working hne.symm _) d
  · rw [lookup_runOps
      (HashIndex.flushOps_untouched not_working_bloom (by simp) _)]
    exact hs.openable.bloom
  · rw [hlookup]
    exact hgood.indexFile

/-- A complete `Flush` or `Close` leaves an openable directory. -/
lemma Session.openable_shutdown (hs : Session x d) (call : Shutdown) (nonces : ℕ → Bytes) :
    Openable (runOps d (call.ops x nonces)) := by
  obtain ⟨index, hindex, hgood, -⟩ := HashIndex.flush_ok hs.good
  obtain ⟨hbloom, hfile, hsame⟩ := lookup_shutdown hs.key hs.file hindex call nonces
  refine (hs.openable.update hsame (fun data hdata => ?_) ?_).1
  · rw [hbloom] at hdata
    cases hdata
    exact ⟨_, loadBloomFilter_bytes _⟩
  · rw [hfile]
    exact hgood.indexFile

/-- A session that is given up leaves what an open reads. -/
lemma Session.lookup_closeDiscard (hs : Session x d) :
    ∀ f, f.Persistent → (runOps d x.closeDiscardOps).lookup f = d.lookup f :=
  fun _ hf => lookup_runOps
    (DedupIndex.closeDiscardOps_untouched hf (by rw [hs.key]; exact fun h => by cases h)) d

lemma Session.flush {x' : DedupIndex} (hs : Session x d) (nonces : ℕ → Bytes)
    (h : x.flush = .ok x') : Session x' (runOps d (x.flushOps nonces)) := by
  obtain ⟨index, hindex, hgood, -⟩ := HashIndex.flush_ok hs.good
  obtain ⟨-, hfile, -⟩ := lookup_shutdown hs.key hs.file hindex .flush nonces
  have hopen := hs.openable_shutdown .flush nonces
  simp only [DedupIndex.flush, hindex, Except.ok.injEq] at h
  subst h
  exact ⟨hs.key, hgood, hopen, hfile⟩

end Calls

/-- Every reachable session is in the invariant. -/
lemma Reachable.session (hr : Reachable x d) : Session x d := by
  induction hr with
  | opened hfile hdeltas h =>
    obtain ⟨h1, h2, h3, h4⟩ := newDedupIndex_keyless_inv h
    exact Openable.session ⟨h1, h2, h3, hfile, h4, hdeltas⟩ h
  | insert _ id p o l hid ih => exact ih.insert hid p o l
  | flushHashIndex _ h hd ih => exact ih.flushHashIndex h hd
  | captureDelta _ h ih => exact ih.captureDelta h
  | readAllEntries _ h ih => exact ih.readAllEntries h
  | flush _ nonces h ih => exact ih.flush nonces h

/-! ## The crash -/

/-- A cut outside the rewrite of the bloom filter leaves a directory that resolves what it resolved.
-/
lemma Session.crash (hs : Session x d) (call : Shutdown) (nonces : ℕ → Bytes) {k n : ℕ}
    (hcut : ¬ (k = 1 ∧ n < x.bloom.bytes.length)) :
    Openable (crashAt d (call.ops x nonces) k n) ∧
      ∀ h, Resolvable d h → Resolvable (crashAt d (call.ops x nonces) k n) h := by
  obtain ⟨index, hindex, -⟩ := HashIndex.flush_ok hs.good
  obtain ⟨rest, hops, hrest⟩ := call.ops_eq hs.key hindex nonces
  by_cases hk : k = 0
  · -- nothing has happened yet
    have hcrash : crashAt d (call.ops x nonces) k n = d := by
      rw [hops, hk]
      rfl
    rw [hcrash]
    exact ⟨hs.openable, fun h hh => hh⟩
  -- the bloom filter has been written in full
  set d1 := runOps d x.bloom.saveOps with hd1
  have hlen : x.bloom.saveOps.length = 2 := rfl
  have hcrash :
    crashAt d (call.ops x nonces) k n = crashAt d1 (x.index.flushOps ++ rest) (k - 2) n ∨
      crashAt d (call.ops x nonces) k n = d1 := by
    rw [hops, crashAt_append, hlen]
    split
    · right
      obtain rfl : k = 1 := by omega
      have htake : x.bloom.bytes.take n = x.bloom.bytes := List.take_of_length_le (by omega)
      rw [crashAt_saveOps, htake, hd1, runOps_saveOps]
    · exact .inl rfl
  have hfile1 : d1.lookup .hashIndex = some x.index.file := by
    rw [hd1, lookup_runOps (saveOps_untouched (by simp) _), hs.file]
  obtain ⟨d', hd', hbloom, hsame, file, hlookup, hfile, hcovers⟩ : ∃ d',
      crashAt d (call.ops x nonces) k n = d' ∧ d'.lookup .bloom = some x.bloom.bytes ∧
      (∀ f, f.Persistent → f ≠ .bloom → f ≠ .hashIndex → d'.lookup f = d.lookup f) ∧
      ∃ file, d'.lookup .hashIndex = some file ∧ IndexFile file ∧
        ∀ h, (fileMap x.index.file h).isSome → (fileMap file h).isSome := by
    have hsame1 : ∀ f : FileName, f ≠ .bloom → d1.lookup f = d.lookup f :=
      fun f hf => lookup_runOps (saveOps_untouched hf _) d
    rcases hcrash with h | h
    · refine ⟨_, h, ?_, fun f hf h1 h2 => ?_, ?_⟩
      · rw [lookup_crashAt ((HashIndex.flushOps_untouched not_working_bloom
          (by simp) _).append (hrest .bloom trivial)), hd1, lookup_saveOps]
      · rw [lookup_crashAt ((HashIndex.flushOps_untouched hf.not_working
          h2.symm _).append (hrest f hf)), hsame1 f h1]
      · rw [crashAt_append]
        split
        · exact HashIndex.lookup_crashAt_flushOps hs.good hfile1 _ _
        · obtain ⟨file, hlookup, h'⟩ := HashIndex.lookup_crashAt_flushOps hs.good hfile1
            x.index.flushOps.length 0
          refine ⟨file, ?_, h'⟩
          rw [lookup_crashAt (hrest .hashIndex trivial), ← hlookup,
            crashAt_of_length_le le_rfl]
    · exact ⟨_, h, lookup_saveOps _ _, fun f _ h1 _ => hsame1 f h1, x.index.file, hfile1,
        hs.good.indexFile, fun h hh => hh⟩
  rw [hd']
  obtain ⟨hopen, hpending⟩ := hs.openable.update hsame (by
    intro data hdata
    rw [hbloom] at hdata
    cases hdata
    exact ⟨_, loadBloomFilter_bytes _⟩) (by rw [hlookup]; exact hfile)
  refine ⟨hopen, fun h hh => ?_⟩
  rcases hh with hh | ⟨e, he, heq⟩
  · left
    rw [hs.file] at hh
    rw [hlookup]
    exact hcovers h hh
  · exact .inr ⟨e, (hpending e).2 he, heq⟩

/-- A cut inside the rewrite of the bloom filter: its length contradicts its header. -/
lemma Session.torn (hs : Session x d) (call : Shutdown) (nonces : ℕ → Bytes) {n : ℕ}
    (hn : n < x.bloom.bytes.length) (nbits : UInt64) (y : DedupIndex) :
    (newDedupIndex none nbits false (crashAt d (call.ops x nonces) 1 n)).1 ≠ .ok y := by
  intro hy
  obtain ⟨index, hindex, -⟩ := HashIndex.flush_ok hs.good
  obtain ⟨rest, hops, -⟩ := call.ops_eq hs.key hindex nonces
  have htorn : (crashAt d (call.ops x nonces) 1 n).lookup .bloom =
      some (x.bloom.bytes.take n) := by
    rw [hops, crashAt_append, if_pos (by simp [BloomFilter.saveOps]), crashAt_saveOps,
      lookup_appendTo_create]
  obtain ⟨-, -, hbloom, -⟩ := newDedupIndex_keyless_inv (Prod.ext hy rfl)
  obtain ⟨bf, hbf⟩ := hbloom _ htorn
  obtain ⟨e, he⟩ := loadBloomFilter_take x.bloom hn
  rw [he] at hbf
  cases hbf

/-- **A process that dies inside `Flush` or `Close`** leaves an index whose next open succeeds and
resolves every hash the files resolved before, exactly if it did not die between the truncation of
the bloom filter and its last byte.

**Proof sketch.** Outside that window the filter is the old one or the new one in full. The index
file is the old one or the flushed one, and a flush keeps every hash. Inside the window the filter
is a proper prefix of a saved one. -/
theorem shutdown_crash_iff {x : DedupIndex} {d : RepoDir} (hr : Reachable x d) (call : Shutdown)
    (nonces : ℕ → Bytes) (k n : ℕ) (nbits nbits' : UInt64) :
    (∃ y, (newDedupIndex none nbits false (crashAt d (call.ops x nonces) k n)).1 = .ok y ∧
      ∀ y₀, (newDedupIndex none nbits' false d).1 = .ok y₀ →
        ∀ h, (y₀.lookupDirect h).isSome → (y.lookupDirect h).isSome) ↔
      ¬ (k = 1 ∧ n < x.bloom.bytes.length) := by
  have hs := hr.session
  constructor
  · rintro ⟨y, hy, -⟩ ⟨rfl, hn⟩
    exact hs.torn call nonces hn nbits y hy
  · intro hcut
    obtain ⟨hopen, hresolve⟩ := hs.crash call nonces hcut
    obtain ⟨y, hy, hlookup⟩ := lookupDirect_keyless hopen nbits
    obtain ⟨y1, hy1, hlookup1⟩ := lookupDirect_keyless hs.openable nbits'
    refine ⟨y, hy, fun y₀ hy0 h hh => ?_⟩
    rw [hy0] at hy1
    cases hy1
    exact (hlookup h).2 (hresolve h ((hlookup1 h).1 hh))

/-! ## An index of one chunk -/

/-- The entry of a chunk of five bytes. -/
def oneEntry : IndexEntry := ⟨⟨List.replicate 32 7, rfl⟩, 0, 0, 5⟩

/-- An index of one chunk is opened, and another chunk is inserted. -/
lemma oneChunk_reachable : ∃ x d, Reachable x d ∧ Resolvable d oneEntry.strongHash ∧
    x.index.isClean = false := by
  have hopen : Openable (indexDir [oneEntry]) := indexDir_openable (by decide) (by decide)
  obtain ⟨-, x, -, -, hx, -⟩ := newDedupIndex_keyless hopen 64 false
  refine ⟨_, _, .insert (.opened hopen.indexFile hopen.deltas_ne_zero hx) ⟨8, .fill 8⟩ 0 5 5
    (by decide),
    .inl ?_, ?_⟩
  · have huntouched : Untouched .hashIndex (x.insert ⟨8, .fill 8⟩ 0 5 5).2 :=
      captureInsert_untouched (f := .hashIndex) trivial _ _
    rw [lookup_runOps huntouched, lookup_newHashIndex HashIndex.not_working_hashIndex,
      AList.lookup_insert, Option.getD_some, lookup_indexDir, Option.getD_some, fileMap,
        decodeEntries_encodeEntries, isSome_overlay]
    simp
  · rw [(x.insert_index _ 0 5 5).1]
    rfl

/-- A `Close` that dies before its fourth file operation. -/
theorem shutdown_crash_iff_close : ∃ x d, Reachable x d ∧ Resolvable d oneEntry.strongHash ∧
    x.index.isClean = false ∧
    ∃ y, (newDedupIndex none 64 false
        (crashAt d (Shutdown.close.ops x fun _ => []) 3 0)).1 = .ok y ∧
      ∀ y₀, (newDedupIndex none 64 false d).1 = .ok y₀ →
        ∀ h, (y₀.lookupDirect h).isSome → (y.lookupDirect h).isSome := by
  obtain ⟨x, d, hr, hres, hdirty⟩ := oneChunk_reachable
  exact ⟨x, d, hr, hres, hdirty,
    (shutdown_crash_iff hr .close (fun _ => []) 3 0 64 64).2 (by simp)⟩

/-- A `Flush` that dies once the header of the bloom filter is written. -/
theorem shutdown_crash_torn : ∃ x d, Reachable x d ∧
    (∃ y₀, (newDedupIndex none 64 false d).1 = .ok y₀ ∧
      (y₀.lookupDirect oneEntry.strongHash).isSome) ∧
    ∀ y, (newDedupIndex none 64 false
      (crashAt d (Shutdown.flush.ops x fun _ => []) 1 16)).1 ≠ .ok y := by
  obtain ⟨x, d, hr, hres, -⟩ := oneChunk_reachable
  have hs := hr.session
  obtain ⟨y₀, hy0, hlookup⟩ := lookupDirect_keyless hs.openable 64
  have hn : 16 < x.bloom.bytes.length := by
    have := x.bloom.pos
    rw [BloomFilter.length_bytes]
    omega
  exact ⟨x, d, hr, ⟨y₀, hy0, (hlookup _).2 hres⟩, hs.torn .flush _ hn 64⟩

end DiskNexus.Index
