import DiskNexus.Index.BloomCoverage
import DiskNexus.Index.Closing

/-!
# A close in which file operations fail

`Close` saves the bloom filter, rewrites the index file, encrypts both if there is a key and stamps
the delta. If one of these fails it still closes the hash index, which flushes once more: an older
filter may stay beside an index that has the inserts of the session.

## Main results

`close_covered_iff`, `close_leaves_old_filter`
-/

namespace DiskNexus.Index

open Binary Sha256 Files Store
open Prune (opened openedFile workingCopy bloomLoads)

/-! ## The code -/

/-- How saving the bloom filter goes: the file is not created, or a write fails. -/
inductive SaveFault
  | ok
  | create
  | write (n : ℕ)
  deriving DecidableEq

/-- How a flush of the hash index goes: it fails up to the renaming of the new file, when that is
opened, or when the hash table is rebuilt. -/
inductive FlushFault
  | ok
  | early
  | reopen
  | rebuild
  deriving DecidableEq

/-- What fails in a `Flush`. -/
structure FlushFaults where
  save : SaveFault
  flush : FlushFault
  encryptBloom : Bool
  encryptIndex : Bool
  delta : Bool

/-- What fails in a `Close`: its `Flush`, the end of the delta, and the flush of the hash index. -/
structure CloseFaults extends FlushFaults where
  closeDelta : Bool
  closeFlush : FlushFault

/-- `HashIndex.Flush`: whether it succeeds, the index it leaves, and its file operations. A handle
that is lost when the new file is opened is taken to be readable still; reading it fails in the
source, as an early fault does. -/
def HashIndex.flushWith (x : HashIndex) (fault : FlushFault) :
    Bool × HashIndex × List (FileOp FileName) :=
  let file := encodeEntries (sortEntries x.collect)
  let replace := replaceOps .hashIndexTmp .hashIndex file
  if x.isClean then (true, x, [])
  else
    match fault with
    | .ok =>
      match x.flush with
      | .error _ => (false, ⟨file, ∅, false, x.noHtab, none⟩, x.flushOps)
      | .ok y => (true, y, x.flushOps)
    | .early => (false, x, [.create .hashIndexTmp, .remove .hashIndexTmp])
    | .reopen => (false, x, replace)
    | .rebuild => (x.noHtab, ⟨file, ∅, false, x.noHtab, none⟩, replace ++ [.remove .htab])

/-- `HashIndex.Close`. -/
def HashIndex.closeWith (x : HashIndex) (fault : FlushFault) (d : RepoDir) : Bool × RepoDir :=
  match x.flushWith fault with
  | (true, y, ops) => (true, runOps (runOps d ops) y.closeOps)
  | (false, y, ops) => (false, runOps (runOps d ops) y.closeDiscardOps)

/-- The directory after the save of the filter. -/
def BloomFilter.saveWith (bf : BloomFilter) (fault : SaveFault) (d : RepoDir) : RepoDir :=
  match fault with
  | .ok => runOps d bf.saveOps
  | .create => d
  | .write n => crashAt d bf.saveOps 1 n

/-- `crypto.EncryptFile`. The file is replaced in one piece or not at all. -/
def encryptFileWith (k : Cipher) (nonce : Bytes) (src dst : FileName) (fails : Bool) (d : RepoDir) :
    Bool × RepoDir :=
  match d.lookup src with
  | none => (false, d)
  | some data =>
    if fails then (false, d) else (true, runOps d (DedupIndex.encryptFileOps k nonce data dst))

/-- The encryption of the bloom filter and of the index file. -/
def encryptCopiesWith (key : Option Cipher) (f : FlushFaults) (nonces : ℕ → Bytes) (d : RepoDir) :
    Bool × RepoDir :=
  match key with
  | none => (true, d)
  | some k =>
    match encryptFileWith k (nonces 0) .bloom .bloomEnc f.encryptBloom d with
    | (false, d) => (false, d)
    | (true, d) =>
      encryptFileWith k (nonces 1) .hashIndex .hashIndexEnc f.encryptIndex (d.erase .bloom)

/-- `Flush`. -/
def DedupIndex.flushWith (x : DedupIndex) (f : FlushFaults) (nonces : ℕ → Bytes) (d : RepoDir) :
    Bool × DedupIndex × RepoDir :=
  let d := x.bloom.saveWith f.save d
  if f.save ≠ .ok then (false, x, d)
  else
    let flushed := x.index.flushWith f.flush
    let d := runOps d flushed.2.2
    let y := { x with index := flushed.2.1 }
    if !flushed.1 then (false, y, d)
    else
      match encryptCopiesWith x.key f nonces d with
      | (false, d) => (false, y, d)
      | (true, d) =>
        if f.delta ∧ x.delta.isSome then (false, y, d)
        else (true, { y with delta := x.delta.map fun c => { c with buffered := [] } },
          runOps d (DedupIndex.writeDeltaObjectOps x.key (nonces 2) x.delta))

/-- `Close`. The journal of a session that fails is removed, and so is the plaintext of a closed
one. -/
def DedupIndex.closeWith (x : DedupIndex) (f : CloseFaults) (nonces : ℕ → Bytes) (d : RepoDir) :
    Bool × RepoDir :=
  match x.flushWith f.toFlushFaults nonces d with
  | (false, y, d) => (false, (y.index.closeWith f.closeFlush (runOps d x.discardDeltaOps)).2)
  | (true, y, d) =>
    if f.closeDelta ∧ x.delta.isSome then (false, (y.index.closeWith f.closeFlush d).2)
    else
      match y.index.closeWith f.closeFlush (runOps d (y.closeDeltaOps (nonces 3))) with
      | (ok, d) => (ok, if x.key.isSome then d.erase .hashIndex else d)

/-- Whether a flush of the hash index succeeds. -/
def HashIndex.flushes (x : HashIndex) (fault : FlushFault) : Bool :=
  x.isClean || fault == .ok || (fault == .rebuild && x.noHtab)

/-- Whether the bloom filter is encrypted. -/
def FlushFaults.encrypts (f : FlushFaults) (x : DedupIndex) : Prop :=
  x.key.isSome ∧ f.save = .ok ∧ x.index.flushes f.flush = true ∧ f.encryptBloom = false

/-- The index file is rewritten: one of the flushes gets as far as renaming the new file. -/
def CloseFaults.rewrites (f : CloseFaults) (x : DedupIndex) : Prop :=
  ¬ x.index.isClean ∧ ((f.save = .ok ∧ f.flush ≠ .early) ∨ f.closeFlush ≠ .early)

instance (f : CloseFaults) (x : DedupIndex) : Decidable (f.rewrites x) :=
  inferInstanceAs (Decidable (_ ∧ _))

/-- The next open sees the filter of the session: it is encrypted, or there is no encrypted filter
and the plain file is created. -/
def CloseFaults.savesBloom (f : CloseFaults) (x : DedupIndex) (d : RepoDir) : Prop :=
  f.encrypts x ∨ ((d.lookup .bloomEnc).isNone ∧ f.save ≠ .create)

/-! ## What the calls leave -/

/-- An index whose hash table may have been lost. -/
def HashIndex.Usable (x : HashIndex) : Prop := ({ x with noHtab := x.htab.isNone } : HashIndex).Good

variable {file : Bytes} {f : FileName} {es : List DeltaEntry}

section HashIndexCalls

variable {x : HashIndex} {d : RepoDir}

lemma HashIndex.Good.usable (h : x.Good) : x.Usable := by
  have hmode : x.htab.isNone = x.noHtab := by
    have hm := h.mode
    rw [← Option.not_isSome, hm, Bool.not_not]
  unfold Usable
  rw [hmode]
  exact h

/-- The file of a flush. -/
lemma HashIndex.Usable.flushed (h : x.Usable) :
    IndexFile (encodeEntries (sortEntries x.collect)) ∧
      fileMap (encodeEntries (sortEntries x.collect)) = x.content :=
  @HashIndex.flushed_file { x with noHtab := x.htab.isNone } h

/-- An index over a flushed file whose hash table is lost. -/
lemma HashIndex.usable_of_file (hf : IndexFile file) (noHtab : Bool) :
    (⟨file, ∅, false, noHtab, none⟩ : HashIndex).Usable ∧
      (⟨file, ∅, false, noHtab, none⟩ : HashIndex).content = fileMap file :=
  @HashIndex.good_of_file file hf true none rfl (by simp)

/-- A flush that has something to do. -/
lemma HashIndex.Usable.flush (h : x.Usable) (hdirty : ¬ x.isClean) :
    ∃ t, x.flush = .ok ⟨encodeEntries (sortEntries x.collect), ∅, false, x.noHtab, t⟩ ∧
      (⟨encodeEntries (sortEntries x.collect), ∅, false, x.noHtab, t⟩ : HashIndex).Usable ∧
      (⟨encodeEntries (sortEntries x.collect), ∅, false, x.noHtab, t⟩ : HashIndex).content =
        x.content := by
  obtain ⟨hfile, hmap⟩ := h.flushed
  unfold HashIndex.flush
  rw [if_neg hdirty]
  cases hno : x.noHtab with
  | true =>
    obtain ⟨husable, hcontent⟩ := HashIndex.usable_of_file hfile true
    exact ⟨none, rfl, husable, hcontent.trans hmap⟩
  | false =>
    obtain ⟨t, ht, htgood, htl⟩ := buildHashTable_indexFile hfile
    obtain ⟨hgood, hcontent⟩ := @HashIndex.good_of_file _ hfile false (some t) rfl (by
      rintro _ ⟨⟩
      exact ⟨htgood, htl⟩)
    exact ⟨some t, by simp only [ht, Bool.false_eq_true, if_false], hgood.usable,
      hcontent.trans hmap⟩

/-- What a flush of `x` leaves: the index `y`, and an index file that is replaced unless there is
nothing to flush or the fault is early. -/
structure HashIndex.Flushes (x : HashIndex) (fault : FlushFault) (y : HashIndex)
    (ops : List (FileOp FileName)) : Prop where
  usable : y.Usable
  content : y.content = x.content
  index : y = x ∨ y.isClean
  index_early : fault = .early → y = x
  rest : ∀ f : FileName, ¬ f.Working → f ≠ .hashIndex → Untouched f ops
  kept : ∀ d : RepoDir, x.isClean ∨ fault = .early →
    (runOps d ops).lookup .hashIndex = d.lookup .hashIndex
  replaced : ∀ d : RepoDir, ¬ (x.isClean ∨ fault = .early) →
    (runOps d ops).lookup .hashIndex = some (encodeEntries (sortEntries x.collect))

/-- **A flush that may fail.** -/
lemma HashIndex.Usable.flushWith (h : x.Usable) (fault : FlushFault) :
    x.Flushes fault (x.flushWith fault).2.1 (x.flushWith fault).2.2 := by
  have hreplace : ∀ f : FileName, ¬ f.Working → f ≠ .hashIndex →
      Untouched f (replaceOps .hashIndexTmp .hashIndex (encodeEntries (sortEntries x.collect))) :=
    fun f hf hne => untouched_replaceOps (not_working_ne hf .hashIndexTmp trivial) hne.symm _
  unfold HashIndex.flushWith
  by_cases hclean : x.isClean
  · simp only [if_pos hclean]
    exact ⟨h, rfl, .inl rfl, fun _ => rfl, fun _ _ _ => untouched_nil, fun _ _ => rfl,
      fun _ hno => absurd (.inl hclean) hno⟩
  simp only [if_neg hclean]
  have hdirty : ∀ fault : FlushFault, fault ≠ .early → ¬ (x.isClean ∨ fault = .early) :=
    fun _ hne => not_or.2 ⟨hclean, hne⟩
  obtain ⟨hfile, hmap⟩ := h.flushed
  cases fault with
  | ok =>
    obtain ⟨t, hflush, husable, hcontent⟩ := h.flush hclean
    simp only [hflush]
    refine ⟨husable, hcontent, .inr rfl, by simp, fun f hf hne => ?_,
      fun d hc => absurd hc (hdirty _ (by simp)), fun d _ => ?_⟩
    · exact HashIndex.flushOps_untouched hf hne.symm x
    · rw [HashIndex.flushOps, if_neg hclean, runOps_append, lookup_runOps
        (HashIndex.flushOps_rest_untouched HashIndex.not_working_hashIndex x _),
        lookup_runOps_replaceOps]
  | early =>
    have huntouched : ∀ f : FileName, ¬ f.Working →
        Untouched f [FileOp.create .hashIndexTmp, FileOp.remove .hashIndexTmp] := by
      intro f hf
      simp [not_working_ne hf .hashIndexTmp trivial]
    exact ⟨h, rfl, .inl rfl, fun _ => rfl, fun f hf _ => huntouched f hf,
      fun d _ => lookup_runOps (huntouched _ HashIndex.not_working_hashIndex) d,
      fun d hno => absurd (.inr rfl) hno⟩
  | reopen =>
    exact ⟨h, rfl, .inl rfl, fun _ => rfl, hreplace, fun d hc => absurd hc (hdirty _ (by simp)),
      fun d _ => lookup_runOps_replaceOps d _ _ _⟩
  | rebuild =>
    obtain ⟨husable, hcontent⟩ := HashIndex.usable_of_file hfile x.noHtab
    have hremove : ∀ f : FileName, ¬ f.Working → Untouched f [FileOp.remove .htab] := by
      intro f hf
      simp [not_working_ne hf .htab trivial]
    refine ⟨husable, hcontent.trans hmap, .inr rfl, by simp,
      fun f hf hne => (hreplace f hf hne).append (hremove f hf),
      fun d hc => absurd hc (hdirty _ (by simp)), fun d _ => ?_⟩
    rw [runOps_append, lookup_runOps (hremove _ HashIndex.not_working_hashIndex),
      lookup_runOps_replaceOps]

/-- A flush that is not reached. -/
lemma HashIndex.Usable.flushes_early (h : x.Usable) : x.Flushes .early x [] :=
  ⟨h, rfl, .inl rfl, fun _ => rfl, fun _ _ _ => untouched_nil, fun _ _ => rfl,
    fun _ hno => absurd (.inr rfl) hno⟩

lemma HashIndex.Usable.flushWith_fst (h : x.Usable) (fault : FlushFault) :
    (x.flushWith fault).1 = x.flushes fault := by
  unfold HashIndex.flushWith HashIndex.flushes
  by_cases hclean : x.isClean
  · simp [hclean]
  · simp only [if_neg hclean]
    cases fault with
    | ok =>
      obtain ⟨t, hflush, -⟩ := h.flush hclean
      simp [hflush]
    | early | reopen | rebuild => simp [hclean]

/-- **A close of the hash index** writes what its flush writes. -/
lemma HashIndex.lookup_closeWith (x : HashIndex) (fault : FlushFault) (d : RepoDir)
    (hf : ¬ f.Working) : (x.closeWith fault d).2.lookup f =
      (runOps d (x.flushWith fault).2.2).lookup f := by
  unfold HashIndex.closeWith
  rcases x.flushWith fault with ⟨ok, y, ops⟩
  cases ok
  · exact lookup_runOps (HashIndex.closeDiscardOps_untouched hf y) _
  · exact lookup_runOps (HashIndex.closeOps_untouched hf y) _

end HashIndexCalls

section Calls

variable {x : DedupIndex} {d : RepoDir}

/-- The save of the filter touches the filter only. -/
lemma BloomFilter.lookup_saveWith (bf : BloomFilter) (fault : SaveFault) (d : RepoDir)
    (hf : f ≠ .bloom) : (bf.saveWith fault d).lookup f = d.lookup f := by
  cases fault with
  | ok => exact lookup_runOps (saveOps_untouched hf bf) d
  | create => rfl
  | write n => exact lookup_crashAt (saveOps_untouched hf bf) d 1 n

/-- The files after `bloom` has been encrypted, and perhaps the index file. -/
structure Sealed (k : Cipher) (bloom : Bytes) (d d' : RepoDir) : Prop where
  bloomEnc : ∃ nonce, d'.lookup .bloomEnc = some (k.encryptWithAAD nonce bloom)
  hashIndexEnc : d'.lookup .hashIndexEnc = d.lookup .hashIndexEnc ∨
    ∃ nonce file, d.lookup .hashIndex = some file ∧
      d'.lookup .hashIndexEnc = some (k.encryptWithAAD nonce file)
  rest : ∀ g, g.Persistent → g ≠ .bloom → g ≠ .bloomEnc → g ≠ .hashIndexEnc →
    d'.lookup g = d.lookup g

lemma Sealed.runOps {k : Cipher} {bloom : Bytes} {d' : RepoDir} (h : Sealed k bloom d d')
    {ops : List (FileOp FileName)} (hops : ∀ g : FileName, g.Persistent → Untouched g ops) :
    Sealed k bloom d (runOps d' ops) := by
  have hsame : ∀ g : FileName, g.Persistent → (Files.runOps d' ops).lookup g = d'.lookup g :=
    fun g hg => lookup_runOps (hops g hg) d'
  refine ⟨?_, ?_, fun g hg h1 h2 h3 => (hsame g hg).trans (h.rest g hg h1 h2 h3)⟩
  · rw [hsame .bloomEnc trivial]
    exact h.bloomEnc
  · rw [hsame .hashIndexEnc trivial]
    exact h.hashIndexEnc

/-- The encryption of a file that is there. -/
lemma encryptFileWith_eq (k : Cipher) (nonce : Bytes) {src dst : FileName} (fails : Bool)
    {data : Bytes} (h : d.lookup src = some data) :
    (fails = true ∧ encryptFileWith k nonce src dst fails d = (false, d)) ∨
      (fails = false ∧ ∃ d', encryptFileWith k nonce src dst fails d = (true, d') ∧
        d'.lookup dst = some (k.encryptWithAAD nonce data) ∧
        ∀ g, g.Persistent → g ≠ dst → d'.lookup g = d.lookup g) := by
  unfold encryptFileWith
  rw [h]
  cases fails
  · refine .inr ⟨rfl, _, rfl, lookup_runOps_replaceOps _ _ _ _, fun g hg hne => ?_⟩
    exact lookup_runOps
      (encryptFileOps_untouched (persistent_ne_atomicTmp hg) hne.symm _ _ _) d
  · exact .inl ⟨rfl, rfl⟩

/-- **The encryption of the two files**, behind a saved filter. -/
lemma encryptCopiesWith_eq (k : Cipher) (f : FlushFaults) (nonces : ℕ → Bytes) {bloom : Bytes}
    (h : d.lookup .bloom = some bloom) :
    (f.encryptBloom = true ∧ encryptCopiesWith (some k) f nonces d = (false, d)) ∨
      (f.encryptBloom = false ∧ ∃ ok d', encryptCopiesWith (some k) f nonces d = (ok, d') ∧
        Sealed k bloom d d') := by
  unfold encryptCopiesWith
  rcases @encryptFileWith_eq d k (nonces 0) .bloom .bloomEnc f.encryptBloom bloom h with
    ⟨hfails, heq⟩ | ⟨hfails, d1, heq, hbloom, hrest⟩
  · exact .inl ⟨hfails, by simp only [heq]⟩
  refine .inr ⟨hfails, ?_⟩
  simp only [heq]
  have herase : ∀ g : FileName, g ≠ .bloom → (d1.erase .bloom).lookup g = d1.lookup g :=
    fun g hg => AList.lookup_erase_ne hg
  have hfile : (d1.erase .bloom).lookup .hashIndex = d.lookup .hashIndex := by
    rw [herase _ (by simp), hrest .hashIndex trivial (by simp)]
  have hkept : Sealed k bloom d (d1.erase .bloom) := by
    refine ⟨⟨nonces 0, ?_⟩, .inl ?_, fun g hg h1 h2 _ => ?_⟩
    · rw [herase _ (by simp), hbloom]
    · rw [herase _ (by simp), hrest .hashIndexEnc trivial (by simp)]
    · rw [herase g h1, hrest g hg h2]
  cases hplain : d.lookup .hashIndex with
  | none =>
    rw [hplain] at hfile
    exact ⟨false, d1.erase .bloom, by simp only [encryptFileWith, hfile], hkept⟩
  | some file =>
    rw [hplain] at hfile
    rcases @encryptFileWith_eq _ k (nonces 1) .hashIndex .hashIndexEnc f.encryptIndex file
      hfile with
      ⟨-, heq'⟩ | ⟨-, d2, heq', hindex, hrest'⟩
    · exact ⟨false, _, heq', hkept⟩
    · refine ⟨true, d2, heq', ?_, .inr ⟨nonces 1, file, hplain, hindex⟩, fun g hg h1 h2 h3 => ?_⟩
      · rw [hrest' .bloomEnc trivial (by simp)]
        exact hkept.bloomEnc
      · rw [hrest' g hg h3, hkept.rest g hg h1 h2 h3]

/-- How far the flush of the hash index comes: without a saved filter it is not reached. -/
def FlushFaults.reached (f : FlushFaults) : FlushFault := if f.save = .ok then f.flush else .early

lemma FlushFaults.reached_ne_early {f : FlushFaults} :
    f.reached ≠ .early ↔ f.save = .ok ∧ f.flush ≠ .early := by
  unfold reached
  split <;> simp [*]

/-- **A `Flush` that may fail**: the filter is saved, the hash index flushed as far as that is
reached, and then both may have been encrypted. -/
lemma DedupIndex.flushWith_eq (hx : x.index.Usable) (f : FlushFaults) (nonces : ℕ → Bytes)
    (d : RepoDir) :
    ∃ ok y d' ops, x.flushWith f nonces d = (ok, y, d') ∧ y.bloom = x.bloom ∧ y.key = x.key ∧
      x.index.Flushes f.reached y.index ops ∧
      ((¬ f.encrypts x ∧ (x.key.isSome → ok = false) ∧ ∀ g, g.Persistent → d'.lookup g =
          (runOps (x.bloom.saveWith f.save d) ops).lookup g) ∨
        (f.encrypts x ∧ ∃ k, x.key = some k ∧ Sealed k x.bloom.bytes
          (runOps (x.bloom.saveWith f.save d) ops) d')) := by
  have hok := hx.flushWith_fst f.flush
  unfold DedupIndex.flushWith
  simp only
  split
  · rename_i hsave
    refine ⟨_, _, _, [], rfl, rfl, rfl, ?_, .inl ⟨fun h => hsave h.2.1, fun _ => rfl,
      fun _ _ => rfl⟩⟩
    rw [FlushFaults.reached, if_neg hsave]
    exact hx.flushes_early
  rename_i hsave
  have hsave : f.save = .ok := not_not.1 hsave
  have hfl : x.index.Flushes f.reached (x.index.flushWith f.flush).2.1
      (x.index.flushWith f.flush).2.2 := by
    rw [FlushFaults.reached, if_pos hsave]
    exact hx.flushWith f.flush
  set d1 := runOps (x.bloom.saveWith f.save d) (x.index.flushWith f.flush).2.2 with hd1
  have hbloom : d1.lookup .bloom = some x.bloom.bytes := by
    rw [hd1, lookup_runOps (hfl.rest .bloom not_working_bloom (by simp)), hsave]
    exact lookup_saveOps _ _
  have hdelta : ∀ g : FileName, g.Persistent →
      Untouched g (DedupIndex.writeDeltaObjectOps x.key (nonces 2) x.delta) :=
    fun g hg => writeDeltaObjectOps_untouched hg _ _ _
  split
  · -- the hash index was not flushed
    rename_i hno
    refine ⟨_, _, _, _, rfl, rfl, rfl, hfl, .inl ⟨fun h => ?_, fun _ => rfl, fun _ _ => rfl⟩⟩
    rw [hok, h.2.2.1] at hno
    cases hno
  rename_i hyes
  have hyes : x.index.flushes f.flush = true := by
    rw [← hok]
    simpa using hyes
  cases hkey : x.key with
  | none =>
    have hnot : ¬ f.encrypts x := fun h => by simp [FlushFaults.encrypts, hkey] at h
    simp only [encryptCopiesWith]
    split
    · exact ⟨_, _, _, _, rfl, rfl, rfl, hfl, .inl ⟨hnot, by simp, fun _ _ => rfl⟩⟩
    · rw [hkey] at hdelta
      exact ⟨_, _, _, _, rfl, rfl, rfl, hfl, .inl ⟨hnot, by simp, fun g hg =>
        lookup_runOps (hdelta g hg) d1⟩⟩
  | some k =>
    rcases encryptCopiesWith_eq k f nonces hbloom with
      ⟨hfails, heq⟩ | ⟨hfails, ok, d2, heq, hsealed⟩
    · simp only [heq]
      refine ⟨_, _, _, _, rfl, rfl, rfl, hfl, .inl ⟨fun h => ?_, fun _ => rfl, fun _ _ => rfl⟩⟩
      rw [h.2.2.2] at hfails
      cases hfails
    · have hencrypts : f.encrypts x := ⟨by rw [hkey]; rfl, hsave, hyes, hfails⟩
      rw [hkey] at hdelta
      simp only [heq]
      cases ok with
      | false => exact ⟨_, _, _, _, rfl, rfl, rfl, hfl, .inr ⟨hencrypts, k, rfl, hsealed⟩⟩
      | true =>
        simp only
        split
        · exact ⟨_, _, _, _, rfl, rfl, rfl, hfl, .inr ⟨hencrypts, k, rfl, hsealed⟩⟩
        · exact ⟨_, _, _, _, rfl, rfl, rfl, hfl, .inr ⟨hencrypts, k, rfl,
            hsealed.runOps hdelta⟩⟩

/-- The files that an open reads after a `Close` are those of its `Flush` and of the flush of the
hash index, but for the index file of an encrypted index. -/
lemma DedupIndex.closeWith_eq {f : CloseFaults} {nonces : ℕ → Bytes} {ok : Bool} {y : DedupIndex}
    {d d1 : RepoDir} (hflush : x.flushWith f.toFlushFaults nonces d = (ok, y, d1)) :
    ∃ d2, (∀ g : FileName, g.Persistent → d2.lookup g = d1.lookup g) ∧
      ∀ g : FileName, g.Persistent → g ≠ .hashIndex ∨ (x.key.isSome → ok = false) →
        (x.closeWith f nonces d).2.lookup g =
          (runOps d2 (y.index.flushWith f.closeFlush).2.2).lookup g := by
  have hclose : ∀ (d' : RepoDir) (g : FileName), g.Persistent →
      (y.index.closeWith f.closeFlush d').2.lookup g =
        (runOps d' (y.index.flushWith f.closeFlush).2.2).lookup g :=
    fun d' g hg => HashIndex.lookup_closeWith _ _ _ hg.not_working
  unfold DedupIndex.closeWith
  rw [hflush]
  cases ok with
  | false =>
    refine ⟨runOps d1 x.discardDeltaOps, fun g hg => ?_, fun g hg _ => hclose _ g hg⟩
    exact lookup_runOps (DedupIndex.discardDeltaOps_untouched hg) d1
  | true =>
    simp only
    split
    · exact ⟨d1, fun _ _ => rfl, fun g hg _ => hclose _ g hg⟩
    · refine ⟨runOps d1 (y.closeDeltaOps (nonces 3)), fun g hg => ?_, fun g hg hg' => ?_⟩
      · exact lookup_runOps (DedupIndex.closeDeltaOps_untouched hg _) d1
      · rw [← hclose _ g hg]
        split_ifs with hkey
        · refine AList.lookup_erase_ne (hg'.resolve_right fun h => ?_)
          cases h hkey
        · rfl

/-- **What a `Close` leaves** of the files that an open reads, without an encrypted filter. -/
lemma DedupIndex.lookup_closeWith (hx : x.index.Usable) {f : CloseFaults}
    (hplain : ¬ f.encrypts x) (nonces : ℕ → Bytes) (d : RepoDir) :
    (x.closeWith f nonces d).2.lookup .bloom = (x.bloom.saveWith f.save d).lookup .bloom ∧
      (f.rewrites x → (x.closeWith f nonces d).2.lookup .hashIndex =
        some (encodeEntries (HashIndex.sortEntries x.index.collect))) ∧
      (¬ f.rewrites x → (x.closeWith f nonces d).2.lookup .hashIndex = d.lookup .hashIndex) ∧
      ∀ g, g.Persistent → g ≠ .bloom → g ≠ .hashIndex →
        (x.closeWith f nonces d).2.lookup g = d.lookup g := by
  obtain ⟨ok, y, d1, ops, hflush, -, -, hfl1, ⟨-, hok, hd1⟩ | ⟨h, -⟩⟩ :=
    DedupIndex.flushWith_eq hx f.toFlushFaults nonces d
  swap
  · exact absurd h hplain
  obtain ⟨d2, hd2, hclose⟩ := DedupIndex.closeWith_eq hflush
  have hsave : ∀ g : FileName, g ≠ .bloom → (x.bloom.saveWith f.save d).lookup g = d.lookup g :=
    fun g hg => BloomFilter.lookup_saveWith _ _ _ hg
  have hfl2 := hfl1.usable.flushWith f.closeFlush
  have hrest : ∀ g : FileName, g.Persistent → g ≠ .hashIndex →
      (x.closeWith f nonces d).2.lookup g = (x.bloom.saveWith f.save d).lookup g := by
    intro g hg hne
    rw [hclose g hg (.inl hne), lookup_runOps (hfl2.rest g hg.not_working hne),
      hd2 g hg, hd1 g hg, lookup_runOps (hfl1.rest g hg.not_working hne)]
  have hlookup := hclose .hashIndex trivial (.inr hok)
  have hfirst := (hd2 .hashIndex trivial).trans (hd1 .hashIndex trivial)
  have hre : f.rewrites x ↔
      ¬ x.index.isClean ∧ (f.reached ≠ .early ∨ f.closeFlush ≠ .early) := by
    rw [CloseFaults.rewrites, FlushFaults.reached_ne_early]
  rw [hre, hlookup]
  refine ⟨hrest .bloom trivial (by simp), ?_, fun hno => ?_,
    fun g hg h1 h2 => by rw [hrest g hg h2, hsave g h1]⟩
  · rintro ⟨hdirty, hflushes⟩
    by_cases hagain : y.index.isClean ∨ f.closeFlush = .early
    · have hfull : f.reached ≠ .early := by
        rintro hearly
        rw [hfl1.index_early hearly] at hagain
        exact hagain.elim hdirty (hflushes.resolve_left (not_not.2 hearly))
      rw [hfl2.kept d2 hagain, hfirst, hfl1.replaced _ (not_or.2 ⟨hdirty, hfull⟩)]
    · -- the flush of the close writes the file, for the second time perhaps
      rw [hfl2.replaced d2 hagain, hfl1.index.resolve_right fun h => hagain (.inl h)]
  · have hno : x.index.isClean ∨ (f.reached = .early ∧ f.closeFlush = .early) := by
      by_contra! h
      exact hno ⟨h.1, not_and_or.1 fun hboth => h.2 hboth.1 hboth.2⟩
    have hkept2 : y.index.isClean ∨ f.closeFlush = .early := by
      rcases hno with hclean | ⟨-, hearly⟩
      · refine .inl (hfl1.index.elim (fun hy => ?_) id)
        rwa [hy]
      · exact .inr hearly
    rw [hfl2.kept d2 hkept2, hfirst, hfl1.kept _ (hno.imp id And.left), hsave _ (by simp)]

/-- A `Close` that gets to encrypt the filter. -/
lemma DedupIndex.sealed_closeWith (hx : x.index.Usable) {f : CloseFaults} (h : f.encrypts x)
    (nonces : ℕ → Bytes) (d : RepoDir) : ∃ k nonce, x.key = some k ∧
      (x.closeWith f nonces d).2.lookup .bloomEnc =
        some (k.encryptWithAAD nonce x.bloom.bytes) := by
  obtain ⟨ok, y, d1, ops, hflush, -, -, hfl1, ⟨hno, -⟩ | ⟨-, k, hkey, hsealed⟩⟩ :=
    DedupIndex.flushWith_eq hx f.toFlushFaults nonces d
  · exact absurd h hno
  obtain ⟨d2, hd2, hclose⟩ := DedupIndex.closeWith_eq hflush
  have hfl2 := hfl1.usable.flushWith f.closeFlush
  obtain ⟨nonce, hbloom⟩ := hsealed.bloomEnc
  refine ⟨k, nonce, hkey, ?_⟩
  rw [hclose .bloomEnc trivial (.inl (by simp)), lookup_runOps
    (hfl2.rest .bloomEnc (fun h => h) (by simp)), hd2 .bloomEnc trivial, hbloom]

end Calls

/-! ## Sessions with failing flushes -/

/-- What is known of an index directory: the files and the deltas hold distinct nonzero hashes, with
the weak hashes that `weak` gives. -/
structure Sound (key : Option Cipher) (weak : Hash → UInt64) (d : RepoDir) : Prop where
  file : ∀ file, d.lookup .hashIndex = some file → IndexFile file
  fileEnc : ∀ k data file, key = some k → d.lookup .hashIndexEnc = some data →
    k.decryptWithAAD data = some file → IndexFile file
  deltas : ∀ es, pendingDeltas key d = .ok es →
    ∀ e ∈ es, e.strongHash ≠ .zero ∧ e.weakHash = weak e.strongHash

/-- An index in use, its directory, and the hashes that the session has inserted. -/
inductive InUse (key : Option Cipher) (weak : Hash → UInt64) :
    DedupIndex → RepoDir → List Hash → Prop
  | opened {nbits readOnly d d' x} (hd : Sound key weak d)
      (h : newDedupIndex key nbits readOnly d = (.ok x, d')) : InUse key weak x d' []
  | insert {x d hs} (hx : InUse key weak x d hs) (h : Hash)
      (packNumber : UInt32) (storeOffset : UInt64) (chunkLength : UInt32) (hne : h ≠ .zero) :
      InUse key weak (x.insert ⟨weak h, h⟩ packNumber storeOffset chunkLength).1
        (runOps d (x.insert ⟨weak h, h⟩ packNumber storeOffset chunkLength).2) (h :: hs)
  | captureDelta {x x' d hs path ops} (hx : InUse key weak x d hs)
      (h : x.captureDelta path = .ok (x', ops)) : InUse key weak x' (runOps d ops) hs
  | flushHashIndex {x x' d hs} (hx : InUse key weak x d hs) (h : x.flushHashIndex = .ok x') :
      InUse key weak x' (runOps d x.index.flushDeltaOps) hs
  /-- `ReadAllEntries` flushes the hash index alone. -/
  | readAllEntries {x d hs} (hx : InUse key weak x d hs) (fault : FlushFault) :
      InUse key weak { x with index := (x.index.flushWith fault).2.1 }
        (runOps d (x.index.flushWith fault).2.2) hs
  | flush {x d hs} (hx : InUse key weak x d hs) (f : FlushFaults) (nonces : ℕ → Bytes) :
      InUse key weak (x.flushWith f nonces d).2.1 (x.flushWith f nonces d).2.2 hs

/-- The invariant of a session: its inserts are in its filter and its index. -/
structure Live (key : Option Cipher) (weak : Hash → UInt64) (x : DedupIndex) (d : RepoDir)
    (hs : List Hash) : Prop where
  keyed : x.key = key
  usable : x.index.Usable
  sound : Sound key weak d
  unencrypted : key = none → d.lookup .bloomEnc = none ∧ d.lookup .hashIndexEnc = none
  bloom : ∀ h ∈ hs, x.bloom.mayContain (weak h)
  content : ∀ h ∈ hs, (x.index.content h).isSome

section Invariant

variable {key : Option Cipher} {weak : Hash → UInt64} {x x' : DedupIndex} {d d' : RepoDir}
  {hs : List Hash}

/-- What an open of such a directory sees is well formed. -/
lemma Sound.wellFormed (h : Sound key weak d) (hopened : opened key d = some (file, es)) :
    WellFormed file es := by
  obtain ⟨hfile, hes⟩ := opened_eq_some.1 hopened
  refine ⟨?_, fun e he => (h.deltas es hes e he).1⟩
  have hplain : IndexFile ((d.lookup .hashIndex).getD []) := by
    cases hlookup : d.lookup .hashIndex with
    | none => exact ⟨fun e he => (by cases he), List.nodup_nil⟩
    | some data => exact h.file data hlookup
  cases hkey : key with
  | none =>
    subst hkey
    obtain ⟨-, -, -, rfl⟩ := openedFile_plain.1 hfile
    exact hplain
  | some k =>
    subst hkey
    obtain ⟨bloom, copy, -, hcopy, -, rfl⟩ := openedFile_keyed.1 hfile
    unfold workingCopy at hcopy
    split at hcopy
    · cases hcopy
      exact hplain
    · rename_i data hdata
      obtain ⟨plain, hdec, rfl⟩ := Option.map_eq_some_iff.1 hcopy
      exact h.fileEnc k data plain rfl hdata hdec

/-- Files that change: the encrypted index file may become another that decrypts to a well-formed
one. -/
lemma Sound.update (h : Sound key weak d)
    (hdelta : ∀ stem enc, d'.lookup (.delta stem enc) = d.lookup (.delta stem enc))
    (hfile : ∀ file, d'.lookup .hashIndex = some file → IndexFile file)
    (henc : d'.lookup .hashIndexEnc = d.lookup .hashIndexEnc ∨ ∃ k data file, key = some k ∧
      IndexFile file ∧ d'.lookup .hashIndexEnc = some data ∧ k.decryptWithAAD data = some file) :
    Sound key weak d' := by
  refine ⟨hfile, fun k data file hkey hdata hdec => ?_, fun es hes => ?_⟩
  · rcases henc with henc | ⟨k', data', file', hkey', hfile', henc, hdec'⟩
    · exact h.fileEnc k data file hkey (by rwa [← henc]) hdec
    · obtain rfl : k' = k := by simpa [hkey'] using hkey
      rw [henc] at hdata
      cases hdata
      rw [hdec'] at hdec
      cases hdec
      exact hfile'
  · rw [pendingDeltas_congr hdelta] at hes
    exact h.deltas es hes

/-- Files that stay. -/
lemma Sound.same (h : Sound key weak d)
    (hsame : ∀ f : FileName, f.Persistent → d'.lookup f = d.lookup f) : Sound key weak d' := by
  refine h.update (fun stem enc => hsame (.delta stem enc) trivial) ?_
    (.inl (hsame .hashIndexEnc trivial))
  rw [hsame .hashIndex trivial]
  exact h.file

/-- A flush that may fail leaves a well-formed index file. -/
lemma HashIndex.Flushes.indexFile {x y : HashIndex} {fault : FlushFault}
    {ops : List (FileOp FileName)} (h : x.Flushes fault y ops) (hx : x.Usable)
    (hd : ∀ file, d.lookup .hashIndex = some file → IndexFile file) :
    ∀ file, (runOps d ops).lookup .hashIndex = some file → IndexFile file := by
  intro file hfile
  by_cases hkept : x.isClean ∨ fault = .early
  · exact hd file (by rwa [← h.kept d hkept])
  · rw [h.replaced d hkept] at hfile
    cases hfile
    exact hx.flushed.1

/-- A change of the hash index and of its files. -/
lemma Live.change (hlive : Live key weak x d hs) (hkey : x'.key = x.key)
    (husable : x'.index.Usable) (hbloom : x'.bloom = x.bloom)
    (hcontent : x'.index.content = x.index.content) (hsound : Sound key weak d')
    (henc : key = none → d'.lookup .bloomEnc = d.lookup .bloomEnc ∧
      d'.lookup .hashIndexEnc = d.lookup .hashIndexEnc) : Live key weak x' d' hs := by
  refine ⟨hkey.trans hlive.keyed, husable, hsound, fun hnone => ?_, fun k hk => ?_, fun k hk => ?_⟩
  · obtain ⟨h1, h2⟩ := henc hnone
    rw [h1, h2]
    exact hlive.unencrypted hnone
  · rw [hbloom]
    exact hlive.bloom k hk
  · rw [hcontent]
    exact hlive.content k hk

/-- A change that leaves the files an open reads. -/
lemma Live.same (hlive : Live key weak x d hs) (hkey : x'.key = x.key)
    (husable : x'.index.Usable) (hbloom : x'.bloom = x.bloom)
    (hcontent : x'.index.content = x.index.content)
    (hsame : ∀ f : FileName, f.Persistent → d'.lookup f = d.lookup f) : Live key weak x' d' hs :=
  hlive.change hkey husable hbloom hcontent (hlive.sound.same hsame)
    fun _ => ⟨hsame .bloomEnc trivial, hsame .hashIndexEnc trivial⟩

lemma HashIndex.Usable.insert {x : HashIndex} (h : x.Usable) {id : ChunkID}
    (hid : id.strongHash ≠ .zero) (p : UInt32) (o : UInt64) (l : UInt32) :
    (x.insert id p o l).Usable :=
  HashIndex.Good.insert h hid p o l

lemma HashIndex.Usable.flushDelta {x y : HashIndex} (h : x.Usable) (hy : x.flushDelta = .ok y) :
    y.Usable ∧ y.content = x.content := by
  unfold HashIndex.flushDelta at hy
  split_ifs at hy with hne
  · cases hy
    exact ⟨h, rfl⟩
  · split at hy
    · cases hy
    · rename_i t ht
      split at hy
      · cases hy
      · rename_i t' ht'
        cases hy
        have hflush : ({ x with noHtab := x.htab.isNone } : HashIndex).flushDelta =
            .ok { x with noHtab := x.htab.isNone, htab := some t', entries := ∅ } := by
          simp only [HashIndex.flushDelta, if_neg hne, ht, ht']
        obtain ⟨hgood, -, hcontent⟩ := HashIndex.flushDelta_inv h hflush
        refine ⟨?_, hcontent⟩
        unfold HashIndex.Usable
        simpa only [ht, Option.isNone_some] using hgood

/-- Every session is in the invariant. -/
lemma InUse.live (hlaw : ∀ k, key = some k → ∀ nonce data,
      k.decryptWithAAD (k.encryptWithAAD nonce data) = some data) (h : InUse key weak x d hs) :
    Live key weak x d hs := by
  induction h with
  | @opened nbits readOnly d d' x hd h =>
    obtain ⟨file, es, hopened, hdir, hx⟩ := newDedupIndex_sees h fun _ _ => hd.wellFormed
    refine ⟨hx.key, hx.good.usable, hd.update (fun _ _ => hdir.rest _ trivial (by simp) (by simp))
      (fun file' hfile' => ?_) (.inl (hdir.rest .hashIndexEnc trivial (by simp) (by simp))),
      fun hnone => ?_, by simp, by simp⟩
    · rw [hdir.hashIndex] at hfile'
      cases hfile'
      exact (hd.wellFormed hopened).file
    · subst hnone
      rw [hdir.rest .bloomEnc trivial (by simp) (by simp),
        hdir.rest .hashIndexEnc trivial (by simp) (by simp)]
      obtain ⟨h1, h2, -⟩ := newDedupIndex_keyless_inv h
      exact ⟨h2, h1⟩
  | @insert x d hs _ k p o l hne ih =>
    have hsame : ∀ f : FileName, f.Persistent →
        (runOps d (x.insert ⟨weak k, k⟩ p o l).2).lookup f = d.lookup f :=
      fun f hf => lookup_runOps (captureInsert_untouched hf _ _) d
    have hindex := x.insert_index ⟨weak k, k⟩ p o l
    refine ⟨hindex.2.trans ih.keyed, ?_, ih.sound.same hsame, fun hnone => ?_, ?_, ?_⟩
    · rw [hindex.1]
      exact ih.usable.insert hne p o l
    · rw [hsame .bloomEnc trivial, hsame .hashIndexEnc trivial]
      exact ih.unencrypted hnone
    · rw [DedupIndex.insert_bloom, List.forall_mem_cons]
      exact ⟨BloomFilter.mayContain_add _ _,
        fun k' hk' => BloomFilter.mayContain_add_of (ih.bloom k' hk') _⟩
    · rw [hindex.1, List.forall_mem_cons]
      simp only [DedupIndex.isSome_content_insert]
      exact ⟨.inr trivial, fun k' hk' => .inl (ih.content k' hk')⟩
  | @captureDelta x x' d hs path ops _ h ih =>
    obtain ⟨hindex, hkey, huntouched⟩ := captureDelta_inv h
    exact ih.same hkey (by rw [hindex]; exact ih.usable) (DedupIndex.captureDelta_bloom h)
      (by rw [hindex]) fun f hf => lookup_runOps (huntouched f hf) d
  | @flushHashIndex x x' d hs _ h ih =>
    obtain ⟨index, hflush, rfl⟩ := DedupIndex.flushHashIndex_inv h
    obtain ⟨husable, hcontent⟩ := ih.usable.flushDelta hflush
    exact ih.same rfl husable rfl hcontent fun f hf => lookup_runOps
      (HashIndex.flushDeltaOps_untouched hf.not_working _) d
  | @readAllEntries x d hs _ fault ih =>
    have hfl := ih.usable.flushWith fault
    have hsame : ∀ f : FileName, f.Persistent → f ≠ .hashIndex →
        (runOps d (x.index.flushWith fault).2.2).lookup f = d.lookup f :=
      fun f hf hne => lookup_runOps (hfl.rest f hf.not_working hne) d
    exact ih.change rfl hfl.usable rfl hfl.content (ih.sound.update
      (fun stem enc => hsame (.delta stem enc) trivial (by simp))
      (hfl.indexFile ih.usable ih.sound.file) (.inl (hsame .hashIndexEnc trivial (by simp))))
      fun _ => ⟨hsame .bloomEnc trivial (by simp), hsame .hashIndexEnc trivial (by simp)⟩
  | @flush x d hs _ f nonces ih =>
    obtain ⟨ok, y, d', ops, hflush, hbloom, hkey, hfl, hcases⟩ :=
      DedupIndex.flushWith_eq ih.usable f nonces d
    rw [hflush]
    have hsave : ∀ g : FileName, g ≠ .bloom → (x.bloom.saveWith f.save d).lookup g = d.lookup g :=
      fun g hg => BloomFilter.lookup_saveWith _ _ _ hg
    set d1 := runOps (x.bloom.saveWith f.save d) ops with hd1
    have hrest : ∀ g : FileName, g.Persistent → g ≠ .bloom → g ≠ .hashIndex →
        d1.lookup g = d.lookup g := by
      intro g hg h1 h2
      rw [hd1, lookup_runOps (hfl.rest g hg.not_working h2), hsave g h1]
    have hfile : ∀ file, d1.lookup .hashIndex = some file → IndexFile file := by
      refine hfl.indexFile ih.usable ?_
      rw [hsave _ (by simp)]
      exact ih.sound.file
    rcases hcases with ⟨-, -, hd'⟩ | ⟨-, k, hk, hsealed⟩
    · have hsame : ∀ g : FileName, g.Persistent → g ≠ .bloom → g ≠ .hashIndex →
          d'.lookup g = d.lookup g := fun g hg h1 h2 => (hd' g hg).trans (hrest g hg h1 h2)
      refine ih.change hkey hfl.usable hbloom hfl.content
        (ih.sound.update (fun stem enc => hsame (.delta stem enc) trivial (by simp) (by simp)) ?_
          (.inl (hsame .hashIndexEnc trivial (by simp) (by simp))))
        fun _ => ⟨hsame .bloomEnc trivial (by simp) (by simp),
          hsame .hashIndexEnc trivial (by simp) (by simp)⟩
      rw [hd' .hashIndex trivial]
      exact hfile
    · have hkey' : key = some k := ih.keyed.symm.trans hk
      refine ih.change hkey hfl.usable hbloom hfl.content
        (ih.sound.update (fun stem enc => ?_) ?_ ?_) (by rw [hkey']; simp)
      · rw [hsealed.rest (.delta stem enc) trivial (by simp) (by simp) (by simp),
          hrest (.delta stem enc) trivial (by simp) (by simp)]
      · rw [hsealed.rest .hashIndex trivial (by simp) (by simp) (by simp)]
        exact hfile
      · rcases hsealed.hashIndexEnc with henc | ⟨nonce, file, hplain, henc⟩
        · exact .inl (henc.trans (hrest .hashIndexEnc trivial (by simp) (by simp)))
        · exact .inr ⟨k, _, file, hkey', hfile file hplain, henc, hlaw k hkey' nonce file⟩

end Invariant

/-! ## The next open -/

/-- **A stale filter**: the next open does not see the filter of the session, the one that it sees
loads, and with the pending deltas it lacks the weak hash of a chunk of the session that the index
file resolves. -/
def StaleFilter (weak : Hash → UInt64) (nbits : UInt64) (f : CloseFaults) (x : DedupIndex)
    (d : RepoDir) (hs : List Hash) : Prop :=
  ¬ f.savesBloom x d ∧ ∃ file es seen, opened x.key d = some (file, es) ∧
    openedBloom x.key d = some seen ∧
    ∃ h ∈ hs, (((d.lookup .hashIndexEnc).isNone ∧ f.rewrites x) ∨ (fileMap file h).isSome) ∧
      ¬ (filterWith nbits (some seen) es).mayContain (weak h)

section Reopen

variable {key : Option Cipher} {weak : Hash → UInt64} {x x' : DedupIndex} {d d' : RepoDir}
  {hs : List Hash} {f : CloseFaults} {nonces : ℕ → Bytes} {nbits : UInt64}

lemma mayContain_filterWith {seen : Option Bytes} {v : UInt64}
    (h : (filterOf nbits seen).mayContain v ∨ v ∈ es.map DeltaEntry.weakHash) :
    (filterWith nbits seen es).mayContain v := by
  obtain ⟨-, hkept, hnew⟩ := (filterOf nbits seen).foldl_add (es.map DeltaEntry.weakHash)
  exact h.elim (hkept v) (hnew v)

/-- The filter that an open sees where there is no encrypted one. -/
lemma openedBloom_plain (h : d.lookup .bloomEnc = none) : openedBloom key d = d.lookup .bloom := by
  cases key with
  | none => rfl
  | some k => simp [openedBloom, workingCopy, h]

/-- The filter file after a save that created it: the filter, or the beginning of it. -/
lemma BloomFilter.lookup_bloom_saveWith (bf : BloomFilter) {fault : SaveFault}
    (h : fault ≠ .create) (d : RepoDir) :
    ∃ n, (bf.saveWith fault d).lookup .bloom = some (bf.bytes.take n) := by
  cases fault with
  | ok => exact ⟨bf.bytes.length, by rw [List.take_length]; exact lookup_saveOps bf d⟩
  | create => exact absurd rfl h
  | write n =>
    exact ⟨n, by rw [BloomFilter.saveWith, crashAt_saveOps, lookup_appendTo_create]⟩

/-- **The filter of the session** is the one that the next open sees, or it does not load. -/
lemma Live.mayContain_of_saves (hlaw : ∀ k, key = some k → ∀ nonce data,
      k.decryptWithAAD (k.encryptWithAAD nonce data) = some data) (hx : Live key weak x d hs)
    (hsaves : f.savesBloom x d)
    (hopen : newDedupIndex key nbits false (x.closeWith f nonces d).2 = (.ok x', d')) :
    ∀ h ∈ hs, x'.bloom.mayContain (weak h) := by
  obtain ⟨-, es, -, -, hloads, -, -, hbloom, -⟩ := newDedupIndex_inv hopen
  have hseen : openedBloom key (x.closeWith f nonces d).2 = some x.bloom.bytes := by
    by_cases hencrypts : f.encrypts x
    · obtain ⟨k, nonce, hkey, henc⟩ := DedupIndex.sealed_closeWith hx.usable hencrypts nonces d
      have hkey : key = some k := hx.keyed.symm.trans hkey
      rw [hkey, openedBloom, workingCopy, henc]
      simp [hlaw k hkey]
    · obtain ⟨hnone, hcreate⟩ := hsaves.resolve_left hencrypts
      obtain ⟨hplain, -, -, hrest⟩ := DedupIndex.lookup_closeWith hx.usable hencrypts nonces d
      have henc : (x.closeWith f nonces d).2.lookup .bloomEnc = none := by
        rw [hrest .bloomEnc trivial (by simp) (by simp)]
        exact Option.isNone_iff_eq_none.1 hnone
      obtain ⟨n, hn⟩ := x.bloom.lookup_bloom_saveWith hcreate d
      have hseen := (@openedBloom_plain key _ henc).trans (hplain.trans hn)
      rw [hseen] at hloads ⊢
      by_cases hlen : n < x.bloom.bytes.length
      · -- a filter that is cut short is refused
        obtain ⟨e, he⟩ := loadBloomFilter_take x.bloom hlen
        simp [bloomLoads, he, Except.toOption] at hloads
      · rw [List.take_of_length_le (by omega)]
  intro h hh
  rw [hbloom, hseen]
  refine mayContain_filterWith (.inl ?_)
  rw [filterOf_bytes]
  exact hx.bloom h hh

/-- The filter that an open sees depends on its two files only. -/
lemma openedBloom_congr (hbloomEnc : d'.lookup .bloomEnc = d.lookup .bloomEnc)
    (hbloom : (key.isSome ∧ (d.lookup .bloomEnc).isSome) ∨ d'.lookup .bloom = d.lookup .bloom) :
    openedBloom key d' = openedBloom key d ∧
      ∀ k, key = some k → workingCopy k d' .bloomEnc .bloom = workingCopy k d .bloomEnc .bloom := by
  have hcopy : ∀ k, key = some k →
      workingCopy k d' .bloomEnc .bloom = workingCopy k d .bloomEnc .bloom := by
    rintro k rfl
    cases hsrc : d.lookup .bloomEnc with
    | none =>
      rw [hsrc] at hbloom
      simp [workingCopy, hbloomEnc, hsrc, hbloom.resolve_left (by simp)]
    | some data => exact workingCopy_congr hsrc hbloomEnc
  refine ⟨?_, hcopy⟩
  cases key with
  | none => exact hbloom.resolve_left (by simp)
  | some k => rw [openedBloom, openedBloom, hcopy k rfl]

/-- What an open sees after the plain index file has changed. -/
lemma openedFile_update (hbloomEnc : d'.lookup .bloomEnc = d.lookup .bloomEnc)
    (hindexEnc : d'.lookup .hashIndexEnc = d.lookup .hashIndexEnc)
    (hbloom : (key.isSome ∧ (d.lookup .bloomEnc).isSome) ∨ d'.lookup .bloom = d.lookup .bloom) :
    openedFile key d' = (openedFile key d).map fun file =>
      if (d.lookup .hashIndexEnc).isNone then (d'.lookup .hashIndex).getD [] else file := by
  cases key with
  | none =>
    unfold openedFile
    simp only
    rw [hbloomEnc, hindexEnc, hbloom.resolve_left (by simp)]
    split
    · rfl
    · rename_i hcond
      rw [not_or, Bool.not_eq_true, Option.isSome_eq_false_iff] at hcond
      simp [hcond.1]
  | some k =>
    have hcopy := (openedBloom_congr hbloomEnc hbloom).2 k rfl
    unfold openedFile
    simp only [hcopy]
    cases workingCopy k d .bloomEnc .bloom with
    | none => rfl
    | some bloom =>
      cases hsrc : d.lookup .hashIndexEnc with
      | none =>
        simp only [workingCopy, hindexEnc, hsrc]
        split <;> simp
      | some data =>
        have hsame : workingCopy k d' .hashIndexEnc .hashIndex =
            workingCopy k d .hashIndexEnc .hashIndex := workingCopy_congr hsrc hindexEnc
        simp only [hsame]
        cases workingCopy k d .hashIndexEnc .hashIndex with
        | none => rfl
        | some file =>
          split <;> simp

/-- **Where the filter of the session is not seen**, the next open sees the old one, beside an index
file that may be the new one. -/
lemma Live.opened_of_not_saves (hx : Live key weak x d hs) (hsaves : ¬ f.savesBloom x d)
    (nonces : ℕ → Bytes) {file : Bytes} {es : List DeltaEntry} :
    openedBloom key (x.closeWith f nonces d).2 = openedBloom key d ∧
      (opened key (x.closeWith f nonces d).2 = some (file, es) ↔
        ∃ old, opened key d = some (old, es) ∧
          file = if (d.lookup .hashIndexEnc).isNone ∧ f.rewrites x then
            encodeEntries (HashIndex.sortEntries x.index.collect) else old) := by
  obtain ⟨hplain, hrest⟩ := not_or.1 hsaves
  obtain ⟨hbloom, hnew, hold, hsame⟩ := DedupIndex.lookup_closeWith hx.usable hplain nonces d
  set d' := (x.closeWith f nonces d).2
  have hbloomEnc := hsame .bloomEnc trivial (by simp) (by simp)
  have hindexEnc := hsame .hashIndexEnc trivial (by simp) (by simp)
  have hfiles : (key.isSome ∧ (d.lookup .bloomEnc).isSome) ∨
    d'.lookup .bloom = d.lookup .bloom := by
    cases henc : d.lookup .bloomEnc with
    | none =>
      have hcreate : f.save = .create := by
        by_contra hne
        exact hrest ⟨by rw [henc]; rfl, hne⟩
      right
      rw [hbloom, hcreate]
      rfl
    | some data =>
      left
      refine ⟨?_, rfl⟩
      cases hkey : key with
      | none =>
        rw [(hx.unencrypted hkey).1] at henc
        cases henc
      | some k => rfl
  have hpending : pendingDeltas key d' = pendingDeltas key d :=
    pendingDeltas_congr (fun stem enc => hsame (.delta stem enc) trivial (by simp) (by simp)) key
  refine ⟨(openedBloom_congr hbloomEnc hfiles).1, ?_⟩
  -- the file that is seen now, and the one that was seen
  have hseen : ∀ old, openedFile key d = some old →
      (if (d.lookup .hashIndexEnc).isNone then (d'.lookup .hashIndex).getD [] else old) =
        if (d.lookup .hashIndexEnc).isNone ∧ f.rewrites x then
          encodeEntries (HashIndex.sortEntries x.index.collect) else old := by
    intro old hopened
    by_cases hnone : (d.lookup .hashIndexEnc).isNone
    · have hsource := @openedFile_update key d d rfl rfl (.inr rfl)
      rw [hopened, Option.map_some, if_pos hnone] at hsource
      rw [if_pos hnone]
      by_cases hre : f.rewrites x
      · rw [if_pos ⟨hnone, hre⟩, hnew hre, Option.getD_some]
      · rw [if_neg fun h => hre h.2, hold hre]
        exact (Option.some.inj hsource).symm
    · rw [if_neg hnone, if_neg fun h => hnone h.1]
  rw [opened_eq_some, openedFile_update hbloomEnc hindexEnc hfiles, hpending,
    Option.map_eq_some_iff]
  constructor
  · rintro ⟨⟨old, hopened, rfl⟩, hes⟩
    exact ⟨old, opened_eq_some.2 ⟨hopened, hes⟩, hseen old hopened⟩
  · rintro ⟨old, hopened, rfl⟩
    obtain ⟨hfile, hes⟩ := opened_eq_some.1 hopened
    exact ⟨⟨old, hfile, hseen old hfile⟩, hes⟩

/-- What the next open sees is well formed. -/
lemma Live.wellFormed_close (hx : Live key weak x d hs) (hsaves : ¬ f.savesBloom x d)
    (hopened : opened key (x.closeWith f nonces d).2 = some (file, es)) : WellFormed file es := by
  obtain ⟨old, hold, rfl⟩ := (hx.opened_of_not_saves hsaves nonces).2.1 hopened
  have hwf := hx.sound.wellFormed hold
  refine ⟨?_, hwf.deltas⟩
  split
  · exact hx.usable.flushed.1
  · exact hwf.file

/-- **The next open** where the filter of the session is not seen: its filter is the old one with
the pending deltas. If there is no old filter and it does not call that suspect, its index file is
empty. -/
lemma Live.stale (hx : Live key weak x d hs) (hsaves : ¬ f.savesBloom x d)
    (hopen : newDedupIndex key nbits false (x.closeWith f nonces d).2 = (.ok x', d')) :
    ∃ old es, opened key d = some (old, es) ∧
      x'.bloom = filterWith nbits (openedBloom key d) es ∧
      (∀ h, (x'.lookupDirect h).isSome ↔
        ((if (d.lookup .hashIndexEnc).isNone ∧ f.rewrites x then x.index.content h
          else fileMap old h).isSome ∨ ∃ e ∈ es, e.strongHash = h)) ∧
      (∀ h, (x'.lookupDirect h).isSome → bloomSuspect x' = false → openedBloom key d = none →
        ∃ e ∈ es, e.strongHash = h) ∧
      ((openedBloom key d).isSome → bloomSuspect x' = false) := by
  obtain ⟨file, es, hopened, -, hx'⟩ :=
    newDedupIndex_sees hopen fun _ _ => hx.wellFormed_close hsaves
  obtain ⟨hbloom, hiff⟩ := @Live.opened_of_not_saves key weak x d hs f hx hsaves nonces file es
  obtain ⟨old, hold, hfile⟩ := hiff.1 hopened
  have hlookup : ∀ h, (x'.lookupDirect h).isSome ↔
      (fileMap file h).isSome ∨ ∃ e ∈ es, e.strongHash = h := by
    intro h
    have hsome : x'.index.htab.isSome := by rw [hx'.good.mode, hx'.mode]; rfl
    rw [DedupIndex.lookupDirect, HashIndex.lookup_eq_content hsome, hx'.content, isSome_openedMap]
  have hmissing := hx'.missing
  rw [hbloom] at hmissing
  refine ⟨old, es, hold, by rw [hx'.bloom, hbloom], fun h => ?_, fun h hh hsus hnone => ?_,
    fun hsome => ?_⟩
  · rw [hlookup, hfile]
    split
    · rw [hx.usable.flushed.2]
    · rfl
  · refine ((hlookup h).1 hh).resolve_left fun hin => ?_
    have hcontent : (x'.index.content h).isSome := by
      rw [hx'.content, isSome_openedMap]
      exact .inl hin
    have hcount := indexCount_pos hx'.good hx'.mode hcontent
    rw [hnone] at hmissing
    have hempty : file.isEmpty = true := by
      by_contra hne
      simp [bloomSuspect, hmissing, hne, hcount] at hsus
    rw [List.isEmpty_iff.1 hempty] at hin
    simp [fileMap, decodeEntries, decodeN] at hin
  · have hno : x'.bloomMissing = false := by
      rw [hmissing, ← Option.not_isSome, hsome]
      rfl
    rw [bloomSuspect, hno]
    rfl

/-- **Behind a stale filter** the next open takes a known chunk for a new one. -/
lemma Live.misses_of_stale (hx : Live key weak x d hs) (h : StaleFilter weak nbits f x d hs)
    (nonces : ℕ → Bytes) : ∃ x' d' k,
      newDedupIndex key nbits false (x.closeWith f nonces d).2 = (.ok x', d') ∧
      bloomSuspect x' = false ∧ k ∈ hs ∧ (x'.lookupDirect k).isSome ∧
      x'.check ⟨weak k, k⟩ = none := by
  obtain ⟨hsaves, file, es, seen, hopened, hseen, k, hk, hres, hno⟩ := h
  rw [hx.keyed] at hopened hseen
  have hopened' := (hx.opened_of_not_saves hsaves nonces).2.2 ⟨file, hopened, rfl⟩
  obtain ⟨x', d', hopen, -⟩ :=
    newDedupIndex_succeeds nbits false hopened' (hx.wellFormed_close hsaves hopened')
  obtain ⟨old, es', hold, hbloom, hlookup, -, hsus⟩ := hx.stale hsaves hopen
  obtain ⟨rfl, rfl⟩ : file = old ∧ es = es' := by simpa [hopened] using hold
  refine ⟨x', d', k, hopen, hsus (by rw [hseen]; rfl), hk, (hlookup k).2 (.inl ?_), ?_⟩
  · split_ifs with hcond
    · exact hx.content k hk
    · exact hres.resolve_left hcond
  · rw [hseen] at hbloom
    rw [DedupIndex.check, hbloom, if_neg hno]

/-- **A `Close` in which file operations fail.** Every chunk of the session that the next open
resolves is taken for a known one by it, unless it takes its filter for lost: exactly if the filter
is not stale.

**Proof sketch.** If the next open sees the filter of the session, it contains all weak hashes of
the session, and a filter that is cut short is refused. Otherwise it sees the old filter. A chunk of
a delta has its weak hash taken in, so what matters are the chunks of the index file, which is the
old or the new one. -/
theorem close_covered_iff (hlaw : ∀ k, key = some k → ∀ nonce data,
      k.decryptWithAAD (k.encryptWithAAD nonce data) = some data) (hx : InUse key weak x d hs)
    (f : CloseFaults) (nonces : ℕ → Bytes) (nbits : UInt64) :
    (∀ x' d', newDedupIndex key nbits false (x.closeWith f nonces d).2 = (.ok x', d') →
      bloomSuspect x' = false → ∀ h ∈ hs, (x'.lookupDirect h).isSome →
        (x'.check ⟨weak h, h⟩).isSome) ↔ ¬ StaleFilter weak nbits f x d hs := by
  have hlive := hx.live hlaw
  constructor
  · intro hall hstale
    obtain ⟨x', d', k, hopen, hsus, hk, hfound, hmiss⟩ := hlive.misses_of_stale hstale nonces
    have hcheck := hall x' d' hopen hsus k hk hfound
    rw [hmiss] at hcheck
    cases hcheck
  · intro hstale x' d' hopen hsus h hh hfound
    suffices x'.bloom.mayContain (weak h) by
      rw [DedupIndex.check, if_pos this]
      exact hfound
    by_cases hsaves : f.savesBloom x d
    · exact hlive.mayContain_of_saves hlaw hsaves hopen h hh
    obtain ⟨old, es, hold, hbloom, hlookup, hempty, -⟩ := hlive.stale hsaves hopen
    have hdelta : (∃ e ∈ es, e.strongHash = h) → x'.bloom.mayContain (weak h) := by
      rintro ⟨e, he, rfl⟩
      rw [hbloom]
      refine mayContain_filterWith (.inr (List.mem_map.2 ⟨e, he, ?_⟩))
      exact (hlive.sound.deltas es (opened_eq_some.1 hold).2 e he).2
    cases hseen : openedBloom key d with
    | none => exact hdelta (hempty h hfound hsus hseen)
    | some seen =>
      rcases (hlookup h).1 hfound with hfile | hin
      · by_contra hno
        refine hstale ⟨hsaves, old, es,
          seen, by rw [hlive.keyed, hold], by rw [hlive.keyed, hseen], h,
          hh, ?_, by rwa [hbloom, hseen] at hno⟩
        split_ifs at hfile with hcond
        · exact .inl hcond
        · exact .inr hfile
      · exact hdelta hin

end Reopen

/-! ## A session of one insert -/

/-- A directory with an empty filter and no index file. -/
def emptyFilter : RepoDir := (∅ : RepoDir).insert .bloom (newBloomFilter 64).bytes

lemma opened_emptyFilter : opened none emptyFilter = some ([], []) := by
  have hbloom : emptyFilter.lookup .bloom = some (newBloomFilter 64).bytes := AList.lookup_insert _
  have hnone : ∀ f : FileName, f ≠ .bloom → emptyFilter.lookup f = none := by
    intro f hf
    rw [emptyFilter, AList.lookup_insert_ne hf, AList.lookup_empty]
  refine opened_eq_some.2 ⟨?_, pendingDeltas_nil (fun _ _ => hnone _ (by simp)) none⟩
  simp [openedFile, hbloom, hnone, bloomLoads, loadBloomFilter_bytes, Except.toOption]

/-- It is opened, and a chunk is inserted. -/
lemma oneInsert_inUse : ∃ x d, InUse none (fun _ => 7) x d [oneEntry.strongHash] ∧
    bloomSuspect x = false ∧ x.index.isClean = false ∧ opened none d = some ([], []) ∧
    openedBloom none d = some (newBloomFilter 64).bytes := by
  have hsound : Sound none (fun _ => 7) emptyFilter := by
    refine ⟨fun file hfile => ?_, fun k _ _ hk => (by cases hk), fun es hes => ?_⟩
    · cases hfile
    · rw [(opened_eq_some.1 opened_emptyFilter).2] at hes
      cases hes
      simp
  obtain ⟨x, d, hopen, hdir, hx⟩ := newDedupIndex_succeeds 64 false opened_emptyFilter
    (hsound.wellFormed opened_emptyFilter)
  have hbloom : openedBloom none emptyFilter = some (newBloomFilter 64).bytes :=
    AList.lookup_insert _
  have hdir' : SessionDir none emptyFilter []
      (runOps d (x.insert ⟨7, oneEntry.strongHash⟩ 0 0 5).2) :=
    hdir.runOps fun f hf => captureInsert_untouched hf _ _
  refine ⟨_, _, .insert (.opened hsound hopen) oneEntry.strongHash 0 0 5 (by decide), ?_, ?_,
    hdir'.opened opened_emptyFilter, ?_⟩
  · have hmissing : (x.insert ⟨7, oneEntry.strongHash⟩ 0 0 5).1.bloomMissing = x.bloomMissing := by
      unfold DedupIndex.insert DedupIndex.captureInsert
      split <;> rfl
    rw [bloomSuspect, hmissing, hx.missing, hbloom]
    rfl
  · rw [(x.insert_index _ 0 0 5).1]
    rfl
  · exact hdir'.bloom.trans hbloom

/-- The hash index is not flushed before its close flushes it. -/
def CloseFaults.flushOnce : CloseFaults := ⟨⟨.ok, .early, false, false, false⟩, false, .ok⟩

/-- After such a `Close` the chunk is known. -/
theorem close_covered_saved : ∃ x d, InUse none (fun _ => 7) x d [oneEntry.strongHash] ∧
    x.index.isClean = false ∧
    ∀ x' d', newDedupIndex none 64 false (x.closeWith .flushOnce (fun _ => []) d).2 = (.ok x', d') →
      bloomSuspect x' = false → (x'.lookupDirect oneEntry.strongHash).isSome →
        (x'.check ⟨7, oneEntry.strongHash⟩).isSome := by
  obtain ⟨x, d, hx, -, hdirty, -⟩ := oneInsert_inUse
  have hlive := hx.live (by simp)
  refine ⟨x, d, hx, hdirty, fun x' d' hopen hsus hfound => ?_⟩
  refine (close_covered_iff (by simp) hx .flushOnce (fun _ => []) 64).2
    (fun hstale => ?_) x' d' hopen
    hsus _ (by simp) hfound
  refine hstale.1 (.inr ⟨?_, by simp [CloseFaults.flushOnce]⟩)
  rw [(hlive.unencrypted rfl).1]
  rfl

/-- The filter cannot be created: the index has the chunk, and the next session takes it for new. -/
theorem close_leaves_old_filter : ∃ x d f, InUse none (fun _ => 7) x d [oneEntry.strongHash] ∧
    bloomSuspect x = false ∧ ∃ x' d',
      newDedupIndex none 64 false (x.closeWith f (fun _ => []) d).2 = (.ok x', d') ∧
      bloomSuspect x' = false ∧ (x'.lookupDirect oneEntry.strongHash).isSome ∧
      x'.check ⟨7, oneEntry.strongHash⟩ = none := by
  obtain ⟨x, d, hx, hsus, hdirty, hopened, hbloom⟩ := oneInsert_inUse
  have hlive := hx.live (by simp)
  let f : CloseFaults := ⟨⟨.create, .ok, false, false, false⟩, false, .ok⟩
  have hstale : StaleFilter (fun _ => 7) 64 f x d [oneEntry.strongHash] := by
    refine ⟨?_, [], [], _, by rw [hlive.keyed, hopened], by rw [hlive.keyed, hbloom],
      oneEntry.strongHash, by simp, .inl ⟨?_, by rw [hdirty]; simp, .inr (by simp [f])⟩, ?_⟩
    · rintro (h | h)
      · cases h.2.1
      · exact h.2 rfl
    · rw [(hlive.unencrypted rfl).2]
      rfl
    · rw [filterWith, filterOf_bytes]
      decide +kernel
  obtain ⟨x', d', k, hopen, hsus', hk, hfound, hmiss⟩ := hlive.misses_of_stale hstale fun _ => []
  obtain rfl : k = oneEntry.strongHash := by simpa using hk
  exact ⟨x, d, f, hx, hsus, x', d', hopen, hsus', hfound, hmiss⟩

end DiskNexus.Index
