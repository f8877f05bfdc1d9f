import DiskNexus.Index.FlushCrash

/-!
# The end of a session of the index

A run opens the index, inserts into it and closes it: with a flush if it succeeds, without one
otherwise. A session that is discarded, or whose process dies, leaves what an open sees
(`DiskNexus.Prune.opened`) as it was; one that is closed replaces the file by what it held in
memory.

## Main results

`SessionDir.opened`, `SessionDir.discard`, `opened_shutdown`, `SessionDir.finished`
-/

namespace DiskNexus.Index

open Binary Sha256 Files Store
open Prune (opened openedFile workingCopy bloomLoads insertDeltas)

/-! ## Sessions without an end -/

variable {k : Cipher} {index : HashIndex}

section Sessions

variable {key : Option Cipher} {d d' : RepoDir} {file : Bytes} {es : List DeltaEntry}
  {x : DedupIndex}

lemma SessionDir.runOps (h : SessionDir key d file d') {ops : List (FileOp FileName)}
    (hops : ∀ f : FileName, f.Persistent → Untouched f ops) :
    SessionDir key d file (runOps d' ops) := by
  have hsame : ∀ f : FileName, f.Persistent → (Files.runOps d' ops).lookup f = d'.lookup f :=
    fun f hf => lookup_runOps (hops f hf) d'
  exact ⟨by rw [hsame .hashIndex trivial, h.hashIndex], by rw [hsame .bloom trivial, h.bloom],
    fun f hf h1 h2 => by rw [hsame f hf, h.rest f hf h1 h2]⟩

lemma SessionDir.pendingDeltas (h : SessionDir key d file d') (key' : Option Cipher) :
    pendingDeltas key' d' = pendingDeltas key' d :=
  pendingDeltas_congr (fun _ _ => h.rest _ trivial (by simp) (by simp)) key'

/-- The files of an encrypted index after its session: the bloom filter is gone, and the index file
is what an open sees under the plain name, or there is an encrypted one. -/
lemma openedFile_of_copies (h : openedFile (some k) d = some file)
    (hbloomEnc : d'.lookup .bloomEnc = d.lookup .bloomEnc) (hbloom : d'.lookup .bloom = none)
    (henc : d'.lookup .hashIndexEnc = d.lookup .hashIndexEnc)
    (hfile : (d.lookup .hashIndexEnc).isSome ∨ (d'.lookup .hashIndex).getD [] = file) :
    openedFile (some k) d' = some file := by
  obtain ⟨bloom, copy, hb, hc, hloads, rfl⟩ := openedFile_keyed.1 h
  have hbloom' : ∃ bloom', workingCopy k d' .bloomEnc .bloom = some bloom' ∧
      bloomLoads bloom' = true := by
    cases hsrc : d.lookup .bloomEnc with
    | none => exact ⟨none, by simp [workingCopy, hbloomEnc, hsrc, hbloom], rfl⟩
    | some data => exact ⟨bloom, (workingCopy_congr hsrc hbloomEnc).trans hb, hloads⟩
  have hcopy' : ∃ copy', workingCopy k d' .hashIndexEnc .hashIndex = some copy' ∧
      copy'.getD [] = copy.getD [] := by
    cases hsrc : d.lookup .hashIndexEnc with
    | none =>
      rw [hsrc] at hfile
      exact ⟨d'.lookup .hashIndex, by simp [workingCopy, henc, hsrc],
        hfile.resolve_left (by simp)⟩
    | some data => exact ⟨copy, (workingCopy_congr hsrc henc).trans hc, rfl⟩
  obtain ⟨bloom', hb', hloads'⟩ := hbloom'
  obtain ⟨copy', hc', heq⟩ := hcopy'
  exact openedFile_keyed.2 ⟨bloom', copy', hb', hc', hloads', heq⟩

/-- **A session whose process dies** leaves what an open sees as it was. -/
theorem SessionDir.opened (h : SessionDir key d file d') (hopen : opened key d = some (file, es)) :
    opened key d' = some (file, es) := by
  rw [opened_eq_some] at hopen ⊢
  obtain ⟨hfile, hes⟩ := hopen
  refine ⟨?_, (h.pendingDeltas key).trans hes⟩
  have henc := h.rest .hashIndexEnc trivial (by simp) (by simp)
  have hbloomEnc := h.rest .bloomEnc trivial (by simp) (by simp)
  cases key with
  | none =>
    obtain ⟨h1, h2, hloads, rfl⟩ := openedFile_plain.1 hfile
    refine openedFile_plain.2 ⟨henc.trans h1, hbloomEnc.trans h2, ?_, by rw [h.hashIndex]; rfl⟩
    rw [h.bloom]
    exact hloads
  | some k =>
    refine openedFile_of_copies hfile hbloomEnc h.bloom henc (.inr ?_)
    rw [h.hashIndex]
    rfl

/-- **A session that is discarded** leaves what an open sees as it was, unless a key is used on an
index that has no encrypted file yet. -/
theorem SessionDir.discard (h : SessionDir key d file d') (hkey : x.key = key)
    (hopen : Prune.opened key d = some (file, es))
    (hsealed : key.isSome → (d.lookup .hashIndexEnc).isSome ∨ file = []) :
    Prune.opened key (Files.runOps d' x.closeDiscardOps) = some (file, es) := by
  cases key with
  | none =>
    refine SessionDir.opened (h.runOps fun f hf => ?_) hopen
    exact DedupIndex.closeDiscardOps_untouched hf (by rw [hkey]; simp)
  | some k =>
    rw [opened_eq_some] at hopen ⊢
    obtain ⟨hfile, hes⟩ := hopen
    have hsame : ∀ f, f.Persistent → f ≠ .bloom → f ≠ .hashIndex →
        (Files.runOps d' x.closeDiscardOps).lookup f = d.lookup f := by
      intro f hf h1 h2
      rw [lookup_runOps (DedupIndex.closeDiscardOps_untouched hf fun _ => ⟨h1, h2⟩),
        h.rest f hf h1 h2]
    have hgone : ∀ f ∈ [FileName.bloom, .hashIndex],
        (Files.runOps d' x.closeDiscardOps).lookup f = none := by
      unfold DedupIndex.closeDiscardOps
      rw [hkey, runOps_append]
      intro f hf
      simp only [List.mem_cons, List.not_mem_nil, or_false] at hf
      rcases hf with rfl | rfl <;> simp [FileOp.act, AList.lookup_erase_ne]
    refine ⟨openedFile_of_copies hfile (hsame _ trivial (by simp) (by simp)) (hgone _ (by simp))
      (hsame _ trivial (by simp) (by simp)) ?_, ?_⟩
    · rw [hgone _ (by simp)]
      exact (hsealed rfl).imp id Eq.symm
    · rw [← hes]
      exact pendingDeltas_congr (fun _ _ => hsame _ trivial (by simp) (by simp)) _

/-! ## Flushing and closing -/

/-- The files of an encrypted index after a flush, or after a close that follows. -/
structure Encrypted (k : Cipher) (d : RepoDir) (bloom file : Bytes) (d' : RepoDir) : Prop where
  bloomEnc : ∃ nonce, d'.lookup .bloomEnc = some (k.encryptWithAAD nonce bloom)
  hashIndexEnc : ∃ nonce, d'.lookup .hashIndexEnc = some (k.encryptWithAAD nonce file)
  deltas : ∀ stem enc, d'.lookup (.delta stem enc) = d.lookup (.delta stem enc)

lemma Encrypted.runOps {bloom : Bytes} (h : Encrypted k d bloom file d')
    {ops : List (FileOp FileName)}
    (hops : ∀ f : FileName, f.Persistent → f ≠ .bloom → f ≠ .hashIndex → Untouched f ops) :
    Encrypted k d bloom file (runOps d' ops) := by
  have hsame : ∀ f : FileName, f.Persistent → f ≠ .bloom → f ≠ .hashIndex →
      (Files.runOps d' ops).lookup f = d'.lookup f :=
    fun f hf h1 h2 => lookup_runOps (hops f hf h1 h2) d'
  obtain ⟨n0, hbloom⟩ := h.bloomEnc
  obtain ⟨n1, hfile⟩ := h.hashIndexEnc
  exact ⟨⟨n0, by rw [hsame .bloomEnc trivial (by simp) (by simp), hbloom]⟩,
    ⟨n1, by rw [hsame .hashIndexEnc trivial (by simp) (by simp), hfile]⟩,
    fun stem enc => by rw [hsame (.delta stem enc) trivial (by simp) (by simp), h.deltas]⟩

lemma encrypted_flushOps (hkey : x.key = some k) (h : x.index.flush = .ok index) (d : RepoDir)
    (nonces : ℕ → Bytes) :
    Encrypted k d x.bloom.bytes index.file (Files.runOps d (x.flushOps nonces)) := by
  have hops : x.flushOps nonces = (x.bloom.saveOps ++ x.index.flushOps) ++
      (DedupIndex.encryptFileOps k (nonces 0) x.bloom.bytes .bloomEnc ++ ([.remove .bloom] ++
        (DedupIndex.encryptFileOps k (nonces 1) index.file .hashIndexEnc ++
          DedupIndex.writeDeltaObjectOps (some k) (nonces 2) x.delta))) := by
    simp [DedupIndex.flushOps, h, hkey]
  have hdelta : ∀ f : FileName, f.Persistent →
      Untouched f (DedupIndex.writeDeltaObjectOps (some k) (nonces 2) x.delta) :=
    fun f hf => writeDeltaObjectOps_untouched hf _ _ _
  rw [hops, runOps_append, runOps_append, runOps_append, runOps_append]
  refine ⟨⟨nonces 0, ?_⟩, ⟨nonces 1, ?_⟩, fun stem enc => ?_⟩
  · rw [lookup_runOps (hdelta .bloomEnc trivial),
      lookup_runOps (encryptFileOps_untouched (by simp) (by simp) _ _ _),
      lookup_runOps (by simp)]
    exact lookup_runOps_replaceOps _ _ _ _
  · rw [lookup_runOps (hdelta .hashIndexEnc trivial)]
    exact lookup_runOps_replaceOps _ _ _ _
  · have hfile : ¬ (FileName.delta stem enc).Working := fun h => h
    rw [lookup_runOps (hdelta (.delta stem enc) trivial),
      lookup_runOps (encryptFileOps_untouched (by simp) (by simp) _ _ _),
      lookup_runOps (by simp),
      lookup_runOps (encryptFileOps_untouched (by simp) (by simp) _ _ _),
      lookup_runOps ((saveOps_untouched (by simp) _).append
        (HashIndex.flushOps_untouched hfile (by simp) _))]

lemma encrypted_closeOps (hkey : x.key = some k) (h : x.index.flush = .ok index) (d : RepoDir)
    (nonces : ℕ → Bytes) :
    Encrypted k d x.bloom.bytes index.file (Files.runOps d (x.closeOps nonces)) := by
  have hclean : index.flushOps = [] := by
    rw [HashIndex.flushOps, if_pos (HashIndex.isClean_of_flush h)]
  have hops : x.closeOps nonces = x.flushOps nonces ++
      (x.closeDeltaOps (nonces 3) ++ (index.closeOps ++ [.remove .hashIndex])) := by
    simp [DedupIndex.closeOps, h, hclean, hkey]
  rw [hops, runOps_append]
  refine (encrypted_flushOps hkey h d nonces).runOps fun f hf h1 h2 => ?_
  exact (DedupIndex.closeDeltaOps_untouched hf _).append
    (.append (HashIndex.closeOps_untouched hf.not_working _) (by simp [h2.symm]))

lemma Encrypted.opened {k : Cipher} {bloom : BloomFilter} (h : Encrypted k d bloom.bytes file d')
    (hlaw : ∀ nonce data, k.decryptWithAAD (k.encryptWithAAD nonce data) = some data)
    (hes : pendingDeltas (some k) d = .ok es) : opened (some k) d' = some (file, es) := by
  obtain ⟨n0, hbloom⟩ := h.bloomEnc
  obtain ⟨n1, hfile⟩ := h.hashIndexEnc
  refine opened_eq_some.2 ⟨openedFile_keyed.2 ⟨some bloom.bytes, some file, ?_, ?_, ?_, rfl⟩, ?_⟩
  · simp [workingCopy, hbloom, hlaw]
  · simp [workingCopy, hfile, hlaw]
  · rw [bloomLoads, loadBloomFilter_bytes]
    rfl
  · rw [pendingDeltas_congr h.deltas, hes]

/-- **A complete flush or close**: an open sees the index file that it wrote and the old deltas. -/
theorem opened_shutdown (hkey : x.key = key) (h : x.index.flush = .ok index)
    (hplain : key = none → d.lookup .hashIndex = some x.index.file ∧
      d.lookup .hashIndexEnc = none ∧ d.lookup .bloomEnc = none)
    (hlaw : ∀ k ∈ key, ∀ nonce data, k.decryptWithAAD (k.encryptWithAAD nonce data) = some data)
    (hes : pendingDeltas key d = .ok es) (call : Shutdown) (nonces : ℕ → Bytes) :
    opened key (Files.runOps d (call.ops x nonces)) = some (index.file, es) := by
  cases key with
  | none =>
    obtain ⟨hfile, henc, hbloomEnc⟩ := hplain rfl
    obtain ⟨hb, hi, hrest⟩ := lookup_shutdown hkey hfile h call nonces
    refine opened_eq_some.2 ⟨openedFile_plain.2 ⟨?_, ?_, ?_, by rw [hi]; rfl⟩, ?_⟩
    · rw [hrest .hashIndexEnc trivial (by simp) (by simp), henc]
    · rw [hrest .bloomEnc trivial (by simp) (by simp), hbloomEnc]
    · rw [hb, bloomLoads, loadBloomFilter_bytes]
      rfl
    · rw [← hes]
      exact pendingDeltas_congr (fun _ _ => hrest _ trivial (by simp) (by simp)) _
  | some k =>
    cases call with
    | flush => exact (encrypted_flushOps hkey h d nonces).opened (hlaw k rfl) hes
    | close => exact (encrypted_closeOps hkey h d nonces).opened (hlaw k rfl) hes

/-- The index after a flush. -/
lemma flush_inv {x' : DedupIndex} (h : x.flush = .ok x') :
    x.index.flush = .ok x'.index ∧ x'.key = x.key := by
  unfold DedupIndex.flush at h
  split at h
  · cases h
  · rename_i index hindex
    cases h
    exact ⟨hindex, rfl⟩

/-- **A session that is flushed and closed**: an open sees the file it wrote and the old deltas. -/
theorem SessionDir.finished {x' : DedupIndex} (h : SessionDir key d x.index.file d')
    (hkey : x.key = key) (hopen : Prune.opened key d = some (x.index.file, es))
    (hlaw : ∀ k ∈ key, ∀ nonce data, k.decryptWithAAD (k.encryptWithAAD nonce data) = some data)
    (hflush : x.flush = .ok x') (nonces nonces' : ℕ → Bytes) :
    Prune.opened key (Files.runOps (Files.runOps d' (x.flushOps nonces)) (x'.closeOps nonces')) =
        some (x'.index.file, es) ∧
      (key.isSome → ((Files.runOps (Files.runOps d' (x.flushOps nonces))
        (x'.closeOps nonces')).lookup .hashIndexEnc).isSome) := by
  obtain ⟨hindex, hkey'⟩ := flush_inv hflush
  have hagain : x'.index.flush = .ok x'.index := by
    rw [HashIndex.flush, if_pos (HashIndex.isClean_of_flush hindex)]
  obtain ⟨hfile, hes⟩ := opened_eq_some.1 hopen
  have hplain : key = none → d'.lookup .hashIndex = some x.index.file ∧
      d'.lookup .hashIndexEnc = none ∧ d'.lookup .bloomEnc = none := by
    rintro rfl
    obtain ⟨henc, hbloomEnc, -⟩ := openedFile_plain.1 hfile
    exact ⟨h.hashIndex, (h.rest .hashIndexEnc trivial (by simp) (by simp)).trans henc,
      (h.rest .bloomEnc trivial (by simp) (by simp)).trans hbloomEnc⟩
  have hflushed := opened_shutdown hkey hindex hplain hlaw ((h.pendingDeltas key).trans hes) .flush
    nonces
  obtain ⟨hfile', hes'⟩ := opened_eq_some.1 hflushed
  refine ⟨opened_shutdown (hkey'.trans hkey) hagain ?_ hlaw hes' .close nonces', fun hk => ?_⟩
  · rintro rfl
    obtain ⟨henc, hbloomEnc, -⟩ := openedFile_plain.1 hfile'
    exact ⟨(lookup_shutdown hkey h.hashIndex hindex .flush nonces).2.1, henc, hbloomEnc⟩
  · obtain ⟨k, rfl⟩ := Option.isSome_iff_exists.1 hk
    obtain ⟨nonce, hnonce⟩ := (encrypted_closeOps (hkey'.trans hkey) hagain
      (Files.runOps d' (x.flushOps nonces)) nonces').hashIndexEnc
    rw [hnonce]
    rfl

end Sessions

end DiskNexus.Index
