import DiskNexus.Prune.DryRun
import DiskNexus.Prune.Rewrite

/-!
# What outlives a prune

A prune is to keep every chunk that a manifest references or that its caller names, and to drop the
rest of the index. An entry outlives it if the walk over the manifests has collected its hash and it
is the first entry of that hash. Under a key, a prune that finds nothing to drop still removes a
plaintext index file. "Before" a prune is after the recovery that it starts with.

## Main results

`run_preserves_iff`, `safe_of_unshadowed`
-/

namespace DiskNexus.Prune

open Binary Sha256 Files Index Store

/-! ## The contract -/

/-- A hash that a manifest references, or the caller names. -/
def Needed (inp : Input) (m : Manifests) (h : Hash) : Prop :=
  m.References h ∨ h ∈ inp.extraReferencedHashes

section Contract

variable (inp : Input) (cfg : RepoConfig)

/-- The chunk store of a repository. -/
def chunkStore (r : Repo) : ChunkStore :=
  .newChunkStore (packsOf (r.chunks.getD ∅)) inp.codec cfg.packFileMaxSize

/-- The entries of the index of a repository. -/
def indexEntries (r : Repo) : Option (List IndexEntry) :=
  (readIndex (cfg.indexKeyFor inp.key) (inp.nbits readOpenExpectedChunks)
    (r.index.getD ∅)).1.toOption

/-- The frame that a repository resolves a hash to, and the chunk in it. -/
def resolve (r : Repo) (h : Hash) : Option (Bytes × Bytes) :=
  (lookupIndex (cfg.indexKeyFor inp.key) (inp.nbits readOpenExpectedChunks)
    (r.index.getD ∅) h).bind (readFrame (chunkStore inp cfg r))

/-- The contract of a prune: every needed hash resolves to the same frame as before, and the index
holds needed hashes only, each once. -/
structure Preserved (r r' : Repository) : Prop where
  kept : ∀ h p, Needed inp r.manifests h → resolve inp cfg r.dirs h = some p →
    resolve inp cfg r'.dirs h = some p
  only : ∃ es, indexEntries inp cfg r'.dirs = some es ∧
    (∀ e ∈ es, Needed inp r.manifests e.strongHash) ∧ (es.map (·.strongHash)).Nodup

/-- A hash that a prune takes for referenced. -/
def Marked (m : Manifests) (h : Hash) : Prop :=
  m.Via BackupFiles.streamed h ∨ h ∈ inp.extraReferencedHashes

/-- Every entry is marked, and no hash has two. -/
def NothingToPrune (m : Manifests) (all : List IndexEntry) : Prop :=
  (∀ e ∈ all, Marked inp m e.strongHash) ∧ (all.map (·.strongHash)).Nodup

/-- Closing the scan does not lose the entry of `h`: there is no key, the index file is encrypted,
it is replaced anyway, or a pending delta holds the hash too. -/
def OutlivesScan (r : Repository) (all : List IndexEntry) (h : Hash) : Prop :=
  cfg.indexKeyFor inp.key = none ∨ ((r.dirs.index.getD ∅).lookup .hashIndexEnc).isSome ∨
    ¬ NothingToPrune inp r.manifests all ∨
    ∃ es, pendingDeltas (cfg.indexKeyFor inp.key) (r.dirs.index.getD ∅) = .ok es ∧
      h ∈ es.map (·.strongHash)

/-- An entry of the index that outlives a prune. -/
def Survives (r : Repository) (e : IndexEntry) : Prop :=
  ∃ all, indexEntries inp cfg r.dirs = some all ∧
    all.find? (fun e' => e'.strongHash = e.strongHash) = some e ∧
    Marked inp r.manifests e.strongHash ∧ OutlivesScan inp cfg r all e.strongHash

/-- The entries that outlive a prune are needed, and every needed hash that resolves has one, with
the frame that the hash resolves to. -/
structure Safe (r : Repository) : Prop where
  needed : ∀ e, Survives inp cfg r e → Needed inp r.manifests e.strongHash
  survives : ∀ h p, Needed inp r.manifests h → resolve inp cfg r.dirs h = some p →
    ∃ e, Survives inp cfg r e ∧ e.strongHash = h ∧ readFrame (chunkStore inp cfg r.dirs) e = some p

end Contract

variable {e : IndexEntry} {file : Bytes} {es : List DeltaEntry} {inp : Input} {cfg : RepoConfig}

/-! ## The first entry of each hash -/

lemma mem_dedupEntries {seen : List Hash} {es : List IndexEntry} :
    e ∈ dedupEntries seen es ↔ e.strongHash ∉ seen ∧
      es.find? (fun e' => e'.strongHash = e.strongHash) = some e := by
  induction es generalizing seen with
  | nil => simp [dedupEntries]
  | cons a es ih =>
    unfold dedupEntries
    by_cases heq : a.strongHash = e.strongHash
    · rw [List.find?_cons_of_pos (by simpa using heq), Option.some_inj]
      split_ifs with hseen
      · rw [heq] at hseen
        simp [ih, hseen]
      · rw [List.mem_cons, ih, heq]
        rw [heq] at hseen
        simp [hseen, eq_comm]
    · rw [List.find?_cons_of_neg (by simpa using heq)]
      split
      · exact ih
      · have hne : e ≠ a := fun h => heq (by rw [h])
        rw [List.mem_cons, ih, List.mem_cons]
        simp [hne, Ne.symm heq]

lemma nodup_dedupEntries (seen : List Hash) (es : List IndexEntry) :
    ((dedupEntries seen es).map (·.strongHash)).Nodup := by
  induction es generalizing seen with
  | nil => exact List.nodup_nil
  | cons a es ih =>
    unfold dedupEntries
    split
    · exact ih seen
    · rw [List.map_cons, List.nodup_cons]
      refine ⟨fun hmem => ?_, ih _⟩
      obtain ⟨e, he, heq⟩ := List.mem_map.1 hmem
      exact (mem_dedupEntries.1 he).1 (heq ▸ List.mem_cons_self)

lemma dedupEntries_sublist (seen : List Hash) (es : List IndexEntry) :
    (dedupEntries seen es).Sublist es := by
  induction es generalizing seen with
  | nil => exact .slnil
  | cons a es ih =>
    unfold dedupEntries
    split
    · exact (ih seen).cons a
    · exact (ih _).cons_cons a

lemma dedupEntries_of_nodup {seen : List Hash} {es : List IndexEntry}
    (h : (es.map (·.strongHash)).Nodup) (hseen : ∀ e ∈ es, e.strongHash ∉ seen) :
    dedupEntries seen es = es := by
  induction es generalizing seen with
  | nil => rfl
  | cons a es ih =>
    obtain ⟨ha, hes⟩ := List.nodup_cons.1 h
    rw [dedupEntries, if_neg (hseen a (.head _)), ih hes]
    intro e he hmem
    rcases List.mem_cons.1 hmem with heq | hmem
    · exact ha (List.mem_map.2 ⟨e, he, heq⟩)
    · exact hseen e (.tail _ he) hmem

/-- A prune returns early if there is nothing to prune. -/
lemma nothingToPrune_iff {all : List IndexEntry} (marked : List Hash) {chunks : Option Dir} :
    ((∀ e ∈ all, e.strongHash ∈ marked) ∧ (all.map (·.strongHash)).Nodup) ↔
      (classify all (all.filter fun e => e.strongHash ∈ marked)
          (dedupEntries [] (all.filter fun e => e.strongHash ∈ marked)) chunks).orphanedChunks = 0 ∧
        (classify all (all.filter fun e => e.strongHash ∈ marked)
          (dedupEntries [] (all.filter fun e => e.strongHash ∈ marked)) chunks).duplicateChunks =
            0 := by
  set kept := all.filter fun e => e.strongHash ∈ marked with hkept
  have hsub : kept.Sublist all := List.filter_sublist
  have hsub' : (dedupEntries [] kept).Sublist kept := dedupEntries_sublist [] kept
  simp only [classify]
  constructor
  · rintro ⟨hall, hnodup⟩
    have hsame : kept = all := List.filter_eq_self.2 fun e he => by simpa using hall e he
    rw [hsame, dedupEntries_of_nodup hnodup (by simp)]
    simp
  · rintro ⟨horphans, hdups⟩
    have hsame : kept = all := hsub.eq_of_length_le (by omega)
    have hsame' : dedupEntries [] kept = kept := hsub'.eq_of_length_le (by omega)
    refine ⟨fun e he => ?_, ?_⟩
    · rw [← hsame, hkept, List.mem_filter] at he
      simpa using he.2
    · rw [← hsame, ← hsame']
      exact nodup_dedupEntries [] kept

/-! ## After a scan -/

/-- The index file that an open sees after a scan. -/
def scannedFile (key : Option Cipher) (d : Dir) (file : Bytes) (es : List DeltaEntry) : Bytes :=
  match key with
  | none => mergedFile file es
  | some _ => if (d.lookup .hashIndexEnc).isSome then file else []

/-- The working copy of a file once the plaintext is gone. -/
lemma workingCopy_gone {k : Cipher} {d d' : Dir} {src dst : FileName} {copy : Option Bytes}
    (h : workingCopy k d src dst = some copy) (hsrc : d'.lookup src = d.lookup src)
    (hdst : d'.lookup dst = none) :
    workingCopy k d' src dst = some (if (d.lookup src).isSome then copy else none) := by
  unfold workingCopy at h ⊢
  rw [hsrc, hdst]
  cases hfile : d.lookup src with
  | none => rfl
  | some data => simpa [hfile] using h

/-- An open after a scan. -/
lemma opened_scan {key : Option Cipher} {d d' : Dir} (h : opened key d = some (file, es))
    (hleaves : Leaves d d' (scan key d)) :
    opened key d' = some (scannedFile key d file es, es) := by
  obtain ⟨hfile, hes⟩ := opened_eq_some.1 h
  rw [scan_eq, hfile, hes] at hleaves
  have hrest := hleaves.rest
  refine opened_eq_some.2 ⟨?_, by rw [hleaves.pendingDeltas, hes]⟩
  cases key with
  | none =>
    obtain ⟨henc, hbloomEnc, hloads, rfl⟩ := openedFile_plain.1 hfile
    refine openedFile_plain.2 ⟨?_, ?_, by rw [hleaves.bloom]; exact hloads, by
      rw [hleaves.hashIndex]; rfl⟩
    · rw [hrest .hashIndexEnc trivial (by simp) (by simp), henc]
    · rw [hrest .bloomEnc trivial (by simp) (by simp), hbloomEnc]
  | some k =>
    obtain ⟨bloom, copy, hbloom, hcopy, hloads, rfl⟩ := openedFile_keyed.1 hfile
    refine openedFile_keyed.2 ⟨_, _,
      workingCopy_gone hbloom (hrest .bloomEnc trivial (by simp) (by simp)) hleaves.bloom,
      workingCopy_gone hcopy (hrest .hashIndexEnc trivial (by simp) (by simp)) hleaves.hashIndex,
      ?_, ?_⟩
    · split
      · exact hloads
      · rfl
    · unfold scannedFile
      split <;> rfl

section Scanned

variable {key : Option Cipher} {d : Dir} {file : Bytes} {es : List DeltaEntry}

/-- An entry is still there after a scan. -/
def StaysScanned (key : Option Cipher) (d : Dir) (es : List DeltaEntry) (h : Hash) : Prop :=
  key = none ∨ (d.lookup .hashIndexEnc).isSome ∨ h ∈ es.map (·.strongHash)

/-- The three forms of the index file after a scan. -/
lemma scannedFile_cases (key : Option Cipher) (d : Dir) (file : Bytes) (es : List DeltaEntry) :
    (key = none ∧ scannedFile key d file es = mergedFile file es) ∨
      ((d.lookup .hashIndexEnc).isSome ∧ scannedFile key d file es = file) ∨
      (key ≠ none ∧ ¬ (d.lookup .hashIndexEnc).isSome ∧ scannedFile key d file es = []) := by
  cases key with
  | none => exact .inl ⟨rfl, rfl⟩
  | some k =>
    by_cases henc : (d.lookup .hashIndexEnc).isSome
    · exact .inr (.inl ⟨henc, if_pos henc⟩)
    · exact .inr (.inr ⟨by simp, henc, if_neg henc⟩)

lemma mem_scanned :
    e ∈ decodeEntries (mergedFile (scannedFile key d file es) es) ↔
      e ∈ decodeEntries (mergedFile file es) ∧ StaysScanned key d es e.strongHash := by
  rcases scannedFile_cases key d file es with
    ⟨hkey, hfile⟩ | ⟨henc, hfile⟩ | ⟨hkey, henc, hfile⟩ <;>
    rw [hfile]
  · simp only [mem_mergedFile, StaysScanned, hkey, true_or, and_true]
    tauto
  · simp [StaysScanned, henc]
  · have hnil : e ∉ decodeEntries [] := List.not_mem_nil
    rw [mem_mergedFile, mem_mergedFile, StaysScanned, ← latestOf_isSome]
    cases latestOf es e.strongHash <;> simp [hkey, henc, hnil]

lemma nodup_scanned (h : ((decodeEntries (mergedFile file es)).map (·.strongHash)).Nodup) :
    ((decodeEntries (mergedFile (scannedFile key d file es) es)).map (·.strongHash)).Nodup := by
  rcases scannedFile_cases key d file es with ⟨-, hfile⟩ | ⟨-, hfile⟩ | ⟨-, -, hfile⟩ <;> rw [hfile]
  · exact mergedFile_nodup h es
  · exact h
  · exact @mergedFile_nodup [] List.nodup_nil es

/-- A lookup after a scan of an index in which no hash has two entries. -/
lemma lookup_scanned (hnodup : ((decodeEntries (mergedFile file es)).map (·.strongHash)).Nodup)
    {h : Hash} (he : (latestOf es h).or (HashIndex.diskLookup file h) = some e)
    (hstays : StaysScanned key d es h) :
    (latestOf es h).or (HashIndex.diskLookup (scannedFile key d file es) h) = some e := by
  rcases Option.or_eq_some_iff.1 he with hlatest | ⟨hnone, hdisk⟩
  · rw [hlatest]
    rfl
  obtain ⟨hmem, hhash⟩ := mem_of_lookup he
  rw [hnone, Option.none_or]
  rcases scannedFile_cases key d file es with ⟨-, hfile⟩ | ⟨-, hfile⟩ | ⟨hkey, henc, -⟩
  · rw [hfile]
    by_cases hes : es = []
    · subst hes
      exact hdisk
    · -- the merged file is sorted, whatever the old one was
      rw [HashIndex.diskLookup_eq_find? (mergedFile_sorted fun h => absurd h hes)]
      exact (HashIndex.find?_strongHash hnodup).2 ⟨hmem, hhash⟩
  · rw [hfile]
    exact hdisk
  · have hin := latestOf_isSome.2 ((hstays.resolve_left hkey).resolve_left henc)
    rw [hnone] at hin
    cases hin

/-- A lookup of a hash that the scan has lost. -/
lemma lookup_lost {h : Hash} (hlost : ¬ StaysScanned key d es h) :
    (latestOf es h).or (HashIndex.diskLookup (scannedFile key d file es) h) = none := by
  obtain ⟨hkey, henc, hes⟩ : key ≠ none ∧ ¬ (d.lookup .hashIndexEnc).isSome ∧
      h ∉ es.map (·.strongHash) := by
    simpa only [StaysScanned, not_or] using hlost
  rw [← latestOf_isSome, Option.not_isSome_iff_eq_none] at hes
  have hfile : scannedFile key d file es = [] := by
    cases key with
    | none => exact absurd rfl hkey
    | some k => exact if_neg henc
  rw [hes, hfile]
  rfl

end Scanned

/-! ## What a prune carries over -/

section Carried

variable {inp : Input} {cfg : RepoConfig} {r r' : Repository} {all : List IndexEntry}

lemma resolve_eq {r : Repo}
    (h : opened (cfg.indexKeyFor inp.key) (r.index.getD ∅) = some (file, es)) (k : Hash) :
    resolve inp cfg r k = ((latestOf es k).or (HashIndex.diskLookup file k)).bind
      (readFrame (chunkStore inp cfg r)) := by
  rw [resolve, lookupIndex_eq, h]
  rfl

lemma indexEntries_eq {r : Repo}
    (h : opened (cfg.indexKeyFor inp.key) (r.index.getD ∅) = some (file, es)) :
    indexEntries inp cfg r = some (decodeEntries (mergedFile file es)) := by
  rw [indexEntries, readIndex_entries, h]
  rfl

/-- What an open has seen, if the index has entries at all. -/
lemma opened_of_indexEntries {r : Repo} (h : indexEntries inp cfg r = some all) :
    ∃ file es, opened (cfg.indexKeyFor inp.key) (r.index.getD ∅) = some (file, es) ∧
      all = decodeEntries (mergedFile file es) := by
  rw [indexEntries, readIndex_entries] at h
  obtain ⟨⟨file, es⟩, hopened, hall⟩ := Option.map_eq_some_iff.1 h
  exact ⟨file, es, hopened, hall.symm⟩

variable (inp cfg r r') in
/-- What a prune does to index and packs, in terms of the entries that outlive it. -/
structure Carried : Prop where
  hashes : ∃ es, indexEntries inp cfg r'.dirs = some es ∧ (es.map (·.strongHash)).Nodup ∧
    ∀ h, (∃ e ∈ es, e.strongHash = h) ↔ ∃ e, Survives inp cfg r e ∧ e.strongHash = h
  reads : ∀ h p, resolve inp cfg r.dirs h = some p → (resolve inp cfg r'.dirs h = some p ↔
    ∃ e, Survives inp cfg r e ∧ e.strongHash = h ∧ readFrame (chunkStore inp cfg r.dirs) e = some p)

/-- The contract in terms of the entries that outlive a prune. -/
lemma Carried.preserved_iff (h : Carried inp cfg r r') :
    Preserved inp cfg r r' ↔ Safe inp cfg r := by
  obtain ⟨es, hes, hnodup, hhashes⟩ := h.hashes
  constructor
  · rintro ⟨hkept, es', hes', honly, -⟩
    rw [hes] at hes'
    cases hes'
    refine ⟨fun e he => ?_, fun k p hk hp => (h.reads k p hp).1 (hkept k p hk hp)⟩
    obtain ⟨e', he', heq⟩ := (hhashes e.strongHash).2 ⟨e, he, rfl⟩
    exact heq ▸ honly e' he'
  · rintro ⟨hneeded, hsurvives⟩
    refine ⟨fun k p hk hp => (h.reads k p hp).2 (hsurvives k p hk hp), es, hes, fun e he =>
      ?_, hnodup⟩
    obtain ⟨e', he', heq⟩ := (hhashes e.strongHash).1 ⟨e, he, rfl⟩
    exact heq ▸ hneeded e' he'

/-- An entry outlives a prune of nothing unless the scan loses it. -/
lemma survives_nothing (hall : indexEntries inp cfg r.dirs = some all)
    (hnothing : NothingToPrune inp r.manifests all) :
    Survives inp cfg r e ↔ e ∈ all ∧ OutlivesScan inp cfg r all e.strongHash := by
  constructor
  · rintro ⟨all', hall', hfind, -, hscan⟩
    rw [hall] at hall'
    cases hall'
    exact ⟨List.mem_of_find?_eq_some hfind, hscan⟩
  · rintro ⟨he, hscan⟩
    exact ⟨all, hall, (HashIndex.find?_strongHash hnothing.2).2 ⟨he, rfl⟩, hnothing.1 e he, hscan⟩

/-- **Nothing to prune.** The packs stay, with the entries that the scan keeps. -/
theorem carried_of_nothing (hall : indexEntries inp cfg r.dirs = some all)
    (hnothing : NothingToPrune inp r.manifests all) (hchunks : r'.dirs.chunks = r.dirs.chunks)
    (hindex : r'.dirs.index = some (readIndex (cfg.indexKeyFor inp.key)
      (inp.nbits readOpenExpectedChunks) (r.dirs.index.getD ∅)).2) :
    Carried inp cfg r r' := by
  obtain ⟨file, es, hopened, rfl⟩ := opened_of_indexEntries hall
  have hopened' : opened (cfg.indexKeyFor inp.key) (r'.dirs.index.getD ∅) =
      some (scannedFile (cfg.indexKeyFor inp.key) (r.dirs.index.getD ∅) file es, es) := by
    rw [hindex]
    exact opened_scan hopened (readIndex_eq_scan _ _ _).2
  have hpending : pendingDeltas (cfg.indexKeyFor inp.key) (r.dirs.index.getD ∅) = .ok es :=
    (opened_eq_some.1 hopened).2
  have hstays : ∀ e, Survives inp cfg r e ↔ e ∈ decodeEntries (mergedFile file es) ∧
      StaysScanned (cfg.indexKeyFor inp.key) (r.dirs.index.getD ∅) es e.strongHash := by
    intro e
    rw [survives_nothing hall hnothing, OutlivesScan, hpending, StaysScanned]
    simp [hnothing]
  have hstore : chunkStore inp cfg r'.dirs = chunkStore inp cfg r.dirs := by
    rw [chunkStore, chunkStore, hchunks]
  refine ⟨⟨_, indexEntries_eq hopened', nodup_scanned hnothing.2, fun h => ?_⟩, fun h p hp => ?_⟩
  · simp only [hstays, mem_scanned]
  · rw [resolve_eq hopened] at hp
    obtain ⟨e, he, hread⟩ := Option.bind_eq_some_iff.1 hp
    obtain ⟨hmem, rfl⟩ := mem_of_lookup he
    rw [resolve_eq hopened', hstore]
    by_cases hstay : StaysScanned (cfg.indexKeyFor inp.key) (r.dirs.index.getD ∅) es e.strongHash
    · rw [lookup_scanned hnothing.2 he hstay]
      exact iff_of_true hread ⟨e, (hstays e).2 ⟨hmem, hstay⟩, rfl, hread⟩
    · rw [lookup_lost hstay]
      refine iff_of_false (by simp) ?_
      rintro ⟨e', he', heq, -⟩
      exact hstay (heq ▸ ((hstays e').1 he').2)

/-- The first entries of the marked hashes outlive a prune of something. -/
lemma survives_something {marked : List Hash} (hall : indexEntries inp cfg r.dirs = some all)
    (hmarked : ∀ h, h ∈ marked ↔ Marked inp r.manifests h)
    (hsome : ¬ NothingToPrune inp r.manifests all) {e : IndexEntry} :
    Survives inp cfg r e ↔ e ∈ dedupEntries [] (all.filter fun e => e.strongHash ∈ marked) := by
  have hfind : (all.filter fun e' => e'.strongHash ∈ marked).find?
      (fun e' => e'.strongHash = e.strongHash) = some e ↔
        all.find? (fun e' => e'.strongHash = e.strongHash) = some e ∧ e.strongHash ∈ marked := by
    rw [List.find?_filter]
    by_cases hin : e.strongHash ∈ marked
    · have hsame : ∀ a : IndexEntry, a.strongHash ∈ marked ∧ a.strongHash = e.strongHash ↔
          a.strongHash = e.strongHash := fun a => and_iff_right_of_imp fun ha => ha ▸ hin
      simp only [decide_eq_true_eq, hsame, hin, and_true]
    · refine iff_of_false (fun h => hin ?_) fun h => hin h.2
      simpa using (List.find?_some h)
  rw [mem_dedupEntries, hfind, hmarked]
  constructor
  · rintro ⟨all', hall', hfirst, hmark, -⟩
    rw [hall] at hall'
    cases hall'
    exact ⟨List.not_mem_nil, hfirst, hmark⟩
  · rintro ⟨-, hfirst, hmark⟩
    exact ⟨all, hall, hfirst, hmark, .inr (.inr (.inl hsome))⟩

/-- **The rewrite**: the new index holds the entries that outlive the prune, at their new places. -/
theorem carried_of_rewrite {kept : List IndexEntry} (hkept : ∀ e, Survives inp cfg r e ↔ e ∈ kept)
    (hnodup : (kept.map (·.strongHash)).Nodup) {packs : Packs} {gen : Bytes} {index : Dir}
    {ds : List DeltaEntry}
    (hdirs :
      r'.dirs = ⟨some (withGeneration (writePacks ∅ packs) gen), some index, none, none, none⟩)
    (hopened : opened (cfg.indexKeyFor inp.key) index = some (mergedFile [] ds, []))
    (hcopied : List.Forall₂ (Copied (chunkStore inp cfg r.dirs) packs)
      (kept.insertionSort ByLocation) ds)
    (hsize : ∀ n file, packs.lookup n = some file → file.length < 2 ^ 64) :
    Carried inp cfg r r' := by
  have hperm : (kept.insertionSort ByLocation).Perm kept := List.perm_insertionSort _ kept
  have hds : (ds.map (·.strongHash)).Nodup := by
    rw [map_strongHash_of_copied hcopied]
    exact ((hperm.map _).nodup_iff).2 hnodup
  have hfile : ∀ e', e' ∈ decodeEntries (mergedFile [] ds) ↔ ∃ d ∈ ds, d.indexEntry = e' := by
    intro e'
    have hmap : ((ds.map DeltaEntry.indexEntry).map (·.strongHash)).Nodup := by
      rw [List.map_map]
      exact hds
    rw [mem_mergedFile, latestOf, overlay_eq_some_iff hmap]
    simp [show decodeEntries [] = [] from rfl]
  have hdirs' : opened (cfg.indexKeyFor inp.key) (r'.dirs.index.getD ∅) =
      some (mergedFile [] ds, []) := by rw [hdirs]; exact hopened
  have hnodup' : ((decodeEntries (mergedFile [] ds)).map (·.strongHash)).Nodup :=
    @mergedFile_nodup [] List.nodup_nil ds
  have hlookup : ∀ h e', (latestOf [] h).or (HashIndex.diskLookup (mergedFile [] ds) h) = some e' ↔
      ∃ d ∈ ds, d.indexEntry = e' ∧ e'.strongHash = h := by
    intro h e'
    have hsorted : PrefixSorted (decodeEntries (mergedFile [] ds)) :=
      mergedFile_sorted fun _ => List.Pairwise.nil
    rw [show latestOf [] h = none from rfl, Option.none_or, HashIndex.diskLookup_eq_find? hsorted,
      HashIndex.find?_strongHash hnodup', hfile]
    tauto
  -- where a copy lies in the packs that are in place now
  have hreads : ∀ e d, Copied (chunkStore inp cfg r.dirs) packs e d →
      readFrame (chunkStore inp cfg r'.dirs) d.indexEntry =
        readFrame (chunkStore inp cfg r.dirs) e := by
    intro e d hcopy
    have hpacks : ∀ n, (chunkStore inp cfg r'.dirs).packs.lookup n = packs.lookup n := by
      rw [hdirs]
      exact lookup_packsOf_staged packs gen
    have hcopy' : Copied (chunkStore inp cfg r.dirs) (chunkStore inp cfg r'.dirs).packs e d :=
      hcopy.mono fun n file hn => ⟨[], by rw [hpacks, hn, List.append_nil]⟩
    exact hcopy'.readFrame_eq rfl fun n file hn => hsize n file (by rw [← hpacks, hn])
  refine ⟨⟨_, indexEntries_eq hdirs', hnodup', fun h => ?_⟩, fun h p _ => ?_⟩
  · constructor
    · rintro ⟨e', he', rfl⟩
      obtain ⟨d, hd, rfl⟩ := (hfile e').1 he'
      obtain ⟨e, he, hcopy⟩ := exists_entry_of_mem hcopied hd
      exact ⟨e, (hkept e).2 (hperm.mem_iff.1 he), hcopy.hash.symm⟩
    · rintro ⟨e, he, rfl⟩
      obtain ⟨d, hd, hcopy⟩ := exists_insert_of_mem hcopied (hperm.mem_iff.2 ((hkept e).1 he))
      exact ⟨d.indexEntry, (hfile _).2 ⟨d, hd, rfl⟩, hcopy.hash⟩
  · rw [resolve_eq hdirs', Option.bind_eq_some_iff]
    constructor
    · rintro ⟨e', he', hread⟩
      obtain ⟨d, hd, rfl, rfl⟩ := (hlookup h e').1 he'
      obtain ⟨e, he, hcopy⟩ := exists_entry_of_mem hcopied hd
      exact ⟨e, (hkept e).2 (hperm.mem_iff.1 he),
        hcopy.hash.symm, by rw [← hreads e d hcopy, hread]⟩
    · rintro ⟨e, he, rfl, hread⟩
      obtain ⟨d, hd, hcopy⟩ := exists_insert_of_mem hcopied (hperm.mem_iff.2 ((hkept e).1 he))
      exact ⟨d.indexEntry,
        (hlookup _ _).2 ⟨d, hd, rfl, hcopy.hash⟩, by rw [hreads e d hcopy, hread]⟩

end Carried

/-! ## Runs -/

lemma RepoConfig.indexKeyFor_effective (cfg : RepoConfig) (key : Option MasterKey) :
    cfg.effective.indexKeyFor key = cfg.indexKeyFor key := by
  unfold RepoConfig.effective
  split <;> rfl

/-- A run that succeeds has read the index, and has returned early or rewritten the repository. -/
lemma runRecovered_ok {r r' : Repository} {result : Result} (hconfig : inp.config = .ok cfg)
    (h : runRecovered inp r = (.ok result, r')) :
    ∃ referenced all, collectReferencedHashes r.manifests = .ok referenced ∧
      indexEntries inp cfg.effective r.dirs = some all ∧
      runWith inp cfg.effective (referenced ++ inp.extraReferencedHashes) all
        { r with dirs := { r.dirs with index := some (readIndex (cfg.effective.indexKeyFor inp.key)
          (inp.nbits readOpenExpectedChunks) (r.dirs.index.getD ∅)).2 } } = (.ok result, r') := by
  unfold runRecovered at h
  simp only [hconfig] at h
  cases hcollect : collectReferencedHashes r.manifests with
  | error e => rw [hcollect] at h; cases h
  | ok referenced =>
    rw [hcollect] at h
    unfold indexEntries
    generalize readIndex (cfg.effective.indexKeyFor inp.key) (inp.nbits readOpenExpectedChunks)
      (r.dirs.index.getD ∅) = scanned at h ⊢
    obtain ⟨_ | all, d⟩ := scanned
    · cases h
    · exact ⟨referenced, all, rfl, rfl, h⟩

/-- A run that succeeds has found nothing to prune, or it has copied what outlives it. -/
lemma run_ok {r r' : Repository} {result : Result} (hdry : inp.dryRun = false)
    (hconfig : inp.config = .ok cfg) (hrun : run inp r = (.ok result, r')) :
    ∃ all, indexEntries inp cfg.effective r.dirs.recovered = some all ∧
      ((NothingToPrune inp r.manifests all ∧ r'.dirs.chunks = r.dirs.recovered.chunks ∧
        r'.dirs.index = some (readIndex (cfg.effective.indexKeyFor inp.key)
          (inp.nbits readOpenExpectedChunks) (r.dirs.recovered.index.getD ∅)).2) ∨
      (¬ NothingToPrune inp r.manifests all ∧ ∃ kept c i result0,
        (∀ e, Survives inp cfg.effective { r with dirs := r.dirs.recovered } e ↔ e ∈ kept) ∧
        (kept.map (·.strongHash)).Nodup ∧ r.dirs.recovered.chunks = c ∧
        rewriteAndSwap inp cfg.effective kept result0 ⟨⟨c, some i, none, none, none⟩, r.manifests⟩ =
          (.ok result, r'))) := by
  unfold run at hrun
  simp only [hdry, Bool.false_eq_true, if_false] at hrun
  obtain ⟨referenced, all, hcollect, hall, hwith⟩ := runRecovered_ok hconfig hrun
  have hmarked : ∀ h, h ∈ referenced ++ inp.extraReferencedHashes ↔ Marked inp r.manifests h := by
    intro h
    rw [List.mem_append, mem_collectReferencedHashes hcollect]
    rfl
  have hnothing : NothingToPrune inp r.manifests all ↔
      (∀ e ∈ all, e.strongHash ∈ referenced ++ inp.extraReferencedHashes) ∧
        (all.map (·.strongHash)).Nodup := by
    simp only [NothingToPrune, ← hmarked]
  refine ⟨all, hall, ?_⟩
  unfold runWith at hwith
  simp only [hdry, Bool.false_eq_true, if_false] at hwith
  split_ifs at hwith with hzero
  · obtain ⟨-, rfl⟩ := Prod.mk.inj hwith
    exact .inl ⟨hnothing.2 ((nothingToPrune_iff _).2 hzero), rfl, rfl⟩
  · obtain ⟨c, i, hclean⟩ := recovered_clean r.dirs
    have hsome : ¬ NothingToPrune inp r.manifests all := fun h =>
      hzero ((nothingToPrune_iff _).1 (hnothing.1 h))
    have hkept := fun e => @survives_something inp cfg.effective
      { r with dirs := r.dirs.recovered } all _ hall hmarked hsome e
    simp only [hclean] at hwith hkept ⊢
    exact .inr ⟨hsome, _, c, _, _, hkept, nodup_dedupEntries _ _, rfl, hwith⟩

/-- **Prune preserves**, exactly in the repositories that are safe for it. After a prune that
succeeds, every needed hash resolves to the same frame as before and the index holds needed hashes
only, each once, if and only if the entries that outlive it are needed and cover every needed hash
that resolved.

**Proof sketch.** A prune that finds nothing to drop leaves the packs and, up to what closing the
scan removes, the index. Any other copies the frame of the first entry of each marked hash: the
invariant of the copy ties each insert of the new index to its frame. -/
theorem run_preserves_iff {inp : Input} {cfg : RepoConfig} {r r' : Repository} {result : Result}
    (hdry : inp.dryRun = false) (hconfig : inp.config = .ok cfg)
    (hlaw : ∀ k ∈ cfg.indexKeyFor inp.key, ∀ nonce data,
      k.decryptWithAAD (k.encryptWithAAD nonce data) = some data)
    (hrun : run inp r = (.ok result, r'))
    (hsize : ∀ n file, (r'.dirs.chunks.getD ∅).lookup (.pack n) = some file →
      file.length < 2 ^ 64) :
    Preserved inp cfg.effective { r with dirs := r.dirs.recovered } r' ↔
      Safe inp cfg.effective { r with dirs := r.dirs.recovered } := by
  apply Carried.preserved_iff
  obtain ⟨all, hall, ⟨hnothing, hchunks, hindex⟩ |
    ⟨-, kept, c, i, result0, hkept, hnodup, hc, hrewrite⟩⟩ := run_ok hdry hconfig hrun
  · exact carried_of_nothing hall hnothing hchunks hindex
  · rw [← RepoConfig.indexKeyFor_effective] at hlaw
    obtain ⟨packs, index, ds, hdirs, hopened, hcopied⟩ := rewriteAndSwap_ok hlaw hrewrite
    rw [← hc] at hcopied
    refine carried_of_rewrite hkept hnodup hdirs hopened hcopied fun n file hn => hsize n file ?_
    rw [hdirs, Option.getD_some, ← lookup_packsOf, lookup_packsOf_staged, hn]

/-! ## Safe repositories -/

/-- The index file that an open sees is sorted. -/
def IndexSorted (inp : Input) (cfg : RepoConfig) (r : Repo) : Prop :=
  ∀ file es, opened (cfg.indexKeyFor inp.key) (r.index.getD ∅) = some (file, es) →
    PrefixSorted (decodeEntries file)

/-- **A safe repository**: every backup loads, none has both embedded entries and a sidecar, and the
index file is sorted and encrypted if there is a key. -/
theorem safe_of_unshadowed {r : Repository} (hload : ∀ id, (r.manifests.backup id).Loads)
    (hown : ∀ id, (r.manifests.backup id).Unshadowed)
    (hkey : cfg.indexKeyFor inp.key = none ∨ ((r.dirs.index.getD ∅).lookup .hashIndexEnc).isSome)
    (hsorted : IndexSorted inp cfg r.dirs) : Safe inp cfg r := by
  have hmarked : ∀ h, Marked inp r.manifests h ↔ Needed inp r.manifests h := by
    intro h
    rw [Marked, Needed, Manifests.via_streamed_iff hload hown]
  refine ⟨fun e ⟨_, _, _, hmark, _⟩ => (hmarked _).1 hmark, fun h p hneeded hp => ?_⟩
  unfold resolve at hp
  rw [lookupIndex_eq] at hp
  obtain ⟨e, he, hread⟩ := Option.bind_eq_some_iff.1 hp
  obtain ⟨⟨file, es⟩, hopened, hlookup⟩ := Option.bind_eq_some_iff.1 he
  rw [lookup_eq_find? (hsorted file es hopened)] at hlookup
  have hhash : e.strongHash = h := by simpa using List.find?_some hlookup
  subst hhash
  exact ⟨e, ⟨_, indexEntries_eq hopened, hlookup, (hmarked _).2 hneeded,
    hkey.imp_right .inl⟩, rfl, hread⟩

/-! ## Two prunes -/

/-- A prune of a repository without a key. -/
def pruneInput : Input := { dryInput with dryRun := false }

/-- The hash of the chunk that a backup references, and of one that none does. -/
def usedHash : Hash := .fill 7

/-- See `usedHash`. -/
def orphanHash : Hash := .fill 8

/-- A repository with two chunks in one pack and one backup. -/
def twoChunks (backup : BackupFiles) : Repository where
  dirs := ⟨some ((∅ : RepoDir).insert (FileName.pack 0) (encodeFrame [1] 1 ++ encodeFrame [2] 1)),
    some ((∅ : RepoDir).insert FileName.hashIndex
      (encodeEntries [⟨usedHash, 0, 9, 1⟩, ⟨orphanHash, 0, 0, 1⟩])), none, none, none⟩
  manifests := ⟨none, [("b", backup)], []⟩

/-- A backup whose manifest embeds its one entry. -/
def legacyBackup (sidecar : Option Bytes) : BackupFiles :=
  ⟨none, some (.ok ⟨[usedHash], []⟩), sidecar⟩

/-- The configuration of the two prunes. -/
def pruneConfig : RepoConfig := ⟨0, false, .none, .ok none⟩

lemma twoChunks_backup (b : BackupFiles) (id : String) :
    (twoChunks b).manifests.backup id = b ∨ (twoChunks b).manifests.backup id = .missing := by
  by_cases hid : "b" = id
  · exact .inl (by simp [Manifests.backup, twoChunks, hid])
  · exact .inr (by simp [Manifests.backup, twoChunks, hid])

lemma twoChunks_loads (sidecar : Option Bytes) (id : String) :
    ((twoChunks (legacyBackup sidecar)).manifests.backup id).Loads := by
  rcases twoChunks_backup (legacyBackup sidecar) id with h | h <;> rw [h]
  · exact fun _ => ⟨_, rfl⟩
  · exact fun hlisted => by cases hlisted

lemma twoChunks_unshadowed (id : String) :
    ((twoChunks (legacyBackup none)).manifests.backup id).Unshadowed := by
  rcases twoChunks_backup (legacyBackup none) id with h | h <;> rw [h]
  · rintro j - - ⟨⟩
  · rintro j - ⟨⟩

theorem run_preserves_iff_twoChunks :
    pruneInput.dryRun = false ∧
      (run pruneInput (twoChunks (legacyBackup none))).1.toOption.isSome ∧
      Preserved pruneInput pruneConfig.effective
        { twoChunks (legacyBackup none) with
          dirs := (twoChunks (legacyBackup none)).dirs.recovered }
        (run pruneInput (twoChunks (legacyBackup none))).2 := by
  have hok : (run pruneInput (twoChunks (legacyBackup none))).1.toOption.isSome := by decide +kernel
  obtain ⟨result, hresult⟩ : ∃ result,
      run pruneInput (twoChunks (legacyBackup none)) =
        (.ok result, (run pruneInput (twoChunks (legacyBackup none))).2) := by
    generalize run pruneInput (twoChunks (legacyBackup none)) = out at hok
    obtain ⟨_ | result, r'⟩ := out
    · cases hok
    · exact ⟨result, rfl⟩
  have hopened : opened none ((twoChunks (legacyBackup none)).dirs.recovered.index.getD ∅) =
      some (encodeEntries [⟨usedHash, 0, 9, 1⟩, ⟨orphanHash, 0, 0, 1⟩], []) := by decide +kernel
  refine ⟨rfl, hok, (run_preserves_iff rfl rfl (by rintro k ⟨⟩) hresult ?_).2 ?_⟩
  · have hsmall :
      ∀ f ∈ ((run pruneInput (twoChunks (legacyBackup none))).2.dirs.chunks.getD ∅).entries,
        f.2.length < 2 ^ 64 := by decide +kernel
    exact fun n file hn => hsmall ⟨_, file⟩ (AList.mem_lookup_iff.1 hn)
  · refine safe_of_unshadowed (twoChunks_loads none) twoChunks_unshadowed (.inl rfl)
      fun file es h => ?_
    obtain ⟨rfl, rfl⟩ : _ ∧ _ := Prod.mk.inj (Option.some.inj (hopened.symm.trans h))
    rw [decodeEntries_encodeEntries]
    unfold PrefixSorted
    decide

/-- **A prune loses a chunk.** The manifest of a backup embeds its entries and an empty sidecar lies
next to it: the walk of a prune reads the sidecar. -/
theorem prune_loses_chunk :
    (∀ id, ((twoChunks (legacyBackup (some []))).manifests.backup id).Loads) ∧
      (∀ h, Needed pruneInput (twoChunks (legacyBackup (some []))).manifests h →
        (resolve pruneInput pruneConfig.effective (twoChunks (legacyBackup (some []))).dirs
          h).isSome) ∧
      (twoChunks (legacyBackup (some []))).dirs.recovered =
      (twoChunks (legacyBackup (some []))).dirs ∧
      (run pruneInput (twoChunks (legacyBackup (some [])))).1.toOption.isSome ∧
      (twoChunks (legacyBackup (some []))).manifests.References usedHash ∧
      resolve pruneInput pruneConfig.effective
        (run pruneInput (twoChunks (legacyBackup (some [])))).2.dirs
        usedHash = none := by
  have hids : (twoChunks (legacyBackup (some []))).manifests.ids = ["b"] := by decide +kernel
  refine ⟨twoChunks_loads (some []), fun h hneeded => ?_,
    rfl, by decide +kernel, ?_, by decide +kernel⟩
  · obtain ⟨id, hid, hown | ⟨d, hd, -⟩⟩ := hneeded.resolve_right List.not_mem_nil
    · rw [hids, List.mem_singleton] at hid
      subst hid
      obtain rfl : h = usedHash := List.mem_singleton.1 hown
      decide +kernel
    · rw [hids, List.mem_singleton] at hid
      subst hid
      cases hd
  · exact ⟨"b", by rw [hids]; exact List.mem_singleton_self _, .inl (.head _)⟩

end DiskNexus.Prune
