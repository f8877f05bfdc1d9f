import DiskNexus.Index.FiniteMap
import DiskNexus.Prune.ReadIndex

/-!
# What a repository resolves a hash to

A reader looks a hash up in the entries of the pending deltas and then in the sorted file, and reads
the frame that the entry places. A lookup and a scan are functions of what an open sees: the
plaintext of the index file and the entries of the deltas.

## Main results

`lookupIndex_eq`, `readIndex_entries`, `mergedFile_perm`
-/

namespace DiskNexus.Prune

open Binary Sha256 Files Index Store

/-! ## Specification -/

/-- Open the index for reading and look a hash up. -/
def lookupIndex (key : Option Cipher) (nbits : UInt64) (d : Dir) (h : Hash) :
    Option IndexEntry :=
  match newDedupIndex key nbits true d with
  | (.error _, _) => none
  | (.ok x, _) => x.lookupDirect h

/-- The frame that an index entry places, and the chunk in it. -/
def readFrame (s : ChunkStore) (e : IndexEntry) : Option (Bytes × Bytes) :=
  match s.retrieveRaw e.packNumber.toNat e.storeOffset.toNat,
      s.retrieve e.packNumber.toNat e.storeOffset.toNat with
  | .ok frame, .ok data => some (frame, data)
  | _, _ => none

/-- The entries of deltas, the last of each hash. -/
def latestOf (es : List DeltaEntry) : Hash → Option IndexEntry :=
  overlay (fun _ => none) (es.map DeltaEntry.indexEntry)

/-! ## Opening for reading -/

/-- The hash index that an open for reading ends with, unless it fails. -/
def openedIndex (key : Option Cipher) (nbits : UInt64) (d : Dir) : Option HashIndex :=
  (newDedupIndex key nbits true d).1.toOption.map (·.index)

lemma openedIndex_eq (key : Option Cipher) (nbits : UInt64) (d : Dir) :
    openedIndex key nbits d =
      (opened key d).map fun p => insertDeltas ⟨p.1, ∅, false, true, none⟩ p.2 := by
  rw [openedIndex, newDedupIndex_eq, opened]
  rcases openFiles_eq key nbits d with ⟨hnone, e, d', hfiles, -⟩ |
    ⟨d2, hfiles, hfile, -, -, hrest⟩
  · rw [hfiles, hnone]
    rfl
  have hindex : newHashIndex d2 true =
      (.ok ⟨(d2.lookup .hashIndex).getD [], ∅, false, true, none⟩, (newHashIndex d2 true).2) := rfl
  have hpending : pendingDeltas key (newHashIndex d2 true).2 = pendingDeltas key d := by
    rw [(newHashIndex_leaves d2 none).pendingDeltas key,
      pendingDeltas_congr fun _ _ => hrest _ (by simp) (by simp)]
  rw [hfiles, hfile]
  simp only [openRest]
  rw [hindex]
  simp only [hpending]
  cases pendingDeltas key d with
  | error e => rfl
  | ok es => exact congrArg some (DedupIndex.applyDelta_fields _ es).1

/-! ## Lookups -/

lemma get_insertDeltas (x : HashIndex) (es : List DeltaEntry) :
    (insertDeltas x es).entries.get = overlay x.entries.get (es.map DeltaEntry.indexEntry) := by
  induction es generalizing x with
  | nil => rfl
  | cons e es ih =>
    refine (ih _).trans ?_
    rw [List.map_cons, overlay_cons]
    congr 1
    exact Buffer.get_insert x.entries e.indexEntry

/-- The buffer of an open for reading. -/
lemma get_opened (file : Bytes) (es : List DeltaEntry) :
    (insertDeltas ⟨file, ∅, false, true, none⟩ es).entries.get = latestOf es :=
  get_insertDeltas _ es

variable {es : List DeltaEntry} {h : Hash} {e : IndexEntry} {file : Bytes}

lemma latestOf_isSome :
    (latestOf es h).isSome ↔ h ∈ es.map (·.strongHash) := by
  rw [latestOf, isSome_overlay, List.map_map]
  simp only [Option.isSome_none, Bool.false_eq_true, false_or]
  rfl

lemma strongHash_of_latestOf (he : latestOf es h = some e) : e.strongHash = h :=
  ((mem_of_overlay he).resolve_right (by simp)).2

/-- **A lookup** finds the last delta entry of a hash, or what the file holds under it. -/
theorem lookupIndex_eq (key : Option Cipher) (nbits : UInt64) (d : Dir) (h : Hash) :
    lookupIndex key nbits d h =
      (opened key d).bind fun p => (latestOf p.2 h).or (HashIndex.diskLookup p.1 h) := by
  have hindex : lookupIndex key nbits d h =
      (openedIndex key nbits d).bind fun x => x.lookup h := by
    unfold lookupIndex openedIndex
    rcases newDedupIndex key nbits true d with ⟨_ | x, d'⟩ <;> rfl
  rw [hindex, openedIndex_eq]
  cases opened key d with
  | none => rfl
  | some p =>
    obtain ⟨file, es⟩ := p
    obtain ⟨hfile, -, hhtab, -⟩ := insertDeltas_fields ⟨file, ∅, false, true, none⟩ es
    simp only [Option.map_some, Option.bind_some, HashIndex.lookup, hfile, hhtab, get_opened]
    cases latestOf es h <;> rfl

/-- **A scan** reads the entries of the merged file. -/
theorem readIndex_entries (key : Option Cipher) (nbits : UInt64) (d : Dir) :
    (readIndex key nbits d).1.toOption =
      (opened key d).map fun p => decodeEntries (mergedFile p.1 p.2) := by
  rw [(readIndex_eq_scan key nbits d).1, scan_eq, opened]
  cases openedFile key d with
  | none => rfl
  | some file => cases pendingDeltas key d <;> rfl

/-! ## The merged file -/

/-- **The entries of the merged file**: those of the deltas, and the others of the file. -/
theorem mergedFile_perm (file : Bytes) (es : List DeltaEntry) :
    (decodeEntries (mergedFile file es)).Perm
      ((decodeEntries file).filter (fun e => (latestOf es e.strongHash).isNone) ++
        (insertDeltas ⟨file, ∅, false, true, none⟩ es).entries.values) := by
  unfold mergedFile
  split_ifs with hes
  · subst hes
    simp [latestOf, insertDeltas, HashIndex.values_empty]
  · rw [decodeEntries_encodeEntries]
    refine (List.mergeSort_perm _ _).trans (.of_eq ?_)
    obtain ⟨hfile, -, hhtab, -⟩ := insertDeltas_fields ⟨file, ∅, false, true, none⟩ es
    rw [HashIndex.collect, hhtab, hfile, get_opened]

/-- An entry of the merged file. -/
lemma mem_mergedFile :
    e ∈ decodeEntries (mergedFile file es) ↔ latestOf es e.strongHash = some e ∨
      latestOf es e.strongHash = none ∧ e ∈ decodeEntries file := by
  rw [(mergedFile_perm file es).mem_iff, List.mem_append, Buffer.mem_values, get_opened,
    List.mem_filter, Option.isNone_iff_eq_none]
  tauto

/-- The merge keeps hashes distinct. -/
lemma mergedFile_nodup {file : Bytes} (h : ((decodeEntries file).map (·.strongHash)).Nodup)
    (es : List DeltaEntry) : ((decodeEntries (mergedFile file es)).map (·.strongHash)).Nodup := by
  rw [((mergedFile_perm file es).map _).nodup_iff, List.map_append, List.nodup_append']
  refine ⟨h.sublist (List.filter_sublist.map _), Buffer.values_nodup _, ?_⟩
  intro k hk hk'
  obtain ⟨e, he, rfl⟩ := List.mem_map.1 hk
  obtain ⟨e', he', heq⟩ := List.mem_map.1 hk'
  rw [Buffer.mem_values, get_opened, heq] at he'
  simp [he'] at he

/-- The merged file is sorted, unless there was nothing to merge. -/
lemma mergedFile_sorted (h : es = [] → PrefixSorted (decodeEntries file)) :
    PrefixSorted (decodeEntries (mergedFile file es)) := by
  unfold mergedFile
  split_ifs with hes
  · exact h hes
  · rw [decodeEntries_encodeEntries]
    exact prefixSorted_sortEntries _

/-- What a lookup finds, a scan reads. -/
lemma mem_of_lookup (he : (latestOf es h).or (HashIndex.diskLookup file h) = some e) :
    e ∈ decodeEntries (mergedFile file es) ∧ e.strongHash = h := by
  rw [mem_mergedFile]
  rcases Option.or_eq_some_iff.1 he with hlatest | ⟨hnone, hdisk⟩
  · have hhash := strongHash_of_latestOf hlatest
    rw [hhash]
    exact ⟨.inl hlatest, rfl⟩
  · obtain ⟨hmem, hhash⟩ := HashIndex.mem_of_diskLookup hdisk
    rw [hhash]
    exact ⟨.inr ⟨hnone, hmem⟩, rfl⟩

/-- The entry of a hash in a buffer. -/
lemma find?_values (b : Buffer) (h : Hash) : b.values.find? (fun e => e.strongHash = h) =
    b.get h := by
  refine Option.ext fun e => ?_
  rw [HashIndex.find?_strongHash b.values_nodup, Buffer.mem_values]
  constructor
  · rintro ⟨he, rfl⟩
    exact he
  · intro he
    have hhash := Buffer.strongHash_of_get he
    exact ⟨hhash ▸ he, hhash⟩

/-- The sort of a flush keeps the order of the entries of one hash. -/
lemma find?_sortEntries (es : List IndexEntry) (h : Hash) :
    (HashIndex.sortEntries es).find? (fun e => e.strongHash = h) =
      es.find? fun e => e.strongHash = h := by
  set own := es.filter fun e => e.strongHash = h with hown
  have hhash : ∀ e ∈ own, e.strongHash = h := fun e he => by
    simpa using (List.mem_filter.1 he).2
  have hpairwise : own.Pairwise fun a b =>
      decide (hashPrefix8 a.strongHash ≤ hashPrefix8 b.strongHash) = true := by
    refine List.pairwise_iff_forall_sublist.2 fun {a b} hab => ?_
    have ha := hhash a (hab.subset (by simp))
    have hb := hhash b (hab.subset (by simp))
    simp [ha, hb]
  have hsub : own.Sublist (HashIndex.sortEntries es) :=
    List.sublist_mergeSort (fun a b c hab hbc => by simp only [decide_eq_true_eq] at *; omega)
      (fun a b => by simp only [Bool.or_eq_true, decide_eq_true_eq]; omega) hpairwise
      List.filter_sublist
  have hfilter : (HashIndex.sortEntries es).filter (fun e => e.strongHash = h) = own := by
    have hperm : ((HashIndex.sortEntries es).filter fun e => e.strongHash = h).Perm own :=
      (List.mergeSort_perm es _).filter _
    have hself : own.filter (fun e => e.strongHash = h) = own :=
      List.filter_eq_self.2 fun e he => by simpa using hhash e he
    have hsub' := hsub.filter fun e => decide (e.strongHash = h)
    rw [hself] at hsub'
    exact (hsub'.eq_of_length hperm.length_eq.symm).symm
  rw [← List.head?_filter, ← List.head?_filter, hfilter, hown]

/-- **A lookup finds the first entry that a scan reads**, if the index file is sorted. -/
theorem lookup_eq_find? (hs : PrefixSorted (decodeEntries file)) (es : List DeltaEntry) (h : Hash) :
    (latestOf es h).or (HashIndex.diskLookup file h) =
      (decodeEntries (mergedFile file es)).find? fun e => e.strongHash = h := by
  rw [HashIndex.diskLookup_eq_find? hs]
  unfold mergedFile
  split_ifs with hes
  · subst hes
    rfl
  · obtain ⟨hfile, -, hhtab, -⟩ := insertDeltas_fields ⟨file, ∅, false, true, none⟩ es
    rw [decodeEntries_encodeEntries, find?_sortEntries, HashIndex.collect, hhtab, hfile, get_opened,
      List.find?_append, find?_values, get_opened]
    cases hlatest : latestOf es h with
    | none =>
      have hsame : ∀ e : IndexEntry,
          (latestOf es e.strongHash).isNone = true ∧ e.strongHash = h ↔ e.strongHash = h :=
        fun e => and_iff_right_of_imp fun he => by rw [he, hlatest]; rfl
      simp only [List.find?_filter, decide_eq_true_eq, hsame, Option.none_or, Option.or_none]
    | some e =>
      have hgone : ((decodeEntries file).filter fun e' => (latestOf es e'.strongHash).isNone).find?
          (fun e' => e'.strongHash = h) = none := by
        refine List.find?_eq_none.2 fun e' he' hhash => ?_
        have hnone := (List.mem_filter.1 he').2
        rw [show e'.strongHash = h by simpa using hhash, hlatest] at hnone
        cases hnone
      exact (congrArg (fun o => Option.or o (some e)) hgone).symm

end DiskNexus.Prune
