import DiskNexus.Prune.Run

/-!
# What the scan of an index reads and leaves

A prune opens the index for reading, which merges the pending deltas into the write buffer, reads
all entries, which flushes that buffer into `hash-index.db`, and discards the session.
-/

namespace DiskNexus.Prune

open Binary Sha256 Files Index Store

/-! ## Specification -/

/-- The index file with pending deltas merged into it. -/
def mergedFile (file : Bytes) (es : List DeltaEntry) : Bytes :=
  if es = [] then file
  else encodeEntries (HashIndex.sortEntries (insertDeltas ⟨file, ∅, false, true, none⟩ es).collect)

/-- The entries that a scan reads, unless it fails, and what it leaves. -/
structure Scan where
  entries : Option (List IndexEntry)
  bloom : Option Bytes
  hashIndex : Option Bytes

/-- A scan without a key. -/
def scanPlain (d : Dir) : Scan :=
  let file := (d.lookup .hashIndex).getD []
  if (d.lookup .hashIndexEnc).isSome ∨ (d.lookup .bloomEnc).isSome ∨
    !bloomLoads (d.lookup .bloom) then
    ⟨none, d.lookup .bloom, d.lookup .hashIndex⟩
  else
    match pendingDeltas none d with
    | .error _ => ⟨none, d.lookup .bloom, some file⟩
    | .ok es =>
        ⟨some (decodeEntries (mergedFile file es)), d.lookup .bloom, some (mergedFile file es)⟩

/-- A scan under a key. -/
def scanKeyed (k : Cipher) (d : Dir) : Scan :=
  match workingCopy k d .bloomEnc .bloom with
  | none => ⟨none, d.lookup .bloom, d.lookup .hashIndex⟩
  | some bloom =>
    match workingCopy k d .hashIndexEnc .hashIndex with
    | none => ⟨none, bloom, d.lookup .hashIndex⟩
    | some file =>
      if bloomLoads bloom then
        match pendingDeltas (some k) d with
        | .error _ => ⟨none, none, some (file.getD [])⟩
        | .ok es => ⟨some (decodeEntries (mergedFile (file.getD []) es)), none, none⟩
      else ⟨none, bloom, file⟩

/-- A scan. -/
def scan (key : Option Cipher) (d : Dir) : Scan :=
  match key with
  | none => scanPlain d
  | some k => scanKeyed k d

/-! ## The flush of a scan -/

/-- The flush of a scanned index succeeds, and the merged file is in use. -/
lemma flush_insertDeltas (file : Bytes) (es : List DeltaEntry) :
    (insertDeltas ⟨file, ∅, false, true, none⟩ es).flush =
      .ok ⟨mergedFile file es, ∅, false, true, none⟩ := by
  obtain ⟨-, hmode, -, hdirty⟩ := insertDeltas_fields ⟨file, ∅, false, true, none⟩ es
  unfold mergedFile
  cases es with
  | nil => rfl
  | cons e es =>
    have hclean : (insertDeltas ⟨file, ∅, false, true, none⟩ (e :: es)).isClean = false := by
      rw [HashIndex.isClean, hdirty]
      rfl
    unfold HashIndex.flush
    simp only [hclean, hmode, Bool.false_eq_true, if_false, if_true, reduceCtorEq]

/-- What it does to the files. -/
lemma lookup_flush_insertDeltas {d : Dir} {file : Bytes} (h : d.lookup .hashIndex = some file)
    (es : List DeltaEntry) :
    (runOps d (insertDeltas ⟨file, ∅, false, true, none⟩ es).flushOps).lookup .hashIndex =
        some (mergedFile file es) ∧
      ∀ f, f.Persistent → f ≠ .hashIndex →
        (runOps d (insertDeltas ⟨file, ∅, false, true, none⟩ es).flushOps).lookup f =
          d.lookup f := by
  have hfile : d.lookup .hashIndex =
      some (insertDeltas ⟨file, ∅, false, true, none⟩ es).file := by
    rw [(insertDeltas_fields _ _).1, h]
  refine ⟨HashIndex.lookup_runOps_flushOps (flush_insertDeltas file es) hfile, fun f hf hne => ?_⟩
  rw [lookup_runOps (HashIndex.flushOps_untouched hf.not_working hne.symm _)]

/-! ## The scan -/

/-- What a scan of `d` leaves: two files that it may change, and all others as they were. -/
structure Leaves (d d' : Dir) (s : Scan) : Prop where
  bloom : d'.lookup .bloom = s.bloom
  hashIndex : d'.lookup .hashIndex = s.hashIndex
  rest : ∀ f, f.Persistent → f ≠ .bloom → f ≠ .hashIndex → d'.lookup f = d.lookup f

/-- A scan that leaves everything as it was. -/
lemma Leaves.same (d : Dir) (entries : Option (List IndexEntry)) :
    Leaves d d ⟨entries, d.lookup .bloom, d.lookup .hashIndex⟩ :=
  ⟨rfl, rfl, fun _ _ _ _ => rfl⟩

lemma Leaves.trans {d d1 d' : Dir} {s s' : Scan} (h : Leaves d d1 s) (h' : Leaves d1 d' s') :
    Leaves d d' s' :=
  ⟨h'.bloom, h'.hashIndex, fun f hf h1 h2 => (h'.rest f hf h1 h2).trans (h.rest f hf h1 h2)⟩

/-- Deltas are among the files that a scan leaves alone. -/
lemma Leaves.pendingDeltas {d d' : Dir} {s : Scan} (h : Leaves d d' s) (key : Option Cipher) :
    pendingDeltas key d' = pendingDeltas key d :=
  pendingDeltas_congr (fun _ _ => h.rest _ trivial (by simp) (by simp)) key

/-- `NewHashIndex` for a scan. -/
lemma newHashIndex_leaves (d : Dir) (entries : Option (List IndexEntry)) :
    Leaves d (newHashIndex d true).2
      ⟨entries, d.lookup .bloom, some ((d.lookup .hashIndex).getD [])⟩ := by
  refine ⟨?_, ?_, fun f hf _ hne => ?_⟩
  · rw [lookup_newHashIndex not_working_bloom, AList.lookup_insert_ne (by simp)]
  · rw [lookup_newHashIndex HashIndex.not_working_hashIndex, AList.lookup_insert]
  · rw [lookup_newHashIndex hf.not_working, AList.lookup_insert_ne hne]

/-- The part of a scan after the bloom filter. -/
def scanFrom (key : Option Cipher) (d : Dir) : Scan :=
  let file := (d.lookup .hashIndex).getD []
  match pendingDeltas key d with
  | .error _ => ⟨none, d.lookup .bloom, some file⟩
  | .ok es => ⟨some (decodeEntries (mergedFile file es)),
      if key.isSome then none else d.lookup .bloom,
      if key.isSome then none else some (mergedFile file es)⟩

/-- Closing a scan removes the plaintext under a key, and nothing that lasts. -/
lemma closeDiscard_leaves {x : DedupIndex} {key : Option Cipher} (hkey : x.key = key)
    (hdelta : x.delta = none) (hhtab : x.index.htab = none) {d : Dir} {bloom file : Option Bytes}
    (hbloom : d.lookup .bloom = bloom) (hfile : d.lookup .hashIndex = file)
    (entries : Option (List IndexEntry)) :
    Leaves d (runOps d x.closeDiscardOps) ⟨entries, if key.isSome then none else bloom,
      if key.isSome then none else file⟩ := by
  have hops : x.closeDiscardOps =
      if key.isSome then [.remove .bloom, .remove .hashIndex] else [] := by
    simp [DedupIndex.closeDiscardOps, DedupIndex.discardDeltaOps, HashIndex.closeDiscardOps, hdelta,
      hhtab, hkey]
  subst hbloom hfile
  rw [hops]
  cases key.isSome with
  | false => exact .same d entries
  | true =>
    have hrun : runOps d [.remove .bloom, .remove .hashIndex] =
        (d.erase .bloom).erase .hashIndex := rfl
    simp only [if_true, hrun]
    refine ⟨?_, AList.lookup_erase _ _, fun f _ h1 h2 => ?_⟩
    · rw [AList.lookup_erase_ne (by simp), AList.lookup_erase]
    · rw [AList.lookup_erase_ne h2, AList.lookup_erase_ne h1]

/-- A scan from the bloom filter on. -/
lemma readIndex_from {key : Option Cipher} {nbits : UInt64} {d d2 : Dir}
    {p : BloomFilter × Bool} (hfiles : openFiles key nbits d = (.ok p, d2)) :
    (readIndex key nbits d).1.toOption = (scanFrom key d2).entries ∧
      Leaves d2 (readIndex key nbits d).2 (scanFrom key d2) := by
  set file := (d2.lookup .hashIndex).getD [] with hfile
  have hindex : newHashIndex d2 true =
      (.ok ⟨file, ∅, false, true, none⟩, (newHashIndex d2 true).2) := rfl
  have hleaves := newHashIndex_leaves d2 none
  unfold readIndex scanFrom
  rw [newDedupIndex_eq, hfiles]
  simp only [openRest]
  rw [hindex]
  simp only [hleaves.pendingDeltas key]
  cases hes : pendingDeltas key d2 with
  | error e =>
    refine ⟨rfl, hleaves.trans ⟨?_, ?_, fun f hf _ _ => ?_⟩⟩
    · rw [AList.lookup_erase_ne (by simp), hleaves.bloom]
    · rw [AList.lookup_erase_ne (by simp), hleaves.hashIndex]
    · refine AList.lookup_erase_ne ?_
      rintro rfl
      exact hf
  | ok es =>
    obtain ⟨hx, hkey, hdelta, -⟩ := DedupIndex.applyDelta_fields
      ⟨p.1, ⟨file, ∅, false, true, none⟩, key, p.2 && !true, none⟩ es
    obtain ⟨hflushed, hrest⟩ := lookup_flush_insertDeltas hleaves.hashIndex es
    have hbloom : (runOps (newHashIndex d2 true).2
        (insertDeltas ⟨file, ∅, false, true, none⟩ es).flushOps).lookup .bloom =
          d2.lookup .bloom := by
      rw [hrest .bloom trivial (by simp), hleaves.bloom]
    simp only [hx, flush_insertDeltas]
    refine ⟨by simp [Except.toOption, HashIndex.values_empty, hfile], ?_⟩
    refine hleaves.trans (.trans (s := ⟨none, _, _⟩)
      ⟨rfl, rfl, fun f hf _ hne => hrest f hf hne⟩ ?_)
    apply closeDiscard_leaves
    · exact hkey
    · exact hdelta
    · rfl
    · exact hbloom
    · exact hflushed

/-- A scan fails where an open fails, and leaves what that leaves. -/
lemma scan_eq (key : Option Cipher) (d : Dir) :
    scan key d = match openedFile key d with
      | none => ⟨none, (refusedFiles key d).1, (refusedFiles key d).2⟩
      | some file =>
        match pendingDeltas key d with
        | .error _ => ⟨none, if key.isSome then none else d.lookup .bloom, some file⟩
        | .ok es => ⟨some (decodeEntries (mergedFile file es)),
            if key.isSome then none else d.lookup .bloom,
            if key.isSome then none else some (mergedFile file es)⟩ := by
  cases key with
  | none =>
    simp only [scan, scanPlain, openedFile]
    split
    · rfl
    · cases pendingDeltas none d <;> rfl
  | some k =>
    simp only [scan, scanKeyed, openedFile, refusedFiles]
    cases workingCopy k d .bloomEnc .bloom with
    | none => rfl
    | some bloom =>
      cases workingCopy k d .hashIndexEnc .hashIndex with
      | none => rfl
      | some file =>
        simp only
        split
        · cases pendingDeltas (some k) d <;> rfl
        · rfl

/-- **The scan** reads the entries and leaves the files of its specification. -/
theorem readIndex_eq_scan (key : Option Cipher) (nbits : UInt64) (d : Dir) :
    (readIndex key nbits d).1.toOption = (scan key d).entries ∧
      Leaves d (readIndex key nbits d).2 (scan key d) := by
  rw [scan_eq]
  rcases openFiles_eq key nbits d with ⟨hnone, e, d', hfiles, hrefused, hrest⟩ |
    ⟨d2, hfiles, hfile, -, hbloom, hrest⟩
  · have hread : readIndex key nbits d = (.error s!"opening index: {e}", d') := by
      simp only [readIndex, newDedupIndex_eq, hfiles]
    obtain ⟨hb, hi⟩ := Prod.mk.inj hrefused
    rw [hread, hnone]
    exact ⟨rfl, hb, hi, fun f _ h1 h2 => hrest f h1 h2⟩
  · have hleaves : Leaves d d2 ⟨none, _, _⟩ := ⟨hbloom, rfl, fun f _ h1 h2 => hrest f h1 h2⟩
    obtain ⟨hentries, hscan⟩ := readIndex_from hfiles
    have heq : scanFrom key d2 = match pendingDeltas key d with
        | .error _ => ⟨none, if key.isSome then none else d.lookup .bloom,
            some ((d2.lookup .hashIndex).getD [])⟩
        | .ok es => ⟨some (decodeEntries (mergedFile ((d2.lookup .hashIndex).getD []) es)),
            if key.isSome then none else d.lookup .bloom,
            if key.isSome then none
              else some (mergedFile ((d2.lookup .hashIndex).getD []) es)⟩ := by
      rw [scanFrom, hleaves.pendingDeltas key, hbloom]
      cases pendingDeltas key d <;> cases key <;> rfl
    rw [heq] at hentries hscan
    rw [hfile]
    exact ⟨hentries, hleaves.trans hscan⟩

end DiskNexus.Prune
