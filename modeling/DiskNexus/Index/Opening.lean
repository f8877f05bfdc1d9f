import DiskNexus.Index.Dedup

/-!
# An open, with or without a key

What an open makes of an index directory is a function of the bloom filter, of the index file and of
the entries of the pending deltas. Under a key the first two are the plaintexts of the encrypted
files, or else what lies under the plain name.

## Main results

`openFiles_eq`, `newDedupIndex_sees`, `newDedupIndex_succeeds`, `newDedupIndex_keyless`
-/

namespace DiskNexus.Prune

open Binary Index Store

/-- Insert the entries of deltas into a hash index. -/
def insertDeltas (x : HashIndex) (es : List DeltaEntry) : HashIndex :=
  es.foldl (fun x e => x.insert ⟨e.weakHash, e.strongHash⟩ e.packNumber e.storeOffset e.chunkLength)
    x

/-- Whether a bloom filter file loads, if there is one. -/
def bloomLoads (bloom : Option Bytes) : Bool :=
  match bloom with
  | none => true
  | some data => (loadBloomFilter data).toOption.isSome

/-- The plaintext that a keyed open sees under the name `dst`. `none` if `src` does not decrypt. -/
def workingCopy (k : Cipher) (d : RepoDir) (src dst : FileName) : Option (Option Bytes) :=
  match d.lookup src with
  | none => some (d.lookup dst)
  | some data => (k.decryptWithAAD data).map some

/-- The plaintext of the index file that an open for reading sees, unless it fails there. -/
def openedFile (key : Option Cipher) (d : RepoDir) : Option Bytes :=
  match key with
  | none =>
    if (d.lookup .hashIndexEnc).isSome ∨ (d.lookup .bloomEnc).isSome ∨
        !bloomLoads (d.lookup .bloom) then none
    else some ((d.lookup .hashIndex).getD [])
  | some k =>
    match workingCopy k d .bloomEnc .bloom with
    | none => none
    | some bloom =>
      match workingCopy k d .hashIndexEnc .hashIndex with
      | none => none
      | some file => if bloomLoads bloom then some (file.getD []) else none

/-- The index file and the deltas that an open for reading sees. -/
def opened (key : Option Cipher) (d : RepoDir) : Option (Bytes × List DeltaEntry) :=
  match openedFile key d, pendingDeltas key d with
  | some file, .ok es => some (file, es)
  | _, _ => none

end DiskNexus.Prune

namespace DiskNexus.Index

open Binary Sha256 Files Store
open Prune (opened openedFile workingCopy bloomLoads insertDeltas)

/-- The bytes of the bloom filter that an open sees. -/
def openedBloom (key : Option Cipher) (d : RepoDir) : Option Bytes :=
  match key with
  | none => d.lookup .bloom
  | some k => (workingCopy k d .bloomEnc .bloom).join

/-- The filter that an open starts with. -/
def filterOf (nbits : UInt64) (bloom : Option Bytes) : BloomFilter :=
  match bloom with
  | none => newBloomFilter nbits
  | some data =>
    match loadBloomFilter data with
    | .error _ => newBloomFilter nbits
    | .ok bf => bf

/-- The filter that an open ends with, with the pending deltas. -/
def filterWith (nbits : UInt64) (bloom : Option Bytes) (es : List DeltaEntry) : BloomFilter :=
  (es.map DeltaEntry.weakHash).foldl BloomFilter.add (filterOf nbits bloom)

/-- The map that an open sees: the deltas over the index file. -/
def openedMap (file : Bytes) (es : List DeltaEntry) : Hash → Option IndexEntry :=
  overlay (fileMap file) (es.map DeltaEntry.indexEntry)

/-- Index files and deltas as written: distinct, nonzero hashes. -/
structure WellFormed (file : Bytes) (es : List DeltaEntry) : Prop where
  file : IndexFile file
  deltas : ∀ e ∈ es, e.strongHash ≠ .zero

/-- The index `x` of an open that sees the filter `seen`, the index file `data` and the entries
`es`. -/
structure OpenedAs (key : Option Cipher) (nbits : UInt64) (readOnly : Bool)
    (seen : Option Bytes) (data : Bytes) (es : List DeltaEntry) (x : DedupIndex) : Prop where
  key : x.key = key
  delta : x.delta = none
  bloom : x.bloom = filterWith nbits seen es
  missing : x.bloomMissing = (seen.isNone && !readOnly && !(!es.isEmpty && data.isEmpty))
  good : x.index.Good
  mode : x.index.noHtab = readOnly
  file : x.index.file = data
  content : x.index.content = openedMap data es

/-- The directory `d'` of an index that was opened in `d` and has not been flushed: the plaintext of
the index file is there, and the bloom filter of an encrypted index is gone. -/
structure SessionDir (key : Option Cipher) (d : RepoDir) (file : Bytes) (d' : RepoDir) : Prop where
  hashIndex : d'.lookup .hashIndex = some file
  bloom : d'.lookup .bloom = if key.isSome then none else d.lookup .bloom
  rest : ∀ f, f.Persistent → f ≠ .bloom → f ≠ .hashIndex → d'.lookup f = d.lookup f

lemma not_working_bloom : ¬ FileName.bloom.Working := fun h => h

lemma filterOf_bytes (nbits : UInt64) (bf : BloomFilter) :
    filterOf nbits (some bf.bytes) = bf := by
  rw [filterOf, loadBloomFilter_bytes]

/-- What an open resolves: its index file and the deltas. -/
lemma isSome_openedMap {file : Bytes} {es : List DeltaEntry} {k : Hash} :
    (openedMap file es k).isSome ↔ (fileMap file k).isSome ∨ ∃ e ∈ es, e.strongHash = k := by
  rw [openedMap, isSome_overlay, List.map_map, List.mem_map]
  rfl

lemma openedMap_nil (file : Bytes) : openedMap file [] = fileMap file := rfl

lemma filterWith_nil (nbits : UInt64) (bloom : Option Bytes) :
    filterWith nbits bloom [] = filterOf nbits bloom := rfl

/-! ## Taking over deltas -/

section Deltas

variable {index : HashIndex} {es : List DeltaEntry}

lemma DedupIndex.applyDelta_fields (x : DedupIndex) (es : List DeltaEntry) :
    (x.applyDelta es).index = insertDeltas x.index es ∧ (x.applyDelta es).key = x.key ∧
      (x.applyDelta es).delta = x.delta ∧
      (x.applyDelta es).bloom = (es.map DeltaEntry.weakHash).foldl BloomFilter.add x.bloom := by
  induction es generalizing x with
  | nil => exact ⟨rfl, rfl, rfl, rfl⟩
  | cons e es ih =>
    obtain ⟨h1, h2, h3, h4⟩ := ih (x.insertNoCapture ⟨e.weakHash, e.strongHash⟩ e.packNumber
      e.storeOffset e.chunkLength)
    exact ⟨h1, h2.trans (insertNoCapture_key ..), h3.trans (insertNoCapture_delta ..), h4⟩

/-- Merged deltas make an index dirty and change nothing else but its buffer. -/
lemma insertDeltas_fields (x : HashIndex) (es : List DeltaEntry) :
    (insertDeltas x es).file = x.file ∧ (insertDeltas x es).noHtab = x.noHtab ∧
      (insertDeltas x es).htab = x.htab ∧
      (insertDeltas x es).dirty = (x.dirty || !es.isEmpty) := by
  induction es generalizing x with
  | nil => simp [insertDeltas]
  | cons e es ih =>
    obtain ⟨h1, h2, h3, h4⟩ := ih
      (x.insert ⟨e.weakHash, e.strongHash⟩ e.packNumber e.storeOffset e.chunkLength)
    exact ⟨h1, h2, h3, h4.trans (by simp [HashIndex.insert])⟩

lemma content_insertDeltas (index : HashIndex) (es : List DeltaEntry) :
    (insertDeltas index es).content = overlay index.content (es.map DeltaEntry.indexEntry) := by
  induction es generalizing index with
  | nil => rfl
  | cons e es ih => exact (ih _).trans (by rw [HashIndex.content_insert]; rfl)

lemma good_insertDeltas (h : index.Good) (hes : ∀ e ∈ es, e.strongHash ≠ .zero) :
    (insertDeltas index es).Good := by
  induction es generalizing index with
  | nil => exact h
  | cons e es ih =>
    obtain ⟨he, hes⟩ := List.forall_mem_cons.1 hes
    exact ih (h.insert he _ _ _) hes

end Deltas

section Opening

variable {key : Option Cipher} {k : Cipher} {nbits : UInt64} {readOnly : Bool}
  {d d' : RepoDir} {x : DedupIndex} {file : Bytes} {es : List DeltaEntry}

/-! ## What an open sees -/

/-- What an open sees, in its two parts. -/
lemma opened_eq_some :
    opened key d = some (file, es) ↔
      openedFile key d = some file ∧ pendingDeltas key d = .ok es := by
  unfold opened
  cases openedFile key d <;> cases pendingDeltas key d <;> simp

/-- An open without a key sees the index file if the bloom filter loads. -/
lemma openedFile_plain :
    openedFile none d = some file ↔ d.lookup .hashIndexEnc = none ∧ d.lookup .bloomEnc = none ∧
      bloomLoads (d.lookup .bloom) = true ∧ (d.lookup .hashIndex).getD [] = file := by
  unfold openedFile
  cases d.lookup .hashIndexEnc <;> cases d.lookup .bloomEnc <;>
    cases bloomLoads (d.lookup .bloom) <;> simp

/-- An open under a key sees the index file if both files decrypt and the filter loads. -/
lemma openedFile_keyed :
    openedFile (some k) d = some file ↔ ∃ bloom copy,
      workingCopy k d .bloomEnc .bloom = some bloom ∧
      workingCopy k d .hashIndexEnc .hashIndex = some copy ∧ bloomLoads bloom = true ∧
      copy.getD [] = file := by
  unfold openedFile
  cases hb : workingCopy k d .bloomEnc .bloom with
  | none => simp [hb]
  | some bloom =>
    cases hc : workingCopy k d .hashIndexEnc .hashIndex with
    | none => simp [hb, hc]
    | some copy => cases hloads : bloomLoads bloom <;> simp [hb, hc, hloads]

lemma workingCopy_congr {src dst dst' : FileName} {data : Bytes} (h : d.lookup src = some data)
    (h' : d'.lookup src = d.lookup src) :
    workingCopy k d' src dst' = workingCopy k d src dst := by
  simp [workingCopy, h, h']

lemma bloomLoads_iff {bloom : Option Bytes} :
    bloomLoads bloom = true ↔ ∀ data, bloom = some data → ∃ bf, loadBloomFilter data = .ok bf := by
  cases bloom with
  | none => simp [bloomLoads]
  | some data => cases h : loadBloomFilter data <;> simp [bloomLoads, h, Except.toOption]

/-! ## Up to the bloom filter -/

/-- An open up to its bloom filter. -/
def openFiles (key : Option Cipher) (nbits : UInt64) (d : RepoDir) :
    Except String (BloomFilter × Bool) × RepoDir :=
  match workingCopies key d with
  | (.error e, d) => (.error e, d)
  | (.ok (), d) => openBloom key nbits d

/-- What an open that fails there leaves: the working copies that it has made. -/
def refusedFiles (key : Option Cipher) (d : RepoDir) : Option Bytes × Option Bytes :=
  match key with
  | none => (d.lookup .bloom, d.lookup .hashIndex)
  | some k =>
    match workingCopy k d .bloomEnc .bloom with
    | none => (d.lookup .bloom, d.lookup .hashIndex)
    | some bloom => (bloom, (workingCopy k d .hashIndexEnc .hashIndex).getD (d.lookup .hashIndex))

/-- Writing a working copy. -/
lemma decryptFile_eq (k : Cipher) (src dst : FileName) (what : String) (d : RepoDir) :
    (workingCopy k d src dst = none ∧ ∃ e, decryptFile k src dst what d = (.error e, d)) ∨
      ∃ copy d', workingCopy k d src dst = some copy ∧ decryptFile k src dst what d = (.ok (), d') ∧
        d'.lookup dst = copy ∧ ∀ f, f ≠ dst → d'.lookup f = d.lookup f := by
  unfold workingCopy decryptFile
  cases hsrc : d.lookup src with
  | none => exact .inr ⟨_, d, rfl, rfl, rfl, fun _ _ => rfl⟩
  | some data =>
    cases hdec : k.decryptWithAAD data with
    | none => exact .inl ⟨by simp [hdec], _, by simp only [hdec]; rfl⟩
    | some plain =>
      refine .inr ⟨some plain, d.insert dst plain, by simp [hdec], by simp only [hdec],
        AList.lookup_insert d, fun f hf => AList.lookup_insert_ne hf⟩

/-- Loading the bloom filter. -/
lemma openBloom_eq (key : Option Cipher) (nbits : UInt64) (d : RepoDir) :
    (bloomLoads (d.lookup .bloom) = false ∧ ∃ e, openBloom key nbits d = (.error e, d)) ∨
      bloomLoads (d.lookup .bloom) = true ∧ ∃ d', openBloom key nbits d =
          (.ok (filterOf nbits (d.lookup .bloom), (d.lookup .bloom).isNone), d') ∧
        d'.lookup .bloom = (if key.isSome then none else d.lookup .bloom) ∧
        ∀ f, f ≠ .bloom → d'.lookup f = d.lookup f := by
  unfold openBloom bloomLoads filterOf
  cases hbloom : d.lookup .bloom with
  | none => exact .inr ⟨rfl, d, rfl, by simp [hbloom], fun _ _ => rfl⟩
  | some data =>
    cases hload : loadBloomFilter data with
    | error e => exact .inl ⟨by simp [hload, Except.toOption], _, by simp only [hload]; rfl⟩
    | ok bf =>
      refine .inr ⟨by simp [hload, Except.toOption], _, by simp only [hload]; rfl, ?_,
        fun f hf => ?_⟩ <;> split
      · exact AList.lookup_erase _ _
      · exact hbloom
      · exact AList.lookup_erase_ne hf
      · rfl

/-- **An open up to its bloom filter** fails where `openedFile` says so, and otherwise the index
file that is seen is under the plain name. -/
lemma openFiles_eq (key : Option Cipher) (nbits : UInt64) (d : RepoDir) :
    (openedFile key d = none ∧ ∃ e d', openFiles key nbits d = (.error e, d') ∧
      (d'.lookup .bloom, d'.lookup .hashIndex) = refusedFiles key d ∧
      ∀ f, f ≠ .bloom → f ≠ .hashIndex → d'.lookup f = d.lookup f) ∨
    ∃ d', openFiles key nbits d =
        (.ok (filterOf nbits (openedBloom key d), (openedBloom key d).isNone), d') ∧
      openedFile key d = some ((d'.lookup .hashIndex).getD []) ∧
      bloomLoads (openedBloom key d) = true ∧
      d'.lookup .bloom = (if key.isSome then none else d.lookup .bloom) ∧
      ∀ f, f ≠ .bloom → f ≠ .hashIndex → d'.lookup f = d.lookup f := by
  cases key with
  | none =>
    cases hrefuse : refuseEncryptedWithoutKey d with
    | error e =>
      refine .inl ⟨?_, e, d, by simp only [openFiles, workingCopies, hrefuse], rfl,
        fun _ _ _ => rfl⟩
      refine Option.eq_none_iff_forall_ne_some.2 fun file hfile => ?_
      obtain ⟨h1, h2, -⟩ := openedFile_plain.1 hfile
      rw [refuse_ok.2 ⟨h1, h2⟩] at hrefuse
      cases hrefuse
    | ok u =>
      obtain ⟨h1, h2⟩ := refuse_ok.1 hrefuse
      have hfiles : openFiles none nbits d = openBloom none nbits d := by
        simp only [openFiles, workingCopies, hrefuse]
      rw [hfiles]
      rcases openBloom_eq none nbits d with ⟨hloads, e, hopen⟩ |
        ⟨hloads, d₂, hopen, hbloom, hrest⟩
      · exact .inl ⟨by simp [openedFile, hloads], e, d, hopen, rfl, fun _ _ _ => rfl⟩
      · refine .inr ⟨d₂, hopen, ?_, hloads, hbloom, fun f hf _ => hrest f hf⟩
        exact openedFile_plain.2 ⟨h1, h2, hloads, by rw [hrest _ (by simp)]⟩
  | some k =>
    rcases decryptFile_eq k .bloomEnc .bloom "bloom filter" d with ⟨hcopy, e, hdec⟩ |
      ⟨bloom, d1, hcopy, hdec, hbloom, hrest1⟩
    · exact .inl
        ⟨by simp [openedFile, hcopy], e, d, by simp only [openFiles, workingCopies, hdec],
        by simp only [refusedFiles, hcopy], fun _ _ _ => rfl⟩
    have hcopy1 : workingCopy k d1 .hashIndexEnc .hashIndex =
        workingCopy k d .hashIndexEnc .hashIndex := by
      unfold workingCopy
      rw [hrest1 _ (by simp), hrest1 _ (by simp)]
    rcases decryptFile_eq k .hashIndexEnc .hashIndex "hash index" d1 with ⟨hcopy', e, hdec'⟩ |
      ⟨file, d₂, hcopy', hdec', hfile, hrest2⟩ <;> rw [hcopy1] at hcopy'
    · refine .inl ⟨by simp [openedFile, hcopy, hcopy'], e, d1,
        by simp only [openFiles, workingCopies, hdec, hdec'], ?_, fun f h1 _ => hrest1 f h1⟩
      simp only [refusedFiles, hcopy, hcopy', hbloom, Option.getD_none]
      rw [hrest1 _ (by simp)]
    have hrest : ∀ f, f ≠ .bloom → f ≠ .hashIndex → d₂.lookup f = d.lookup f :=
      fun f h1 h2 => (hrest2 f h2).trans (hrest1 f h1)
    have hbloom2 : d₂.lookup .bloom = bloom := (hrest2 _ (by simp)).trans hbloom
    have hseen : openedBloom (some k) d = bloom := by simp [openedBloom, hcopy]
    have hfiles : openFiles (some k) nbits d = openBloom (some k) nbits d₂ := by
      simp only [openFiles, workingCopies, hdec, hdec']
    rw [hfiles, hseen]
    rcases openBloom_eq (some k) nbits d₂ with ⟨hloads, e, hopen⟩ |
      ⟨hloads, d3, hopen, hgone, hrest3⟩ <;> rw [hbloom2] at hloads
    · exact .inl ⟨by simp [openedFile, hcopy, hcopy', hloads], e, d₂, hopen,
        by simp only [refusedFiles, hcopy, hcopy', hbloom2, hfile, Option.getD_some], hrest⟩
    · rw [hbloom2] at hopen
      refine .inr ⟨d3, hopen, openedFile_keyed.2 ⟨bloom, file, hcopy, hcopy', hloads, ?_⟩, hloads,
        hgone, fun f h1 h2 => (hrest3 f h1).trans (hrest f h1 h2)⟩
      rw [hrest3 _ (by simp), hfile]

/-- Without a key nothing is written up to the bloom filter. -/
lemma openFiles_dir (nbits : UInt64) (d : RepoDir) :
    (openFiles none nbits d).2 = d := by
  unfold openFiles workingCopies
  cases refuseEncryptedWithoutKey d with
  | error e => rfl
  | ok u =>
    simp only [openBloom]
    split
    · rfl
    · split <;> rfl

/-! ## The whole open -/

/-- An open from its bloom filter on. -/
def openRest (key : Option Cipher) (readOnly : Bool) (p : BloomFilter × Bool) (d : RepoDir) :
    Except String DedupIndex × RepoDir :=
  match newHashIndex d readOnly with
  | (.error e, d) => (.error s!"opening hash index: {e}", d)
  | (.ok index, d) =>
    let x : DedupIndex := ⟨p.1, index, key, p.2 && !readOnly, none⟩
    match pendingDeltas key d with
    | .error e => (.error e, d.erase .htab)
    | .ok es =>
      let complete := !es.isEmpty && index.file.isEmpty
      (.ok { x.applyDelta es with bloomMissing := x.bloomMissing && !complete }, d)

lemma newDedupIndex_eq (key : Option Cipher) (nbits : UInt64) (readOnly : Bool) (d : RepoDir) :
    newDedupIndex key nbits readOnly d =
      match openFiles key nbits d with
      | (.error e, d) => (.error e, d)
      | (.ok p, d) => openRest key readOnly p d := by
  unfold newDedupIndex openFiles
  rcases workingCopies key d with ⟨_ | _, d1⟩
  · rfl
  · simp only
    rcases openBloom key nbits d1 with ⟨_ | ⟨bloom, missing⟩, d₂⟩ <;> rfl

/-- What an open keeps, stage by stage. -/
lemma newDedupIndex_rel {P : RepoDir → RepoDir → Prop} (htrans : ∀ {a b c}, P a b → P b c → P a c)
    (hfiles : P d (openFiles key nbits d).2) (hindex : ∀ a, P a (newHashIndex a readOnly).2)
    (hhtab : ∀ a, P a (a.erase .htab)) : P d (newDedupIndex key nbits readOnly d).2 := by
  rw [newDedupIndex_eq]
  generalize openFiles key nbits d = r at hfiles
  obtain ⟨_ | p, d₂⟩ := r
  · exact hfiles
  have hd2 := htrans hfiles (hindex d₂)
  simp only [openRest]
  generalize newHashIndex d₂ readOnly = r at hd2
  obtain ⟨_ | index, d3⟩ := r
  · exact hd2
  · simp only
    cases pendingDeltas key d3 with
    | error e => exact htrans hd2 (hhtab d3)
    | ok es => exact hd2

lemma newHashIndex_fields {skipHtab : Bool} {x : HashIndex}
    (h : newHashIndex d skipHtab = (.ok x, d')) :
    x.noHtab = skipHtab ∧ x.file = (d.lookup .hashIndex).getD [] := by
  unfold newHashIndex at h
  simp only at h
  split_ifs at h with hskip
  · cases h
    exact ⟨hskip.symm, rfl⟩
  · split at h
    · cases h
    · cases h
      exact ⟨by simpa using hskip, rfl⟩

/-- **An open that succeeds**: what it has seen, the directory it leaves, and the index. -/
theorem newDedupIndex_inv (h : newDedupIndex key nbits readOnly d = (.ok x, d')) :
    ∃ file es, opened key d = some (file, es) ∧ SessionDir key d file d' ∧
      bloomLoads (openedBloom key d) = true ∧ x.key = key ∧ x.index.noHtab = readOnly ∧
      x.bloom = filterWith nbits (openedBloom key d) es ∧
      (WellFormed file es →
        OpenedAs key nbits readOnly (openedBloom key d) file es x) := by
  rw [newDedupIndex_eq] at h
  rcases openFiles_eq key nbits d with ⟨-, e, d₂, hopen, -⟩ |
    ⟨d₂, hopen, hfile, hloads, hbloom, hrest⟩ <;> rw [hopen] at h
  · cases h
  simp only [openRest] at h
  split at h
  · cases h
  rename_i index d3 hindex
  split at h
  · cases h
  rename_i es hes
  cases h
  obtain ⟨hmode, hsource⟩ := newHashIndex_fields hindex
  have hlookup : ∀ f : FileName, ¬ f.Working →
      d'.lookup f = (d₂.insert .hashIndex ((d₂.lookup .hashIndex).getD [])).lookup f := by
    intro f hf
    have := lookup_newHashIndex hf d₂ readOnly
    rwa [hindex] at this
  have hdir : SessionDir key d ((d₂.lookup .hashIndex).getD []) d' := by
    refine ⟨?_, ?_, fun f hf h1 h2 => ?_⟩
    · rw [hlookup _ HashIndex.not_working_hashIndex, AList.lookup_insert]
    · rw [hlookup _ not_working_bloom, AList.lookup_insert_ne (by simp), hbloom]
    · rw [hlookup f hf.not_working, AList.lookup_insert_ne h2, hrest f h1 h2]
  rw [pendingDeltas_congr fun _ _ => hdir.rest _ trivial (by simp) (by simp)] at hes
  obtain ⟨hx, hkey, hdelta, hfilter⟩ := DedupIndex.applyDelta_fields
    ⟨filterOf nbits (openedBloom key d), index, key,
      (openedBloom key d).isNone && !readOnly, none⟩ es
  obtain ⟨hf, hm, -⟩ := insertDeltas_fields index es
  refine ⟨_, es, opened_eq_some.2 ⟨hfile, hes⟩, hdir, hloads, hkey,
    (congrArg _ hx).trans (hm.trans hmode), hfilter, fun hwf => ?_⟩
  obtain ⟨index', hok, hgood, hcontent, -⟩ := newHashIndex_ok hwf.file readOnly
  rw [hindex] at hok
  cases hok
  refine ⟨hkey, hdelta, hfilter, by rw [hsource], ?_, (congrArg _ hx).trans (hm.trans hmode),
    (congrArg _ hx).trans (hf.trans hsource), ?_⟩
  · rw [show _ = _ from hx]
    exact good_insertDeltas hgood hwf.deltas
  · rw [show _ = _ from hx, content_insertDeltas, hcontent]
    rfl

/-- **An open** of well-formed files, plain or encrypted. -/
theorem newDedupIndex_sees (h : newDedupIndex key nbits readOnly d = (.ok x, d'))
    (hwf : ∀ file es, opened key d = some (file, es) → WellFormed file es) :
    ∃ file es, opened key d = some (file, es) ∧ SessionDir key d file d' ∧
      OpenedAs key nbits readOnly (openedBloom key d) file es x := by
  obtain ⟨file, es, hopened, hdir, -, -, -, -, hx⟩ := newDedupIndex_inv h
  exact ⟨file, es, hopened, hdir, hx (hwf file es hopened)⟩

/-- **An open succeeds** if what it sees is well formed. -/
theorem newDedupIndex_succeeds (nbits : UInt64) (readOnly : Bool)
    (h : opened key d = some (file, es)) (hwf : WellFormed file es) :
    ∃ x d', newDedupIndex key nbits readOnly d = (.ok x, d') ∧ SessionDir key d file d' ∧
      OpenedAs key nbits readOnly (openedBloom key d) file es x := by
  suffices ∃ x d', newDedupIndex key nbits readOnly d = (.ok x, d') by
    obtain ⟨x, d', hopen⟩ := this
    obtain ⟨file', es', hopened, hdir, -, -, -, -, hx⟩ := newDedupIndex_inv hopen
    rw [h] at hopened
    cases hopened
    exact ⟨x, d', hopen, hdir, hx hwf⟩
  obtain ⟨hfile, hes⟩ := opened_eq_some.1 h
  rw [newDedupIndex_eq]
  rcases openFiles_eq key nbits d with ⟨hnone, -⟩ | ⟨d₂, hopen, hseen, -, -, hrest⟩
  · rw [hfile] at hnone
    cases hnone
  rw [hfile] at hseen
  cases hseen
  obtain ⟨index, hindex, -⟩ := newHashIndex_ok hwf.file readOnly
  have hpair : newHashIndex d₂ readOnly = (.ok index, (newHashIndex d₂ readOnly).2) :=
    Prod.ext hindex rfl
  have hes' : pendingDeltas key (newHashIndex d₂ readOnly).2 = .ok es := by
    rw [pendingDeltas_congr (lookup_delta_newHashIndex d₂ readOnly),
      pendingDeltas_congr fun _ _ => hrest _ (by simp) (by simp), hes]
  rw [hopen]
  simp only [openRest]
  rw [hpair]
  simp only [hes']
  exact ⟨_, _, rfl⟩

/-! ## Opening without a key -/

/-- What an open sees of an openable directory. -/
lemma Openable.opened (hd : Openable d) :
    ∃ es, opened none d = some ((d.lookup .hashIndex).getD [], es) ∧
      (∀ e, e ∈ es ↔ PendingEntry d e) ∧ WellFormed ((d.lookup .hashIndex).getD []) es := by
  obtain ⟨es, hes, hmem⟩ := @collectDeltas_ok none d (deltaObjectNames d)
    fun o ho => hd.deltas o (mem_deltaObjectNames.1 ho)
  have hpending : ∀ e, e ∈ es ↔ PendingEntry d e := by
    intro e
    rw [hmem]
    simp only [mem_deltaObjectNames, PendingEntry]
    exact ⟨fun ⟨o, ho, es, h⟩ => ⟨o, es, ho, h⟩, fun ⟨o, es, ho, h⟩ => ⟨o, ho, es, h⟩⟩
  refine ⟨es, opened_eq_some.2 ⟨openedFile_plain.2 ⟨hd.hashIndexEnc, hd.bloomEnc,
    bloomLoads_iff.2 hd.bloom, rfl⟩, hes⟩, hpending, hd.indexFile, fun e he => ?_⟩
  exact hd.deltas_ne_zero e ((hpending e).1 he)

/-- **A keyless open** succeeds, with an index that holds what the files hold. -/
theorem newDedupIndex_keyless (hd : Openable d) (nbits : UInt64) (readOnly : Bool) :
    ∃ es x, pendingDeltas none d = .ok es ∧ (∀ e, e ∈ es ↔ PendingEntry d e) ∧
      newDedupIndex none nbits readOnly d = (.ok x, (newHashIndex d readOnly).2) ∧
      OpenedAs none nbits readOnly (d.lookup .bloom) ((d.lookup .hashIndex).getD []) es x := by
  obtain ⟨es, hopened, hpending, hwf⟩ := hd.opened
  obtain ⟨x, d', hopen, -, hx⟩ := newDedupIndex_succeeds nbits readOnly hopened hwf
  refine ⟨es, x, (opened_eq_some.1 hopened).2, hpending, ?_, hx⟩
  have hdir := openFiles_dir nbits d
  rw [newDedupIndex_eq] at hopen ⊢
  generalize openFiles none nbits d = r at hdir hopen ⊢
  obtain ⟨_ | p, d₂⟩ := r
  · cases hopen
  obtain rfl : d₂ = d := hdir
  simp only [openRest] at hopen ⊢
  generalize newHashIndex d₂ readOnly = r at hopen ⊢
  obtain ⟨_ | index, d3⟩ := r
  · cases hopen
  simp only at hopen ⊢
  split at hopen
  · cases hopen
  · cases hopen
    rfl

/-- An open index resolves by `LookupDirect` what the files resolve. -/
lemma lookupDirect_keyless (hd : Openable d) (nbits : UInt64) :
    ∃ x, (newDedupIndex none nbits false d).1 = .ok x ∧
      ∀ h, (x.lookupDirect h).isSome ↔ Resolvable d h := by
  obtain ⟨es, x, -, hes, hopen, hx⟩ := newDedupIndex_keyless hd nbits false
  refine ⟨x, by rw [hopen], fun h => ?_⟩
  rw [DedupIndex.lookupDirect, HashIndex.lookup_eq_content (by rw [hx.good.mode, hx.mode]; rfl),
    hx.content, isSome_openedMap]
  simp only [Resolvable, hes]

/-- What a keyless open that succeeded has checked. -/
theorem newDedupIndex_keyless_inv (h : newDedupIndex none nbits readOnly d = (.ok x, d')) :
    d.lookup .hashIndexEnc = none ∧ d.lookup .bloomEnc = none ∧
      (∀ data, d.lookup .bloom = some data → ∃ bf, loadBloomFilter data = .ok bf) ∧
      ∀ o : String × Bool, (d.lookup (.delta o.1 o.2)).isSome →
        ∃ es, deltaEntries none d o = .ok es := by
  obtain ⟨file, es, hopened, -⟩ := newDedupIndex_inv h
  obtain ⟨hfile, hes⟩ := opened_eq_some.1 hopened
  obtain ⟨h1, h2, hloads, -⟩ := openedFile_plain.1 hfile
  exact ⟨h1, h2, bloomLoads_iff.1 hloads, fun o ho =>
    deltaEntries_of_collectDeltas hes o (mem_deltaObjectNames.2 ho)⟩

end Opening

end DiskNexus.Index
