import DiskNexus.Index.FiniteMap
import DiskNexus.Index.FlushCrash
import DiskNexus.Lib.RunMerge

/-!
# Folding deltas into the index

Compaction folds the pending deltas into the sorted index file without opening the index. Their
records go through a slab of bounded size; whenever it is full, a pass sorts it and merges it over
the file.

## Main results

`foldDeltas_eq_close`, `fold_order_depends_on_budget`
-/

namespace DiskNexus.Index

open Binary Sha256 Files RunMerge

/-! ## The code -/

/-- The size of a record of the slab: an index entry and a sequence number. -/
def foldRecSize : ℕ := entrySize + 8

/-- `DefaultFoldBatchBudget`. -/
def defaultFoldBatchBudget : ℤ := 2 ^ 25

/-- A record of the slab. -/
structure FoldRec where
  entry : IndexEntry
  seq : ℕ
  deriving DecidableEq

/-- A hash as a number: the order of `bytes.Compare`. -/
def hashNumber (h : Hash) : ℕ := ofLE h.val.reverse

/-- The order of `foldRecs`: by hash, then by sequence number. -/
def FoldRec.Le (a b : FoldRec) : Prop :=
  hashNumber a.entry.strongHash < hashNumber b.entry.strongHash ∨
    hashNumber a.entry.strongHash = hashNumber b.entry.strongHash ∧ a.seq ≤ b.seq

instance : DecidableRel FoldRec.Le := fun _ _ => inferInstanceAs (Decidable (_ ∨ _))

/-- The sorted slab. -/
def sortSlab (slab : List FoldRec) : List IndexEntry :=
  (slab.insertionSort FoldRec.Le).map FoldRec.entry

/-- The merge loop of `mergePass`, on the entries of the file and the sorted slab. -/
def mergeEntries (base new : List IndexEntry) : List IndexEntry :=
  mergeRuns IndexEntry.strongHash hashPrefix8 (base.length + new.length) base new

/-- `mergePass`: sort the slab and merge it over the file. -/
def mergePass (slab : List FoldRec) (d : RepoDir) : Except String Unit × RepoDir :=
  let base := (d.lookup .hashIndex).getD []
  if base.length % entrySize ≠ 0 then
    (.error "sorted index truncated mid-entry", d.erase .hashIndexTmp)
  else (.ok (), runOps d (replaceOps .hashIndexTmp .hashIndex
    (encodeEntries (mergeEntries (decodeEntries base) (sortSlab slab)))))

/-- What a fold works on. The number of records is the next sequence number. -/
structure FoldState where
  dir : RepoDir
  bloom : BloomFilter
  slab : List FoldRec
  total : ℕ

/-- `flushPass`: a pass over what is in the slab. -/
def flushPass (s : FoldState) : Except String Unit × FoldState :=
  if s.slab = [] then (.ok (), s)
  else
    match mergePass s.slab s.dir with
    | (.error e, d) => (.error e, { s with dir := d })
    | (.ok (), d) => (.ok (), { s with dir := d, slab := [] })

/-- A record goes into the slab, after a pass if that is full. -/
def foldEntry (budget : ℤ) (s : FoldState) (e : DeltaEntry) : Except String Unit × FoldState :=
  let s := { s with bloom := s.bloom.add e.weakHash }
  let take (s : FoldState) : FoldState :=
    { s with slab := s.slab ++ [⟨e.indexEntry, s.total⟩], total := s.total + 1 }
  if (s.slab.length * foldRecSize + foldRecSize : ℕ) > budget then
    match flushPass s with
    | (.error e, s) => (.error e, s)
    | (.ok (), s) => (.ok (), take s)
  else (.ok (), take s)

/-- The entries of a delta, up to the first that fails. -/
def foldEntries (budget : ℤ) : List DeltaEntry → FoldState → Except String Unit × FoldState
  | [], s => (.ok (), s)
  | e :: es, s =>
    match foldEntry budget s e with
    | (.error e, s) => (.error e, s)
    | (.ok (), s) => foldEntries budget es s

/-- `ValidateDeltaFile`. -/
def validateDeltaFile (data : Bytes) : Except String Unit :=
  let version := fieldAt data 6 2
  let count := fieldAt data 8 8
  let size := count * deltaEntrySize % 2 ^ 64
  let carried : ℤ := data.length - deltaHeaderSize
  if data.length < deltaHeaderSize then .error "not an index delta (short header)"
  else if data.take 6 ≠ deltaMagic then .error "not an index delta (bad magic)"
  else if version ≠ deltaVersion then
    .error (s!"index delta version {version} is not version {deltaVersion} — this build cannot " ++
      "merge it, and merging it wrong would put false chunk locations in front of restore")
  else if data.length % 2 ^ 64 ≠ (deltaHeaderSize + count * deltaEntrySize) % 2 ^ 64 then
    .error (s!"index delta declares {count} entries ({size} bytes) but carries {carried} bytes " ++
      "— truncated")
  else if (sum256 (data.drop deltaHeaderSize)).val ≠ (data.drop 16).take 32 then
    .error "index delta payload checksum mismatch: the object is damaged"
  else .ok ()

/-- `streamDeltaRecords`: the entries, and whether they are all there. -/
def streamDeltaRecords (data : Bytes) : List DeltaEntry × Bool :=
  let count := fieldAt data 8 8
  let there := (data.length - deltaHeaderSize) / deltaEntrySize
  (decodeDeltaEntries (min count there) (data.drop deltaHeaderSize), count ≤ there)

/-- The names of the delta files, by name. -/
def deltaFiles (d : RepoDir) : List (String × Bool) := (deltaObjectNames d).filter fun o => !o.2

/-- A delta file. -/
def deltaFile (d : RepoDir) (o : String × Bool) : Bytes := (d.lookup (.delta o.1 o.2)).getD []

/-- The check of all delta files before anything is written. -/
def validateDeltas (d : RepoDir) : List (String × Bool) → Except String Unit
  | [] => .ok ()
  | o :: os =>
    match validateDeltaFile (deltaFile d o) with
    | .error e =>
      let name := deltaObjectName o
      .error s!"index delta {name}: {e}"
    | .ok () => validateDeltas d os

/-- The delta files, one after the other. -/
def foldFiles (budget : ℤ) : List (String × Bool) → FoldState → Except String Unit × FoldState
  | [], s => (.ok (), s)
  | o :: os, s =>
    let name := deltaObjectName o
    let records := streamDeltaRecords (deltaFile s.dir o)
    match foldEntries budget records.1 s with
    | (.error e, s) => (.error s!"index delta {name}: {e}", s)
    | (.ok (), s) =>
      if records.2 then foldFiles budget os s
      else (.error s!"index delta {name}: index delta truncated mid-entry", s)

/-- `FoldDeltasStreamedWithBudget`; `nbits` is the size a new bloom filter would have. A budget that
is too large to allocate panics in the source. -/
def foldDeltasStreamedWithBudget (nbits : UInt64) (batchBudget : ℤ) (d : RepoDir) :
    Except String ℕ × RepoDir :=
  match openBloom none nbits d with
  | (.error e, _) => (.error e, d)
  | (.ok (bloom, _), _) =>
    match validateDeltas d (deltaFiles d) with
    | .error e => (.error e, d)
    | .ok () =>
      let budget := if batchBudget ≤ 0 then defaultFoldBatchBudget else batchBudget
      match foldFiles budget (deltaFiles d) ⟨d, bloom, [], 0⟩ with
      | (.error e, s) => (.error e, s.dir)
      | (.ok (), s) =>
        match flushPass s with
        | (.error e, s) => (.error e, s.dir)
        | (.ok (), s) => (.ok s.total, runOps s.dir s.bloom.saveOps)

/-! ## Hashes as numbers -/

lemma hashNumber_injective : Function.Injective hashNumber := by
  intro a b h
  have := ofLE_inj (by simp [a.2, b.2]) h
  exact Subtype.ext (List.reverse_injective this)

/-- The prefix of a hash is its number without the last bytes. -/
lemma hashPrefix8_eq (h : Hash) : hashPrefix8 h = hashNumber h / 256 ^ 24 := by
  have hsplit : h.val.reverse = (h.val.drop 8).reverse ++ (h.val.take 8).reverse := by
    rw [← List.reverse_append, List.take_append_drop]
  have hlen : (h.val.drop 8).reverse.length = 24 := by simp [h.2]
  have hlt := ofLE_lt (h.val.drop 8).reverse
  rw [hlen] at hlt
  rw [hashNumber, hsplit, ofLE_append, hlen, hashPrefix8,
    Nat.add_mul_div_left _ _ (by positivity), Nat.div_eq_of_lt hlt, Nat.zero_add]

lemma hashPrefix8_mono (h h' : Hash) (hle : hashNumber h ≤ hashNumber h') :
    hashPrefix8 h ≤ hashPrefix8 h' := by
  rw [hashPrefix8_eq, hashPrefix8_eq]
  exact Nat.div_le_div_right hle

/-! ## The sorted slab -/

/-- The records of a slab are numbered in their order. -/
def InSequence (slab : List FoldRec) : Prop := slab.Pairwise fun a b => a.seq < b.seq

instance : Std.Total FoldRec.Le where
  total a b := by
    unfold FoldRec.Le
    omega

instance : IsTrans FoldRec FoldRec.Le where
  trans a b c hab hbc := by
    unfold FoldRec.Le at *
    omega

lemma sortSlab_grouped (slab : List FoldRec) :
    Grouped IndexEntry.strongHash hashNumber (sortSlab slab) := by
  unfold sortSlab Grouped
  rw [List.pairwise_map]
  refine (List.pairwise_insertionSort FoldRec.Le slab).imp fun {a b} hab => ?_
  unfold FoldRec.Le at hab
  omega

/-- Sorting keeps the records of one hash in their order, since in that order they are sorted. -/
lemma withKey_sortSlab {slab : List FoldRec} (hseq : InSequence slab) (h : Hash) :
    withKey IndexEntry.strongHash h (sortSlab slab) =
      withKey IndexEntry.strongHash h (slab.map FoldRec.entry) := by
  have hmap : ∀ l : List FoldRec, withKey IndexEntry.strongHash h (l.map FoldRec.entry) =
      (l.filter fun a => a.entry.strongHash = h).map FoldRec.entry := by
    intro l
    unfold withKey
    rw [List.filter_map]
    rfl
  rw [sortSlab, hmap, hmap]
  congr 1
  have hsorted : (slab.filter fun a => a.entry.strongHash = h).Pairwise FoldRec.Le := by
    refine (List.Pairwise.filter _ hseq).imp_of_mem fun {a b} ha hb hab => ?_
    have ha' : a.entry.strongHash = h := by simpa using (List.mem_filter.1 ha).2
    have hb' : b.entry.strongHash = h := by simpa using (List.mem_filter.1 hb).2
    exact .inr ⟨by rw [ha', hb'], hab.le⟩
  have hsub := (List.sublist_insertionSort hsorted (List.filter_sublist (l := slab))).filter
    fun a : FoldRec => a.entry.strongHash = h
  rw [List.filter_filter] at hsub
  simp only [Bool.and_self] at hsub
  refine (hsub.eq_of_length ?_).symm
  exact ((List.perm_insertionSort FoldRec.Le slab).filter _).length_eq.symm

/-! ## One pass -/

/-- Later entries win: what an overlay has for a hash. -/
lemma overlay_eq_getLast (m : Hash → Option IndexEntry) (es : List IndexEntry) (h : Hash) :
    overlay m es h = ((withKey IndexEntry.strongHash h es).getLast?).or (m h) := by
  induction es generalizing m with
  | nil => rfl
  | cons e es ih =>
    rw [overlay_cons, ih, Function.update_apply]
    by_cases he : e.strongHash = h
    · rw [withKey_cons_of_eq he, if_pos he.symm]
      cases hlast : (withKey IndexEntry.strongHash h es).getLast? with
      | none =>
        rw [List.getLast?_eq_none_iff] at hlast
        rw [hlast]
        rfl
      | some e' =>
        rw [List.getLast?_cons, hlast]
        rfl
    · rw [withKey_cons_of_ne he, if_neg (Ne.symm he)]

/-- A row of entries of a sorted file: it is the map `m`. -/
structure Row (es : List IndexEntry) (m : Hash → Option IndexEntry) : Prop where
  sorted : PrefixSorted es
  nodup : (es.map (·.strongHash)).Nodup
  mem : ∀ e, e ∈ es ↔ m e.strongHash = some e

variable {m : Hash → Option IndexEntry} {es : List IndexEntry} {data : Bytes}
  {os : List (String × Bool)} {ess : List (List DeltaEntry)}

/-- **One pass** merges the slab over the map of the file. -/
lemma Row.merge {base : List IndexEntry} (h : Row base m) {slab : List FoldRec}
    (hseq : InSequence slab) :
    Row (mergeEntries base (sortSlab slab)) (overlay m (slab.map FoldRec.entry)) := by
  have hmerges := mergeRuns_spec hashNumber_injective hashPrefix8_mono h.sorted h.nodup
    (sortSlab_grouped slab) le_rfl
  refine ⟨hmerges.ranked, hmerges.nodup, fun e => ?_⟩
  rw [mergeEntries, hmerges.mem, mem_lastOfGroups hashNumber_injective (sortSlab_grouped slab),
    withKey_sortSlab hseq, overlay_eq_getLast, Option.or_eq_some_iff, h.mem]
  have hkeys : e.strongHash ∉ (sortSlab slab).map IndexEntry.strongHash ↔
      (withKey IndexEntry.strongHash e.strongHash (slab.map FoldRec.entry)).getLast? = none := by
    rw [← withKey_sortSlab hseq, List.getLast?_eq_none_iff]
    constructor
    · intro hnot
      exact withKey_eq_nil fun a ha hkey => hnot (List.mem_map.2 ⟨a, ha, hkey⟩)
    · rintro hnil hmem
      obtain ⟨a, ha, hkey⟩ := List.mem_map.1 hmem
      have : a ∈ withKey IndexEntry.strongHash e.strongHash (sortSlab slab) :=
        List.mem_filter.2 ⟨ha, by simpa using hkey⟩
      rw [hnil] at this
      cases this
  tauto

/-- The map of a row of entries. -/
lemma Row.fileMap (h : Row es m) (hkey : ∀ k e, m k = some e → e.strongHash = k) :
    fileMap (encodeEntries es) = m := by
  funext k
  refine Option.ext fun e => ?_
  rw [Index.fileMap, decodeEntries_encodeEntries, overlay_eq_some_iff h.nodup, h.mem]
  constructor
  · rintro (⟨he, rfl⟩ | ⟨-, hnone⟩)
    · exact he
    · cases hnone
  · intro he
    obtain rfl := hkey k e he
    exact .inl ⟨he, rfl⟩

/-- Two rows of one map differ in the order of entries that share their first 8 bytes. -/
lemma Row.perm {es' : List IndexEntry} (h : Row es m) (h' : Row es' m) : es'.Perm es := by
  refine (List.perm_ext_iff_of_nodup h'.nodup.of_map h.nodup.of_map).2 fun e => ?_
  rw [h'.mem, h.mem]

/-- There is one row of a map whose entries differ in these 8 bytes. -/
lemma Row.unique {es' : List IndexEntry} (h : Row es m) (h' : Row es' m)
    (hdistinct : (es.map fun e => hashPrefix8 e.strongHash).Nodup) : es' = es := by
  refine (h.perm h').eq_of_pairwise (fun a b ha hb hab hba => ?_) h'.sorted h.sorted
  exact List.inj_on_of_nodup_map hdistinct ((h.perm h').mem_iff.1 ha) hb (le_antisymm hab hba)

/-! ## The passes of a fold -/

section Fold

variable {d : RepoDir} {bloom : BloomFilter} {m : Hash → Option IndexEntry}

/-- The invariant of a fold that started in `d` on the map `m`: the file and the slab over it are
the map with the entries `done` so far, and the bloom filter has taken the entries `seen`. -/
structure Folding (d : RepoDir) (bloom : BloomFilter) (m : Hash → Option IndexEntry)
    (seen done : List DeltaEntry) (s : FoldState) : Prop where
  file : ∃ base m', (s.dir.lookup .hashIndex).getD [] = encodeEntries base ∧ Row base m' ∧
    overlay m' (s.slab.map FoldRec.entry) = overlay m (done.map DeltaEntry.indexEntry)
  inSequence : InSequence s.slab
  below : ∀ a ∈ s.slab, a.seq < s.total
  rest : ∀ f, f ≠ .hashIndex → f ≠ .hashIndexTmp → s.dir.lookup f = d.lookup f
  bloom : s.bloom = (seen.map DeltaEntry.weakHash).foldl BloomFilter.add bloom

variable {seen done : List DeltaEntry} {s : FoldState}

/-- A pass that is due empties the slab. -/
lemma Folding.flushPass (h : Folding d bloom m seen done s) :
    ∃ s', flushPass s = (.ok (), s') ∧ Folding d bloom m seen done s' ∧ s'.slab = [] := by
  unfold Index.flushPass
  split_ifs with hnil
  · exact ⟨s, rfl, h, hnil⟩
  · obtain ⟨base, m', hfile, hrow, hmap⟩ := h.file
    have hlen : ((s.dir.lookup .hashIndex).getD []).length % entrySize = 0 := by
      rw [hfile, length_encodeEntries, Nat.mul_mod_right]
    simp only [mergePass, hlen, ne_eq, not_true_eq_false, if_false]
    refine ⟨_, rfl, ⟨?_, .nil, (fun a ha => by cases ha), fun f hf hf' => ?_, h.bloom⟩, rfl⟩
    · refine ⟨_, _, ?_, hrow.merge h.inSequence, hmap⟩
      rw [lookup_runOps_replaceOps, Option.getD_some, hfile, decodeEntries_encodeEntries]
    · rw [lookup_runOps (untouched_replaceOps hf'.symm hf.symm _)]
      exact h.rest f hf hf'

/-- The record of the next entry. -/
lemma Folding.take (h : Folding d bloom m seen done s) (e : DeltaEntry) :
    Folding d bloom m seen (done ++ [e])
      { s with slab := s.slab ++ [⟨e.indexEntry, s.total⟩], total := s.total + 1 } := by
  obtain ⟨base, m', hfile, hrow, hmap⟩ := h.file
  refine ⟨⟨base, m', hfile, hrow, ?_⟩, ?_, fun a ha => ?_, h.rest, h.bloom⟩
  · simp only [List.map_append, overlay_append, hmap, List.map_cons, List.map_nil]
  · refine List.pairwise_append.2 ⟨h.inSequence, List.pairwise_singleton _ _, fun a ha b hb => ?_⟩
    rw [List.mem_singleton.1 hb]
    exact h.below a ha
  · rcases List.mem_append.1 ha with ha | ha
    · exact Nat.lt_succ_of_lt (h.below a ha)
    · rw [List.mem_singleton.1 ha]
      exact Nat.lt_succ_self _

/-- **One entry**, wherever the budget cuts. -/
lemma Folding.foldEntry (h : Folding d bloom m done done s) (budget : ℤ) (e : DeltaEntry) :
    ∃ s', foldEntry budget s e = (.ok (), s') ∧
      Folding d bloom m (done ++ [e]) (done ++ [e]) s' := by
  have hadd : Folding d bloom m (done ++ [e]) done { s with bloom := s.bloom.add e.weakHash } :=
    { h with bloom := by simp [h.bloom] }
  unfold Index.foldEntry
  simp only
  split
  · obtain ⟨s', hpass, hs', -⟩ := hadd.flushPass
    rw [hpass]
    exact ⟨_, rfl, hs'.take e⟩
  · exact ⟨_, rfl, hadd.take e⟩

/-- **All entries of a delta.** -/
lemma Folding.foldEntries (h : Folding d bloom m done done s) (budget : ℤ) (es : List DeltaEntry) :
    ∃ s', foldEntries budget es s = (.ok (), s') ∧
      Folding d bloom m (done ++ es) (done ++ es) s' := by
  induction es generalizing s done with
  | nil => exact ⟨s, rfl, by rwa [List.append_nil]⟩
  | cons e es ih =>
    obtain ⟨s1, hentry, h1⟩ := h.foldEntry budget e
    obtain ⟨s', hentries, h'⟩ := ih h1
    refine ⟨s', ?_, by simpa using h'⟩
    rw [Index.foldEntries, hentry]
    exact hentries

/-- A delta object whose header tells the truth about its entries, none with the zero hash. -/
structure WellFormedDelta (data : Bytes) (es : List DeltaEntry) : Prop where
  parse : parseDelta data = .ok es
  size : data.length = deltaHeaderSize + es.length * deltaEntrySize
  ne_zero : ∀ e ∈ es, e.strongHash ≠ .zero

lemma length_decodeDeltaEntries (n : ℕ) (payload : Bytes) :
    (decodeDeltaEntries n payload).length = n := by
  induction n generalizing payload with
  | zero => rfl
  | succ n ih => rw [decodeDeltaEntries, List.length_cons, ih]

/-- What a successful parse has checked. -/
lemma parseDelta_ok {es : List DeltaEntry} (h : parseDelta data = .ok es) :
    deltaHeaderSize ≤ data.length ∧ data.take 6 = deltaMagic ∧ fieldAt data 6 2 = deltaVersion ∧
      (sum256 (data.drop deltaHeaderSize)).val = (data.drop 16).take 32 ∧
      es = decodeDeltaEntries (fieldAt data 8 8) (data.drop deltaHeaderSize) := by
  unfold parseDelta parseDeltaRun at h
  cases hcheck : checkDelta data with
  | error e => rw [hcheck] at h; cases h
  | ok u =>
    rw [hcheck] at h
    obtain ⟨hlen, hmagic, hversion, -, hsum⟩ := checkDelta_eq_ok.1 hcheck
    simp only at h
    split at h
    · rename_i r hr
      split at hr
      · cases hr
      · cases hr
        cases h
        exact ⟨hlen, hmagic, hversion, hsum, rfl⟩
    · cases h

/-- The streamed check and the streamed entries of a well-formed delta. -/
lemma WellFormedDelta.stream {es : List DeltaEntry} (h : WellFormedDelta data es) :
    validateDeltaFile data = .ok () ∧ streamDeltaRecords data = (es, true) := by
  obtain ⟨hlen, hmagic, hversion, hsum, hes⟩ := parseDelta_ok h.parse
  have hcount : fieldAt data 8 8 = es.length := by rw [hes, length_decodeDeltaEntries]
  have hsize := h.size
  constructor
  · unfold validateDeltaFile
    rw [if_neg (not_lt.2 hlen), if_neg (not_not.2 hmagic), if_neg (not_not.2 hversion), hcount,
      if_neg (by rw [← hsize]; simp), if_neg (not_not.2 hsum)]
  · have hthere : (data.length - deltaHeaderSize) / deltaEntrySize = es.length := by
      rw [hsize, Nat.add_sub_cancel_left, Nat.mul_div_cancel _ (by decide)]
    unfold streamDeltaRecords
    simp only [hthere]
    rw [hcount, Nat.min_self, decide_eq_true le_rfl, ← hcount, ← hes]

/-- **All delta files.** -/
lemma Folding.foldFiles (h : Folding d bloom m done done s) (budget : ℤ)
    (hos : List.Forall₂ (fun o es => WellFormedDelta (deltaFile d o) es) os ess) :
    ∃ s', foldFiles budget os s = (.ok (), s') ∧
      Folding d bloom m (done ++ ess.flatten) (done ++ ess.flatten) s' := by
  induction hos generalizing s done with
  | nil => exact ⟨s, rfl, by simpa using h⟩
  | @cons o es os ess ho _ ih =>
    have hfile : deltaFile s.dir o = deltaFile d o := by
      rw [deltaFile, h.rest _ (by simp) (by simp)]
      rfl
    obtain ⟨s1, hentries, h1⟩ := h.foldEntries budget es
    obtain ⟨s', hfiles, h'⟩ := ih h1
    refine ⟨s', ?_, by simpa using h'⟩
    rw [Index.foldFiles]
    simp only [hfile, ho.stream.2, hentries, if_true]
    exact hfiles

lemma validateDeltas_ok
    (hos : List.Forall₂ (fun o es => WellFormedDelta (deltaFile d o) es) os ess) :
    validateDeltas d os = .ok () := by
  induction hos with
  | nil => rfl
  | cons ho _ ih =>
    rw [validateDeltas, ho.stream.1]
    exact ih

end Fold

/-! ## The whole fold -/

/-- The sorted file of an index directory. -/
def sortedFile (d : RepoDir) : Bytes := (d.lookup .hashIndex).getD []

/-- A directory that can be folded: a sorted file, a bloom filter that loads, well-formed deltas. -/
structure Foldable (d : RepoDir) (base : List IndexEntry) (ess : List (List DeltaEntry)) :
    Prop where
  file : sortedFile d = encodeEntries base
  sorted : PrefixSorted base
  nodup : (base.map (·.strongHash)).Nodup
  ne_zero : ∀ e ∈ base, e.strongHash ≠ .zero
  hashIndexEnc : d.lookup .hashIndexEnc = none
  bloomEnc : d.lookup .bloomEnc = none
  bloom : ∀ data, d.lookup .bloom = some data → ∃ bf, loadBloomFilter data = .ok bf
  plain : ∀ stem, d.lookup (.delta stem true) = none
  deltas : List.Forall₂ (fun o es => WellFormedDelta (deltaFile d o) es) (deltaFiles d) ess

/-- The bloom filter of a directory, or a new one. -/
def bloomOf (nbits : UInt64) (d : RepoDir) : BloomFilter :=
  match d.lookup .bloom with
  | none => newBloomFilter nbits
  | some data =>
    match loadBloomFilter data with
    | .error _ => newBloomFilter nbits
    | .ok bf => bf

/-- Open the index for writing and close it. -/
def openAndClose (nbits : UInt64) (nonces : ℕ → Bytes) (d : RepoDir) :
    Except String Unit × RepoDir :=
  match newDedupIndex none nbits false d with
  | (.error e, d) => (.error e, d)
  | (.ok x, d) => (.ok (), runOps d (x.closeOps nonces))

lemma openBloom_keyless {nbits : UInt64} {d : RepoDir}
    (hbloom : ∀ data, d.lookup .bloom = some data → ∃ bf, loadBloomFilter data = .ok bf) :
    openBloom none nbits d =
      (.ok (bloomOf nbits d, (d.lookup .bloom).isNone), d) := by
  unfold openBloom bloomOf
  cases hdata : d.lookup .bloom with
  | none => rfl
  | some data =>
    obtain ⟨bf, hbf⟩ := hbloom data hdata
    simp only [hbf]
    rfl

section Whole

variable {d : RepoDir} {base : List IndexEntry} {ess : List (List DeltaEntry)}

/-- Distinct entries in order. -/
lemma row_of_sorted (hsorted : PrefixSorted es) (hnodup : (es.map (·.strongHash)).Nodup) :
    Row es (overlay (fun _ => none) es) := by
  refine ⟨hsorted, hnodup, fun e => ?_⟩
  rw [overlay_eq_some_iff hnodup]
  simp

/-- The start of a fold. -/
lemma Foldable.start (h : Foldable d base ess) (nbits : UInt64) :
    Folding d (bloomOf nbits d) (overlay (fun _ => none) base) [] []
      ⟨d, bloomOf nbits d, [], 0⟩ :=
  ⟨⟨base, _, h.file, row_of_sorted h.sorted h.nodup, rfl⟩, .nil, (fun a ha => by cases ha),
    fun _ _ _ => rfl, rfl⟩

/-- What a fold does under any budget. -/
lemma Foldable.fold (h : Foldable d base ess) (nbits : UInt64) (batchBudget : ℤ) :
    ∃ total d' merged, foldDeltasStreamedWithBudget nbits batchBudget d = (.ok total, d') ∧
      sortedFile d' = encodeEntries merged ∧
      Row merged (overlay (overlay (fun _ => none) base)
        (ess.flatten.map DeltaEntry.indexEntry)) ∧
      d'.lookup .bloom = some ((ess.flatten.map DeltaEntry.weakHash).foldl BloomFilter.add
        (bloomOf nbits d)).bytes ∧
      ∀ f, f ≠ .hashIndex → f ≠ .hashIndexTmp → f ≠ .bloom → d'.lookup f = d.lookup f := by
  have hbloom := @openBloom_keyless nbits d h.bloom
  set budget := if batchBudget ≤ 0 then defaultFoldBatchBudget else batchBudget with hbudget
  obtain ⟨s1, hfiles, h1⟩ := (h.start nbits).foldFiles budget h.deltas
  obtain ⟨s2, hpass, h2, hslab⟩ := h1.flushPass
  obtain ⟨merged, m', hfile, hrow, hmap⟩ := h2.file
  rw [hslab] at hmap
  refine ⟨s2.total, runOps s2.dir s2.bloom.saveOps, merged, ?_, ?_, ?_, ?_, ?_⟩
  · unfold foldDeltasStreamedWithBudget
    simp only [hbloom, validateDeltas_ok h.deltas, ← hbudget, hfiles, hpass]
  · rw [sortedFile, lookup_runOps (saveOps_untouched (by simp) _)]
    exact hfile
  · exact hmap ▸ hrow
  · rw [h2.bloom, List.nil_append]
    simp [BloomFilter.saveOps, FileOp.act, appendTo]
  · intro f hf hf' hbf
    rw [lookup_runOps (saveOps_untouched hbf _), h2.rest f hf hf']

/-- The entries that an open reads from a delta. -/
lemma WellFormedDelta.deltaEntries {o : String × Bool} (ho : o.2 = false) {es : List DeltaEntry}
    (h : WellFormedDelta (deltaFile d o) es) : deltaEntries none d o = .ok es := by
  obtain ⟨stem, _⟩ := o
  subst ho
  have hread : readDeltaObject none d (stem, false) = .ok (deltaFile d (stem, false)) := rfl
  simp only [Index.deltaEntries, hread, h.parse]

/-- The entries that an open reads from the deltas. -/
lemma collectDeltas_wellFormed (hplain : ∀ o ∈ os, o.2 = false)
    (hos : List.Forall₂ (fun o es => WellFormedDelta (deltaFile d o) es) os ess) :
    collectDeltas none d os = .ok ess.flatten := by
  induction hos with
  | nil => rfl
  | cons ho _ ih =>
    rw [collectDeltas, ho.deltaEntries (hplain _ (.head _)),
      ih fun o ho => hplain o (.tail _ ho)]
    rfl

lemma Foldable.deltaFiles (h : Foldable d base ess) : deltaFiles d = deltaObjectNames d := by
  refine List.filter_eq_self.2 fun o ho => ?_
  rw [mem_deltaObjectNames] at ho
  cases henc : o.2 with
  | false => rfl
  | true =>
    rw [henc, h.plain o.1] at ho
    cases ho

lemma Foldable.pendingDeltas (h : Foldable d base ess) :
    pendingDeltas none d = .ok ess.flatten := by
  rw [Index.pendingDeltas, ← h.deltaFiles]
  refine collectDeltas_wellFormed (fun o ho => ?_) h.deltas
  simpa using (List.mem_filter.1 ho).2

lemma Foldable.indexFile (h : Foldable d base ess) : IndexFile (sortedFile d) := by
  constructor <;> rw [h.file, decodeEntries_encodeEntries]
  · exact h.ne_zero
  · exact h.nodup

lemma Foldable.openable (h : Foldable d base ess) : Openable d := by
  have hread := deltaEntries_of_collectDeltas h.pendingDeltas
  refine ⟨h.hashIndexEnc, h.bloomEnc, h.bloom, h.indexFile,
    fun o ho => hread o (mem_deltaObjectNames.2 ho), fun e he => ?_⟩
  obtain ⟨o, es, ho, hes, hmem⟩ := he
  rw [← mem_deltaObjectNames, ← h.deltaFiles] at ho
  have hplain : o.2 = false := by simpa using (List.mem_filter.1 ho).2
  obtain ⟨i, hi, rfl⟩ := List.getElem_of_mem ho
  have hwf := h.deltas.get hi (h.deltas.length_eq ▸ hi)
  rw [hwf.deltaEntries hplain] at hes
  cases hes
  exact hwf.ne_zero e hmem

/-- **Open and close** persists the deltas over the file. -/
lemma Foldable.openAndClose (h : Foldable d base ess) (nbits : UInt64) (nonces : ℕ → Bytes) :
    ∃ d', openAndClose nbits nonces d = (.ok (), d') ∧
      fileMap (sortedFile d') = overlay (overlay (fun _ => none) base)
        (ess.flatten.map DeltaEntry.indexEntry) := by
  obtain ⟨es, x, hes, -, hx, hopened⟩ := newDedupIndex_keyless h.openable nbits false
  rw [h.pendingDeltas] at hes
  cases hes
  have hsession := (Reachable.opened h.indexFile h.openable.deltas_ne_zero hx).session
  obtain ⟨index, hflush, -, -, hmap, -⟩ := HashIndex.flush_ok hsession.good
  obtain ⟨-, hfile, -⟩ := lookup_shutdown hsession.key hsession.file hflush .close nonces
  refine ⟨_, by rw [Index.openAndClose, hx], ?_⟩
  have hbase : fileMap (sortedFile d) = overlay (fun _ => none) base := by
    rw [fileMap, h.file, decodeEntries_encodeEntries]
  rw [sortedFile, show (runOps _ (x.closeOps nonces)).lookup .hashIndex =
    some index.file from hfile,
    Option.getD_some, hmap, hopened.content, ← hbase]
  rfl

/-- A bloom filter with the weak hashes of the deltas over the filter of the directory. -/
structure BloomCovers (d : RepoDir) (ess : List (List DeltaEntry)) (bf : BloomFilter) : Prop where
  deltas : ∀ es ∈ ess, ∀ e ∈ es, bf.mayContain e.weakHash
  base : ∀ data bf₀, d.lookup .bloom = some data → loadBloomFilter data = .ok bf₀ →
    bf.numBits = bf₀.numBits ∧ ∀ p, BloomFilter.HasBit bf₀.bits p → BloomFilter.HasBit bf.bits p

/-- What a fold of the deltas leaves in the directory. -/
structure Folded (d : RepoDir) (ess : List (List DeltaEntry)) (d' : RepoDir)
    (merged : List IndexEntry) : Prop where
  file : sortedFile d' = encodeEntries merged
  sorted : PrefixSorted merged
  nodup : (merged.map (·.strongHash)).Nodup
  bloom : ∃ bf : BloomFilter, d'.lookup .bloom = some bf.bytes ∧ BloomCovers d ess bf

lemma bloomCovers_foldl_add (nbits : UInt64) (d : RepoDir) (ess : List (List DeltaEntry)) :
    BloomCovers d ess
      ((ess.flatten.map DeltaEntry.weakHash).foldl BloomFilter.add (bloomOf nbits d)) := by
  obtain ⟨hbits, -, hnew⟩ := (bloomOf nbits d).foldl_add (ess.flatten.map DeltaEntry.weakHash)
  refine ⟨fun es hes e he => ?_, fun data bf0 hdata hload => ?_⟩
  · exact hnew _ (List.mem_map.2 ⟨e, List.mem_flatten.2 ⟨es, hes, he⟩, rfl⟩)
  · obtain rfl : bloomOf nbits d = bf0 := by
      unfold bloomOf
      rw [hdata]
      simp only [hload]
    exact ⟨BloomFilter.numBits_foldl_add _ _, hbits⟩

/-- **A streamed fold equals opening and closing.** Under every budget the fold succeeds and leaves
a sorted file without a duplicate hash that is, as a map, what opening and closing the index
persists. Under another budget the file has the same entries, in the same order if no two of them
share the 8 bytes that the file is sorted by.

**Proof sketch.** The passes write a row of the map "deltas over the file" wherever the budget cuts
them (`Foldable.fold`), and that is the map the opened index flushes (`Foldable.openAndClose`). Rows
of one map are permutations of each other. -/
theorem foldDeltas_eq_close (h : Foldable d base ess) (nbits : UInt64) (nonces : ℕ → Bytes) :
    ∃ c, openAndClose nbits nonces d = (.ok (), c) ∧
      ∀ budget, ∃ total d' merged,
        foldDeltasStreamedWithBudget nbits budget d = (.ok total, d') ∧
        Folded d ess d' merged ∧ fileMap (sortedFile d') = fileMap (sortedFile c) ∧
        ∀ budget', ∃ total' d'' merged',
          foldDeltasStreamedWithBudget nbits budget' d = (.ok total', d'') ∧
          sortedFile d'' = encodeEntries merged' ∧ merged'.Perm merged ∧
          ((merged.map fun e => hashPrefix8 e.strongHash).Nodup →
            sortedFile d'' = sortedFile d') := by
  obtain ⟨c, hclose, hc⟩ := h.openAndClose nbits nonces
  refine ⟨c, hclose, fun budget => ?_⟩
  obtain ⟨total, d', merged, hfold, hfile, hrow, hbloom, -⟩ := h.fold nbits budget
  refine ⟨total, d', merged, hfold, ⟨hfile, hrow.sorted, hrow.nodup, _, hbloom,
    bloomCovers_foldl_add nbits d ess⟩, ?_, fun budget' => ?_⟩
  · rw [hfile, hc, hrow.fileMap fun k e he => ?_]
    rcases mem_of_overlay he with ⟨-, hkey⟩ | he
    · exact hkey
    · rcases mem_of_overlay he with ⟨-, hkey⟩ | he
      · exact hkey
      · cases he
  · obtain ⟨total', d'', merged', hfold', hfile', hrow', -⟩ := h.fold nbits budget'
    refine ⟨total', d'', merged', hfold', hfile', hrow.perm hrow', fun hdistinct => ?_⟩
    rw [hfile', hfile, hrow.unique hrow' hdistinct]

end Whole

/-! ## Hashes that share a prefix -/

/-- A hash that differs in its last byte. -/
def hashWith (b : UInt8) : Hash := ⟨List.replicate 31 1 ++ [b], rfl⟩

/-- Two entries whose hashes share their first 31 bytes. -/
def twinEntries : List DeltaEntry := [⟨hashWith 2, 0, 0, 0, 1⟩, ⟨hashWith 1, 0, 0, 9, 1⟩]

/-- A new index and a delta with such entries. -/
def twins : RepoDir := (∅ : RepoDir).insert (.delta "a" false) (marshalDelta twinEntries)

lemma twins_foldable : Foldable twins [] [twinEntries] where
  file := rfl
  sorted := .nil
  nodup := .nil
  ne_zero := by simp
  hashIndexEnc := rfl
  bloomEnc := rfl
  bloom := by
    intro data hdata
    cases hdata
  plain stem := by rw [twins, AList.lookup_insert_ne (by simp)]; rfl
  deltas := by
    have hfiles : deltaFiles twins = [("a", false)] := by decide +kernel
    rw [hfiles]
    refine .cons ⟨parseDelta_marshalDelta (by decide), ?_, by decide⟩ .nil
    decide +kernel

theorem foldDeltas_eq_close_twins :
    Foldable twins [] [twinEntries] ∧
      ∃ c, openAndClose 64 (fun _ => []) twins = (.ok (), c) ∧
        ∃ total d' merged, foldDeltasStreamedWithBudget 64 56 twins = (.ok total, d') ∧
          Folded twins [twinEntries] d' merged ∧
          fileMap (sortedFile d') = fileMap (sortedFile c) := by
  obtain ⟨c, hclose, hfold⟩ := foldDeltas_eq_close twins_foldable 64 fun _ => []
  obtain ⟨total, d', merged, hfold, hfolded, hmap, -⟩ := hfold 56
  exact ⟨twins_foldable, c, hclose, total, d', merged, hfold, hfolded, hmap⟩

/-- **The budget shows in the file** where hashes share their first 8 bytes: a pass sorts its slab
by the whole hash, but merges it by these bytes alone. -/
theorem fold_order_depends_on_budget :
    Foldable twins [] [twinEntries] ∧
      (decodeEntries (sortedFile (foldDeltasStreamedWithBudget 64 0 twins).2)).map
        (·.strongHash) = [hashWith 1, hashWith 2] ∧
      (decodeEntries (sortedFile (foldDeltasStreamedWithBudget 64 56 twins).2)).map
        (·.strongHash) = [hashWith 2, hashWith 1] :=
  ⟨twins_foldable, by decide +kernel, by decide +kernel⟩

end DiskNexus.Index
