import DiskNexus.Index.FoldStream

/-!
# The life of an index directory

An unencrypted index directory is used by one session after the other. Other runs deliver delta
objects at any time; between sessions these are folded into the index file, and the file is
filtered. A fold may die between two passes.

## Main results

`exec_inv`, `bloomSuspect_opened`
-/

namespace DiskNexus.Index

open Binary Sha256 Files

/-! ## The code -/

/-- `FilterSortedIndex`: keep the entries of accepted packs. -/
def filterSortedIndex (keep : UInt32 → Bool) (d : RepoDir) : Except String Unit × RepoDir :=
  match d.lookup .hashIndex with
  | none => (.ok (), d)
  | some data =>
    if data.length % entrySize ≠ 0 then
      (.error "sorted index truncated mid-entry", d.erase .hashIndexTmp)
    else (.ok (), runOps d (replaceOps .hashIndexTmp .hashIndex
      (encodeEntries ((decodeEntries data).filter fun e => keep e.packNumber))))

/-- The directory left by a fold that dies after `n` records, before it saves the bloom filter. -/
def foldCut (nbits : UInt64) (batchBudget : ℤ) (n : ℕ) (lastPass : Bool) (d : RepoDir) :
    RepoDir :=
  match openBloom none nbits d with
  | (.error _, _) => d
  | (.ok (bloom, _), _) =>
    match validateDeltas d (deltaFiles d) with
    | .error _ => d
    | .ok () =>
      let budget := if batchBudget ≤ 0 then defaultFoldBatchBudget else batchBudget
      let records := (deltaFiles d).flatMap fun o => (streamDeltaRecords (deltaFile d o)).1
      let s := (foldEntries budget (records.take n) ⟨d, bloom, [], 0⟩).2
      if lastPass then (flushPass s).2.dir else s.dir

/-- An index directory and the session that uses it, with the hashes it has inserted and the deltas
that a completed fold has taken over. -/
structure World where
  dir : RepoDir
  session : Option DedupIndex
  inserted : List Hash
  folded : List String

/-- What happens to an index directory. -/
inductive Event
  /-- another run publishes a delta object -/
  | deliver (stem : String) (data : Bytes)
  /-- `NewDedupIndex`, or `NewDedupIndexReadOnly` -/
  | openIndex (nbits : UInt64) (readOnly : Bool)
  /-- `LookupDirect` -/
  | lookup (h : Hash)
  /-- `Insert` -/
  | insert (id : ChunkID) (packNumber : UInt32) (storeOffset : UInt64) (chunkLength : UInt32)
  /-- `CaptureDelta` -/
  | captureDelta (path : String)
  /-- `FlushHashIndex` -/
  | flushHashIndex
  /-- `ReadAllEntries` -/
  | readAllEntries
  /-- `Flush` -/
  | flush (nonces : ℕ → Bytes)
  /-- `Close` -/
  | close (nonces : ℕ → Bytes)
  /-- `CloseDiscard` -/
  | closeDiscard
  /-- `Export`, once it has collected the hashes of the backups to export -/
  | exportArchive (collected : Except String (List Hash)) (nbits : UInt64) (nonces : ℕ → Bytes)
  /-- `FoldDeltasStreamedWithBudget` -/
  | fold (nbits : UInt64) (batchBudget : ℤ)
  /-- a fold that dies -/
  | foldCut (nbits : UInt64) (batchBudget : ℤ) (n : ℕ) (lastPass : Bool)
  /-- the removal of a delta that has been folded -/
  | removeDelta (stem : String)
  /-- `FilterSortedIndex` -/
  | filterSortedIndex (keep : UInt32 → Bool)

namespace World

/-- Open the index. -/
def openIndex (w : World) (nbits : UInt64) (readOnly : Bool) : Option World :=
  match w.session with
  | some _ => none
  | none =>
    match newDedupIndex none nbits readOnly w.dir with
    | (.error _, d) => some { w with dir := d }
    | (.ok x, d) => some { w with dir := d, session := some x, inserted := [] }

/-- Close the index, with success. -/
def closeIndex (w : World) (nonces : ℕ → Bytes) : Option World :=
  match w.session with
  | none => none
  | some x =>
    match x.index.flush with
    | .error _ => none
    | .ok _ => some { w with dir := runOps w.dir (x.closeOps nonces), session := none }

/-- `Export` as far as it concerns the index: it is opened, and closed in any case. -/
def exportArchive (w : World) (collected : Except String (List Hash)) (nbits : UInt64)
    (nonces : ℕ → Bytes) : Option World :=
  match collected with
  | .error _ => some w
  | .ok _ =>
    match w.openIndex nbits false with
    | none => none
    | some w => if w.session.isSome then w.closeIndex nonces else some w

/-- One event; `none` where it cannot happen. -/
def step (w : World) : Event → Option World
  | .deliver stem data =>
    if (w.dir.lookup (.delta stem false)).isSome then none
    else some { w with
      dir := w.dir.insert (.delta stem false) data
      folded := w.folded.filter (· ≠ stem) }
  | .openIndex nbits readOnly => w.openIndex nbits readOnly
  | .lookup _ => some w
  | .insert id packNumber storeOffset chunkLength =>
    match w.session with
    | none => none
    | some x =>
      let inserted := x.insert id packNumber storeOffset chunkLength
      some { w with
        dir := runOps w.dir inserted.2
        session := some inserted.1
        inserted := id.strongHash :: w.inserted }
  | .captureDelta path =>
    match w.session with
    | none => none
    | some x =>
      match x.captureDelta path with
      | .error _ => none
      | .ok (x, ops) => some { w with dir := runOps w.dir ops, session := some x }
  | .flushHashIndex =>
    match w.session with
    | none => none
    | some x =>
      match x.flushHashIndex with
      | .error _ => none
      | .ok x' => some { w with dir := runOps w.dir x.index.flushDeltaOps, session := some x' }
  | .readAllEntries =>
    match w.session with
    | none => none
    | some x =>
      match x.index.flush with
      | .error _ => none
      | .ok index => some { w with
          dir := runOps w.dir x.index.flushOps
          session := some { x with index := index } }
  | .flush nonces =>
    match w.session with
    | none => none
    | some x =>
      match x.flush with
      | .error _ => none
      | .ok x' => some { w with dir := runOps w.dir (x.flushOps nonces), session := some x' }
  | .close nonces => w.closeIndex nonces
  | .closeDiscard =>
    match w.session with
    | none => none
    | some x => some { w with dir := runOps w.dir x.closeDiscardOps, session := none }
  | .exportArchive collected nbits nonces => w.exportArchive collected nbits nonces
  | .fold nbits batchBudget =>
    if w.session.isSome then none
    else
      match foldDeltasStreamedWithBudget nbits batchBudget w.dir with
      | (.error _, d) => some { w with dir := d }
      | (.ok _, d) => some { w with dir := d, folded := (deltaFiles w.dir).map Prod.fst }
  | .foldCut nbits batchBudget n lastPass =>
    if w.session.isSome then none
    else some { w with dir := Index.foldCut nbits batchBudget n lastPass w.dir }
  | .removeDelta stem =>
    if stem ∈ w.folded then some { w with dir := w.dir.erase (.delta stem false) } else none
  | .filterSortedIndex keep =>
    if w.session.isSome then none
    else some { w with dir := (Index.filterSortedIndex keep w.dir).2 }

/-- A history of events. -/
def exec : World → List Event → Option World
  | w, [] => some w
  | w, e :: es =>
    match w.step e with
    | none => none
    | some w => w.exec es

/-! ### What the calls of a session do -/

section Calls

variable {w w' : World}

lemma step_insert {id : ChunkID} {p : UInt32} {o : UInt64} {l : UInt32}
    (h : w.step (.insert id p o l) = some w') :
    ∃ x, w.session = some x ∧ w' = ⟨runOps w.dir (x.insert id p o l).2,
      some (x.insert id p o l).1, id.strongHash :: w.inserted, w.folded⟩ := by
  simp only [step] at h
  split at h
  · cases h
  · rename_i x hx
    cases h
    exact ⟨x, hx, rfl⟩

lemma step_captureDelta {path : String} (h : w.step (.captureDelta path) = some w') :
    ∃ x x' ops, w.session = some x ∧ x.captureDelta path = .ok (x', ops) ∧
      w' = ⟨runOps w.dir ops, some x', w.inserted, w.folded⟩ := by
  simp only [step] at h
  split at h
  · cases h
  · rename_i x hx
    split at h
    · cases h
    · rename_i x' ops harm
      cases h
      exact ⟨x, x', ops, hx, harm, rfl⟩

lemma step_flushHashIndex (h : w.step .flushHashIndex = some w') :
    ∃ x x', w.session = some x ∧ x.flushHashIndex = .ok x' ∧
      w' = ⟨runOps w.dir x.index.flushDeltaOps, some x', w.inserted, w.folded⟩ := by
  simp only [step] at h
  split at h
  · cases h
  · rename_i x hx
    split at h
    · cases h
    · rename_i x' hflush
      cases h
      exact ⟨x, x', hx, hflush, rfl⟩

lemma step_readAllEntries (h : w.step .readAllEntries = some w') :
    ∃ x index, w.session = some x ∧ x.index.flush = .ok index ∧
      w' = ⟨runOps w.dir x.index.flushOps, some { x with index := index }, w.inserted,
        w.folded⟩ := by
  simp only [step] at h
  split at h
  · cases h
  · rename_i x hx
    split at h
    · cases h
    · rename_i index hflush
      cases h
      exact ⟨x, index, hx, hflush, rfl⟩

lemma step_flush {nonces : ℕ → Bytes} (h : w.step (.flush nonces) = some w') :
    ∃ x x', w.session = some x ∧ x.flush = .ok x' ∧
      w' = ⟨runOps w.dir (x.flushOps nonces), some x', w.inserted, w.folded⟩ := by
  simp only [step] at h
  split at h
  · cases h
  · rename_i x hx
    split at h
    · cases h
    · rename_i x' hflush
      cases h
      exact ⟨x, x', hx, hflush, rfl⟩

lemma closeIndex_some {nonces : ℕ → Bytes} (h : w.closeIndex nonces = some w') :
    ∃ x index, w.session = some x ∧ x.index.flush = .ok index ∧
      w' = ⟨runOps w.dir (x.closeOps nonces), none, w.inserted, w.folded⟩ := by
  unfold closeIndex at h
  split at h
  · cases h
  · rename_i x hx
    split at h
    · cases h
    · rename_i index hflush
      cases h
      exact ⟨x, index, hx, hflush, rfl⟩

lemma step_closeDiscard (h : w.step .closeDiscard = some w') :
    ∃ x, w.session = some x ∧
      w' = ⟨runOps w.dir x.closeDiscardOps, none, w.inserted, w.folded⟩ := by
  simp only [step] at h
  split at h
  · cases h
  · rename_i x hx
    cases h
    exact ⟨x, hx, rfl⟩

end Calls

/-- What every step keeps, a history keeps. -/
lemma exec_inv {P : World → Prop} {A : Event → Prop}
    (hstep : ∀ w w' e, A e → P w → w.step e = some w' → P w') {w w' : World} {es : List Event}
    (hes : ∀ e ∈ es, A e) (hw : P w) (h : w.exec es = some w') : P w' := by
  induction es generalizing w with
  | nil =>
    cases h
    exact hw
  | cons e es ih =>
    unfold exec at h
    cases he : w.step e with
    | none => rw [he] at h; cases h
    | some w1 =>
      rw [he] at h
      exact ih (fun e' he' => hes e' (.tail _ he'))
        (hstep w w1 e (hes e (.head _)) hw he) h

end World

/-- A directory that nobody uses. -/
def World.idle (d : RepoDir) : World := ⟨d, none, [], []⟩

/-! ## What an open gives -/

lemma DedupIndex.captureInsert_bloom (x : DedupIndex) (e : DeltaEntry) :
    (x.captureInsert e).1.bloom = x.bloom := by
  unfold DedupIndex.captureInsert
  split <;> rfl

lemma DedupIndex.insert_bloom (x : DedupIndex) (id : ChunkID) (p : UInt32) (o : UInt64)
    (l : UInt32) : (x.insert id p o l).1.bloom = x.bloom.add id.weakHash :=
  DedupIndex.captureInsert_bloom _ _

lemma DedupIndex.captureDelta_bloom {x x' : DedupIndex} {path : String}
    {ops : List (FileOp FileName)} (h : x.captureDelta path = .ok (x', ops)) :
    x'.bloom = x.bloom := by
  unfold DedupIndex.captureDelta at h
  split at h
  · cases h
  · cases h
    rfl

/-! ## When the bloom filter is suspect -/

/-- A hash table that holds an entry counts one. -/
lemma DiskHashTable.count_pos {t : DiskHashTable} (ht : t.Good) {h : Hash}
    (hh : (t.lookup h).isSome) : 0 < t.count := by
  obtain ⟨e, he⟩ := Option.isSome_iff_exists.1 hh
  obtain ⟨-, hne, i, hi, rfl⟩ := (lookup_eq_some_iff ht).1 he
  refine lt_of_lt_of_le (Finset.card_pos.2 ⟨i, Finset.mem_filter.2 ⟨Finset.mem_range.2 hi, ?_⟩⟩)
    ht.occupied_le
  rw [key_eq_some_iff.2 ⟨rfl, hne⟩]
  rfl

/-- An index that resolves a hash counts one. -/
lemma indexCount_pos {x : HashIndex} (hx : x.Good) (hmode : x.noHtab = false) {h : Hash}
    (hh : (x.content h).isSome) : 0 < indexCount x := by
  have hsome : x.htab.isSome := by rw [hx.mode, hmode]; rfl
  obtain ⟨t, ht⟩ := Option.isSome_iff_exists.1 hsome
  rw [indexCount, ht]
  by_cases hl : (t.lookup h).isSome
  · exact Nat.add_pos_left (DiskHashTable.count_pos (hx.htab_good t ht) hl) _
  · -- then it is in the buffer only
    have hbuffer : (x.entries.get h).isSome := by
      rw [HashIndex.content, overlay_values, HashIndex.base, ht, Option.isSome_or,
        Bool.or_eq_true] at hh
      exact hh.resolve_right hl
    have hkey : h ∈ x.entries.keys.filter fun h => (t.lookup h).isNone := by
      refine List.mem_filter.2 ⟨?_, by simpa using hl⟩
      rw [← AList.mem_keys, ← AList.lookup_isSome]
      simpa [Buffer.get] using hbuffer
    exact Nat.add_pos_right _ (List.length_pos_of_mem hkey)

/-- An index file that holds an entry. -/
lemma sortedFile_ne_nil {d : RepoDir} {h : Hash} (hh : (fileMap (sortedFile d) h).isSome) :
    (sortedFile d).isEmpty = false := by
  cases hfile : sortedFile d with
  | nil =>
    rw [hfile] at hh
    simp [fileMap, decodeEntries, decodeN] at hh
  | cons b bs => rfl

/-- **A suspect bloom filter**: an index file that holds an entry is opened without its filter. -/
theorem bloomSuspect_opened {nbits : UInt64} {d : RepoDir} {es : List DeltaEntry}
    {x : DedupIndex} (hx : OpenedAs none nbits false (d.lookup .bloom) (sortedFile d) es x)
    {h : Hash} (hh : (fileMap (sortedFile d) h).isSome) :
    bloomSuspect x = (d.lookup .bloom).isNone := by
  have hcontent : (x.index.content h).isSome := by
    rw [hx.content, isSome_openedMap]
    exact .inl hh
  have hcount := indexCount_pos hx.good hx.mode hcontent
  rw [bloomSuspect, hx.missing, sortedFile_ne_nil hh]
  simp [hcount]

end DiskNexus.Index
