import DiskNexus.Lib.Segments
import DiskNexus.Manifest.Dnm
import DiskNexus.Restore.Entries

/-!
# Restoring single files

The bytes of a file lie in the stream of a backup, in one range or, for a file of a volume, in the
ranges of its extents. Two binary searches find the entries that reach into a range; their chunks
are read, checked, trimmed at both ends and written.

## Main results

`searchEntries_ok`, `searchEntriesEnd_ok`, `restoreFile_exact`
-/

namespace DiskNexus.Restore

open Binary Sha256 Store Index Overwrite Segments
open Manifest (Entry FileEntry IsInt64 wrapInt64 DNMReader)

/-- How a call ends other than with a result. -/
inductive Failure
  | error (text : String)
  | panicked
  deriving DecidableEq

/-- The `int64` at which an entry ends. -/
def entryEnd (e : Entry) : ℤ := wrapInt64 (e.volumeOffset + e.chunkLength)

/-! ## The searches -/

/-- The loop of both searches: the first entry in `[lo, hi)` that is not before the target. Every
round makes the interval smaller. -/
def searchLoop (ea : EntryAccessor) (before : Entry → Bool) (what : String) :
    ℕ → ℕ → ℕ → Except String ℕ
  | 0, lo, _ => .ok lo
  | fuel + 1, lo, hi =>
    if lo < hi then
      let mid := (lo + hi) / 2
      match ea.entryAt mid with
      | .error e => .error s!"{what}: accessing entry {mid}: {e}"
      | .ok e =>
        if before e then searchLoop ea before what fuel (mid + 1) hi
        else searchLoop ea before what fuel lo mid
    else .ok lo

/-- `SearchEntries`: the first entry that ends behind the target. -/
def searchEntries (ea : EntryAccessor) (target : ℤ) : Except String ℕ :=
  searchLoop ea (fun e => entryEnd e ≤ target) "SearchEntries" ea.count 0 ea.count

/-- `SearchEntriesEnd`: the first entry that starts at the target or behind it. -/
def searchEntriesEnd (ea : EntryAccessor) (target : ℤ) : Except String ℕ :=
  searchLoop ea (fun e => e.volumeOffset < target) "SearchEntriesEnd" ea.count 0 ea.count

/-- The entries that a file or an extent (`what`) is restored from. -/
def entriesBetween (what : String) (ea : EntryAccessor) (a b : ℤ) : Except String (List Entry) :=
  match searchEntries ea a with
  | .error e => .error s!"searching entries for {what} start: {e}"
  | .ok startIdx =>
    match searchEntriesEnd ea b with
    | .error e => .error s!"searching entries for {what} end: {e}"
    | .ok endIdx =>
      (ea.range startIdx endIdx).mapError fun e =>
        s!"loading entry range [{startIdx},{endIdx}): {e}"

/-! ## Chunks -/

/-- `chunkData`: a frame that was fetched ahead, or else the chunk in the store. -/
def chunkData (R : Restorer) (frame : Option Bytes) (pack off : ℕ) : Except String Bytes :=
  match frame.bind fun frame => (retrieveFromFrame R.store.codec frame).toOption with
  | some data => .ok data
  | none => (R.store.retrieve pack off).mapError fun e => s!"retrieving chunk from pack {pack}: {e}"

/-- The chunk of an entry, looked up, read and checked. -/
def verifiedChunk (R : Restorer) (frame : Option Bytes) (e : Entry) : Except String Bytes :=
  match R.index.lookupDirect e.chunkHash with
  | none =>
    let hash := shortHex e.chunkHash
    .error s!"chunk not found in index (hash {hash})"
  | some ie =>
    match chunkData R frame ie.packNumber.toNat ie.storeOffset.toNat with
    | .error err => .error err
    | .ok data =>
      if sum256 (identityHashInput R.normalizer data) ≠ e.chunkHash then
        let off := e.volumeOffset
        .error s!"chunk integrity error at offset {off}"
      else .ok data

/-- The bytes of a chunk in `[a, b)`; slice bounds in the wrong order panic. -/
def sliceOf (a b : ℤ) (e : Entry) (data : Bytes) : Option Bytes :=
  let sliceStart := if e.volumeOffset < a then a - e.volumeOffset else 0
  let sliceEnd := if b < entryEnd e then data.length - (entryEnd e - b) else (data.length : ℤ)
  if sliceStart ≤ sliceEnd then
    some ((data.drop sliceStart.toNat).take (sliceEnd - sliceStart).toNat)
  else none

/-! ## A file that is one range of the stream -/

/-- What fails while a file is restored: its creation, a write, or the resizing. -/
structure FileFaults where
  createFails : Bool
  writeFails : ℕ → Bool
  truncateFails : Bool

/-- The loop of `restoreFile` over the entries, with what the file holds. -/
def appendChunks (R : Restorer) (frames : ℕ → Option Bytes) (writeFails : ℕ → Bool) (a b : ℤ) :
    ℕ → List Entry → Bytes → Except Failure Unit × Bytes
  | _, [], out => (.ok (), out)
  | i, e :: es, out =>
    match verifiedChunk R (frames i) e with
    | .error msg => (.error (.error msg), out)
    | .ok data =>
      match sliceOf a b e data with
      | none => (.error .panicked, out)
      | some bytes =>
        if writeFails i then (.error (.error "write"), out)
        else appendChunks R frames writeFails a b (i + 1) es (out ++ bytes)

/-- `restoreFile`, with what its path holds. A failed restore removes the file that it has created;
a panic leaves it. -/
def restoreFile (R : Restorer) (frames : ℕ → Option Bytes) (faults : FileFaults) (f : FileEntry)
    (ea : EntryAccessor) (existing : Option Bytes) : Except Failure ℤ × Option Bytes :=
  let size := f.size
  let streamLength := f.streamLength
  if streamLength = 0 then
    if 0 < size then
      (.error
        (.error (s!"catalog entry has size {size} but no stream data (re-backup with a fixed " ++
        "--capture-files)")), existing)
    else if faults.createFails then (.error (.error "create"), existing)
    else (.ok 0, some [])
  else if faults.createFails then (.error (.error "create"), existing)
  else
    let fileStart := f.streamOffset
    let fileEnd := wrapInt64 (f.streamOffset + f.streamLength)
    match entriesBetween "file" ea fileStart fileEnd with
    | .error e => (.error (.error e), none)
    | .ok chunk =>
      match appendChunks R frames faults.writeFails fileStart fileEnd 0 chunk [] with
      | (.error (.error e), _) => (.error (.error e), none)
      | (.error .panicked, out) => (.error .panicked, some out)
      | (.ok (), out) =>
        let written := out.length
        if (written : ℤ) ≠ streamLength then
          (.error
            (.error (s!"restored incomplete: wrote {written} of {streamLength} bytes (missing " ++
            "or misaligned chunk entries)")), none)
        else (.ok written, some out)

/-! ## What the searches find -/

/-- The accessor serves the entries, if it gives something. -/
structure EntryAccessor.Serves (ea : EntryAccessor) (es : List Entry) : Prop where
  count : ea.count = es.length
  entryAt : ∀ i e, ea.entryAt i = .ok e → es[i]? = some e
  range : ∀ i j l, ea.range i j = .ok l → l = (es.drop i).take (j - i)

/-- The span of an entry in the stream. -/
def span (e : Entry) : Span := ⟨e.volumeOffset, e.chunkLength⟩

/-- Entries of a stream in their order. They do not overlap, and there may be gaps between them.
Their ends and lengths are `int64` values. -/
structure Sorted (es : List Entry) : Prop where
  ordered : Ordered (es.map span)
  lower : ∀ e ∈ es, -2 ^ 63 ≤ e.volumeOffset
  upper : ∀ e ∈ es, (span e).stop < 2 ^ 63
  length : ∀ e ∈ es, (e.chunkLength : ℤ) < 2 ^ 63

lemma serves_slice (es : List Entry) : (sliceEntryAccessor es).Serves es where
  count := rfl
  entryAt i e h := by
    unfold sliceEntryAccessor at h
    simp only at h
    split at h
    · cases h
    · cases h
      assumption
  range i j l h := by
    unfold sliceEntryAccessor at h
    simp only at h
    split at h
    · cases h
    · cases h
      rfl

variable {es chunk : List Entry} {e : Entry} {i r : ℕ} {a b : ℤ}

lemma entryEnd_eq (hes : Sorted es) (he : e ∈ es) :
    entryEnd e = (span e).stop := by
  have hlower := hes.lower e he
  have hupper := hes.upper e he
  unfold Span.stop span at hupper
  exact Manifest.ofInt64Bits_int64Bits (by omega) hupper

/-- Of two entries, the first one starts and ends first. -/
lemma Sorted.le (hes : Sorted es) {j : ℕ} {a b : Entry} (ha : es[i]? = some a)
    (hb : es[j]? = some b) (hij : i ≤ j) :
    a.volumeOffset ≤ b.volumeOffset ∧ (span a).stop ≤ (span b).stop := by
  rcases Nat.lt_or_eq_of_le hij with hlt | rfl
  · obtain ⟨hi, rfl⟩ := List.getElem?_eq_some_iff.1 ha
    obtain ⟨hj, rfl⟩ := List.getElem?_eq_some_iff.1 hb
    have hst := List.pairwise_iff_getElem.1 (List.pairwise_map.1 hes.ordered) i j hi hj hlt
    have ha' := (span es[i]).start_le_stop
    have hb' := (span es[j]).start_le_stop
    change es[i].volumeOffset ≤ _ at ha'
    change _ ≤ es[j].volumeOffset at hst
    change es[j].volumeOffset ≤ _ at hb'
    omega
  · rw [ha] at hb
    cases hb
    exact ⟨le_refl _, le_refl _⟩

section Search

variable {ea : EntryAccessor} {es : List Entry} {before : Entry → Bool} {what : String}

/-- What the search keeps: the entries in front of `lo` are before the target, those from `hi` on
are not. -/
structure Bracket (es : List Entry) (before : Entry → Bool) (lo hi : ℕ) : Prop where
  le : lo ≤ hi
  length : hi ≤ es.length
  below : ∀ (i : ℕ) e, es[i]? = some e → i < lo → before e = true
  above : ∀ (i : ℕ) e, es[i]? = some e → hi ≤ i → before e = false

/-- Only entries before the target are in front of one that is. -/
def Monotone (es : List Entry) (before : Entry → Bool) : Prop :=
  ∀ (i j : ℕ) a b, es[i]? = some a → es[j]? = some b → i ≤ j → before b = true → before a = true

/-- The search ends at the first entry that is not before the target. -/
lemma searchLoop_ok (hea : ea.Serves es) (hmono : Monotone es before) {fuel lo hi : ℕ}
    (hb : Bracket es before lo hi) (hfuel : hi - lo ≤ fuel)
    (h : searchLoop ea before what fuel lo hi = .ok r) : Bracket es before r r := by
  induction fuel generalizing lo hi with
  | zero =>
    obtain rfl : lo = hi := by have := hb.le; omega
    cases h
    exact hb
  | succ fuel ih =>
    have hlen := hb.length
    unfold searchLoop at h
    split at h
    · simp only at h
      split at h
      · cases h
      · rename_i e he
        have hget := hea.entryAt _ _ he
        split_ifs at h with hbefore
        · refine ih ⟨by omega, hlen, fun i e' he' hi => ?_, hb.above⟩ (by omega) h
          exact hmono i _ e' e he' hget (by omega) hbefore
        · refine ih ⟨by omega, by omega, hb.below, fun i e' he' hi => ?_⟩ (by omega) h
          by_contra hnot
          exact hbefore (hmono _ i e e' hget he' hi (by simpa using hnot))
    · obtain rfl : lo = hi := by have := hb.le; omega
      cases h
      exact hb

/-- The whole of the entries, before the search. -/
lemma bracket_all (es : List Entry) (before : Entry → Bool) : Bracket es before 0 es.length where
  le := Nat.zero_le _
  length := le_rfl
  below i _ _ hi := absurd hi (Nat.not_lt_zero i)
  above i e he hi := by
    rw [List.getElem?_eq_none hi] at he
    cases he

lemma Bracket.iff (h : Bracket es before r r) (he : es[i]? = some e) :
    i < r ↔ before e = true := by
  refine ⟨h.below i e he, fun hbefore => ?_⟩
  by_contra hge
  rw [h.above i e he (by omega)] at hbefore
  cases hbefore

/-- A search through entries that can all be read ends. -/
lemma searchLoop_isOk (hread : ∀ i < es.length, ∃ e, ea.entryAt i = .ok e) {fuel lo hi : ℕ}
    (hhi : hi ≤ es.length) : ∃ r, searchLoop ea before what fuel lo hi = .ok r := by
  induction fuel generalizing lo hi with
  | zero => exact ⟨lo, rfl⟩
  | succ fuel ih =>
    unfold searchLoop
    split
    · obtain ⟨e, he⟩ := hread ((lo + hi) / 2) (by omega)
      simp only [he]
      split
      · exact ih hhi
      · exact ih (by omega)
    · exact ⟨lo, rfl⟩

end Search

section Between

variable {ea : EntryAccessor} {es : List Entry}

/-- `SearchEntries` finds the first entry that ends behind the target. -/
lemma searchEntries_ok (hea : ea.Serves es) (hes : Sorted es) {target : ℤ}
    (h : searchEntries ea target = .ok r) (he : es[i]? = some e) :
    i < r ↔ (span e).stop ≤ target := by
  unfold searchEntries at h
  rw [hea.count] at h
  have hmono : Monotone es fun e => entryEnd e ≤ target := by
    intro i j a b ha hb hij hbefore
    simp only [decide_eq_true_iff] at hbefore ⊢
    rw [entryEnd_eq hes (List.mem_of_getElem? hb)] at hbefore
    rw [entryEnd_eq hes (List.mem_of_getElem? ha)]
    exact (hes.le ha hb hij).2.trans hbefore
  rw [(searchLoop_ok hea hmono (bracket_all es _) (by omega) h).iff he,
    entryEnd_eq hes (List.mem_of_getElem? he), decide_eq_true_iff]

/-- `SearchEntriesEnd` finds the first entry that starts at the target or behind it. -/
lemma searchEntriesEnd_ok (hea : ea.Serves es) (hes : Sorted es) {target : ℤ}
    (h : searchEntriesEnd ea target = .ok r) (he : es[i]? = some e) :
    i < r ↔ (span e).start < target := by
  unfold searchEntriesEnd at h
  rw [hea.count] at h
  have hmono : Monotone es fun e => e.volumeOffset < target := by
    intro i j a b ha hb hij hbefore
    simp only [decide_eq_true_iff] at hbefore ⊢
    exact (hes.le ha hb hij).1.trans_lt hbefore
  rw [(searchLoop_ok hea hmono (bracket_all es _) (by omega) h).iff he, decide_eq_true_iff]
  rfl

/-- The entries between two searches are those that reach into the range. -/
lemma search_meets (hea : ea.Serves es) (hes : Sorted es) {s t : ℕ}
    (hs : searchEntries ea a = .ok s) (ht : searchEntriesEnd ea b = .ok t) (he : es[i]? = some e) :
    (s ≤ i ∧ i < t) ↔ (span e).Meets a b := by
  have hstart := searchEntries_ok hea hes hs he
  have hend := searchEntriesEnd_ok hea hes ht he
  unfold Span.Meets
  omega

/-- What a restore reads: the entries that reach into the range, in their order. -/
lemma entriesBetween_ok (hea : ea.Serves es) (hes : Sorted es) {what : String}
    (h : entriesBetween what ea a b = .ok chunk) :
    chunk.Sublist es ∧ (∀ e ∈ chunk, (span e).Meets a b) ∧
      ∀ e ∈ es, (span e).Meets a b → e ∈ chunk := by
  unfold entriesBetween at h
  split at h
  · cases h
  · rename_i s hs
    split at h
    · cases h
    · rename_i t ht
      cases hrange : ea.range s t with
      | error err =>
        rw [hrange] at h
        cases h
      | ok l =>
        rw [hrange] at h
        obtain rfl : l = chunk := Except.ok.inj h
        have hl := hea.range s t l hrange
        refine ⟨?_, fun e he => ?_, fun e he hmeets => ?_⟩
        · rw [hl]
          exact (List.take_sublist _ _).trans (List.drop_sublist _ _)
        · rw [hl] at he
          obtain ⟨i, hi⟩ := List.mem_iff_getElem?.1 he
          have hlt : i < t - s := by
            by_contra hge
            rw [List.getElem?_take_eq_none (by omega)] at hi
            cases hi
          rw [List.getElem?_take_of_lt hlt, List.getElem?_drop] at hi
          exact (search_meets hea hes hs ht hi).1 ⟨by omega, by omega⟩
        · obtain ⟨i, hi⟩ := List.mem_iff_getElem?.1 he
          obtain ⟨hsi, hit⟩ := (search_meets hea hes hs ht hi).2 hmeets
          rw [hl]
          refine List.mem_iff_getElem?.2 ⟨i - s, ?_⟩
          rw [List.getElem?_take_of_lt (by omega), List.getElem?_drop, Nat.add_sub_cancel' hsi, hi]

end Between

/-! ## What is written -/

/-- The chunks of the entries are parts of the stream `v`. -/
def Describes {ι : Type} (R : Restorer) (frames : ι → Option Bytes) (es : List Entry)
    (v : ℤ → UInt8) : Prop :=
  ∀ e ∈ es, ∀ i data, verifiedChunk R (frames i) e = .ok data →
    data = slice v e.volumeOffset e.chunkLength

/-- The trimmed chunk is the part of the entry in the range. -/
lemma sliceOf_eq (hend : entryEnd e = (span e).stop) (hab : a ≤ b) (hmeets : (span e).Meets a b)
    (v : ℤ → UInt8) :
    sliceOf a b e (slice v e.volumeOffset e.chunkLength) = some (part v a b (span e)) := by
  obtain ⟨hlt, hlt'⟩ := hmeets
  have hstop : (span e).stop = e.volumeOffset + e.chunkLength := rfl
  have hstart : (span e).start = e.volumeOffset := rfl
  -- the two bounds of the slice, counted from the start of the chunk
  have hlo : (if e.volumeOffset < a then a - e.volumeOffset else 0) =
      max a e.volumeOffset - e.volumeOffset := by
    split <;> omega
  have hhi : (if b < e.volumeOffset + (e.chunkLength : ℤ) then
      (e.chunkLength : ℤ) - (e.volumeOffset + e.chunkLength - b) else e.chunkLength) =
        min b (e.volumeOffset + e.chunkLength) - e.volumeOffset := by
    split <;> omega
  unfold sliceOf
  simp only [length_slice, hend, hstop, hlo, hhi]
  rw [if_pos (by omega), part, hstart, hstop]
  congr 1
  rw [take_drop_slice v _ (by omega)]
  congr 1 <;> omega

section Append

variable {R : Restorer} {frames : ℕ → Option Bytes} {es chunk : List Entry} {v : ℤ → UInt8}
    {a b : ℤ}

/-- The loop appends the parts of the entries, or ends with an error. -/
lemma appendChunks_eq (writeFails : ℕ → Bool) (hdesc : Describes R frames es v)
    (hsub : ∀ e ∈ chunk, e ∈ es) (hend : ∀ e ∈ chunk, entryEnd e = (span e).stop) (hab : a ≤ b)
    (hmeets : ∀ e ∈ chunk, (span e).Meets a b) (i : ℕ) (out : Bytes) :
    appendChunks R frames writeFails a b i chunk out =
        (.ok (), out ++ gather v a b (chunk.map span)) ∨
      ∃ msg out', appendChunks R frames writeFails a b i chunk out =
        (.error (.error msg), out') := by
  induction chunk generalizing i out with
  | nil => exact .inl (by simp [appendChunks, gather])
  | cons e chunk ih =>
    unfold appendChunks
    cases hchunk : verifiedChunk R (frames i) e with
    | error msg => exact .inr ⟨msg, out, rfl⟩
    | ok data =>
      have hdata := hdesc e (hsub e (.head _)) i data hchunk
      have hslice := sliceOf_eq (hend e (.head _)) hab (hmeets e (.head _)) v
      rw [← hdata] at hslice
      simp only [hslice]
      split
      · exact .inr ⟨_, out, rfl⟩
      · have := ih (fun e' he' => hsub e' (.tail _ he'))
          (fun e' he' => hend e' (.tail _ he'))
          (fun e' he' => hmeets e' (.tail _ he')) (i + 1)
          (out ++ part v a b (span e))
        rwa [List.append_assoc, ← gather_cons] at this

end Append

/-- No entry reaches into a range whose end does not fit an `int64`. -/
lemma not_meets_of_overflow (hes : Sorted es) {start len : ℤ} (hlen : len < 2 ^ 63)
    (hover : 2 ^ 63 ≤ start + len) (hstart : start < 2 ^ 63) (he : e ∈ es) :
    ¬ (span e).Meets start (wrapInt64 (start + len)) := by
  have hwrap : wrapInt64 (start + len) = start + len - 2 ^ 64 := by
    unfold wrapInt64 Manifest.ofInt64Bits Manifest.int64Bits
    split <;> omega
  have hbound := hes.length e he
  rintro ⟨hlt, hlt'⟩
  change e.volumeOffset < _ at hlt
  change _ < e.volumeOffset + (e.chunkLength : ℤ) at hlt'
  omega

/-- A range that lies within the `int64` values. -/
lemma wrapInt64_eq {v : ℤ} (h : IsInt64 v) : wrapInt64 v = v :=
  Manifest.ofInt64Bits_int64Bits h.1 h.2

lemma Sorted.from (hes : Sorted es) (hsub : chunk.Sublist es) (hab : a ≤ b)
    (hmeets : ∀ e ∈ chunk, (span e).Meets a b) : From a b a (chunk.map span) where
  ordered := hes.ordered.sublist (hsub.map span)
  meets s hs := by
    obtain ⟨e, he, rfl⟩ := List.mem_map.1 hs
    exact hmeets e he
  lower := le_rfl
  upper := hab
  start _ _ := le_max_left _ _

/-- The position is covered by an entry. -/
def Covered (es : List Entry) (x : ℤ) : Prop := ∃ e ∈ es, (span e).Covers x

/-- The entries between the searches leave no gap exactly if all entries do not. -/
lemma covered_iff (hsub : chunk.Sublist es) (hall : ∀ e ∈ es, (span e).Meets a b → e ∈ chunk) :
    (∀ x, a ≤ x → x < b → ∃ s ∈ chunk.map span, s.Covers x) ↔
      ∀ x, a ≤ x → x < b → Covered es x := by
  refine forall_congr' fun x => forall_congr' fun hax => forall_congr' fun hxb => ?_
  constructor
  · rintro ⟨s, hs, hcov⟩
    obtain ⟨e, he, rfl⟩ := List.mem_map.1 hs
    exact ⟨e, hsub.subset he, hcov⟩
  · rintro ⟨e, he, hcov⟩
    have hmeets : (span e).Meets a b := ⟨hcov.1.trans_lt hxb, hax.trans_lt hcov.2⟩
    exact ⟨span e, List.mem_map_of_mem (hall e he hmeets), hcov⟩

section File

variable {R : Restorer} {frames : ℕ → Option Bytes} {faults : FileFaults} {f : FileEntry}
  {ea : EntryAccessor} {es : List Entry} {v : ℤ → UInt8} {existing : Option Bytes}

/-- No bytes: the file is empty, or the catalog is incomplete. -/
lemma restoreFile_zero (h : f.streamLength = 0) :
    (∃ msg out, restoreFile R frames faults f ea existing = (.error (.error msg), out)) ∨
      restoreFile R frames faults f ea existing = (.ok 0, some []) := by
  unfold restoreFile
  simp only [h, if_true]
  split
  · exact .inl ⟨_, _, rfl⟩
  · split
    · exact .inl ⟨_, _, rfl⟩
    · exact .inr rfl

/-- A file of a negative length is not restored. -/
lemma restoreFile_neg (h : f.streamLength < 0) (n : ℤ) (out : Option Bytes) :
    restoreFile R frames faults f ea existing ≠ (.ok n, out) := by
  unfold restoreFile
  simp only [if_neg h.ne]
  split
  · simp
  · split
    · simp
    · split
      · simp
      · simp
      · rw [if_pos (by omega)]
        simp

/-- A file of some bytes: an error, or the range of the stream without a gap.

**Proof sketch.** What the entries between the searches contribute is as long as the range exactly
if they leave no gap. If the end of the range does not fit an `int64`, no entry is selected. -/
lemma restoreFile_pos (hea : ea.Serves es) (hes : Sorted es) (hdesc : Describes R frames es v)
    (hoff : IsInt64 f.streamOffset) (hlen : IsInt64 f.streamLength) (hpos : 0 < f.streamLength) :
    (∃ msg out, restoreFile R frames faults f ea existing = (.error (.error msg), out)) ∨
      (restoreFile R frames faults f ea existing =
          (.ok f.streamLength, some (slice v f.streamOffset f.streamLength.toNat)) ∧
        ∀ x, f.streamOffset ≤ x → x < f.streamOffset + f.streamLength → Covered es x) := by
  unfold restoreFile
  simp only [if_neg hpos.ne']
  split
  · exact .inl ⟨_, _, rfl⟩
  · cases hbetween : entriesBetween "file" ea f.streamOffset
        (wrapInt64 (f.streamOffset + f.streamLength)) with
    | error msg => exact .inl ⟨_, _, rfl⟩
    | ok chunk =>
      obtain ⟨hsub, hmeets, hall⟩ := entriesBetween_ok hea hes hbetween
      simp only
      by_cases hover : f.streamOffset + f.streamLength < 2 ^ 63
      · have hend : wrapInt64 (f.streamOffset + f.streamLength) = f.streamOffset + f.streamLength :=
          wrapInt64_eq ⟨by have := hoff.1; omega, hover⟩
        rw [hend] at hmeets hall ⊢
        have hab : f.streamOffset ≤ f.streamOffset + f.streamLength := by omega
        obtain heq | ⟨msg, out', heq⟩ := appendChunks_eq faults.writeFails hdesc
          (fun e he => hsub.subset he) (fun e he => entryEnd_eq hes (hsub.subset he)) hab
            hmeets 0 []
        · rw [heq]
          simp only [List.nil_append]
          split_ifs with hwritten
          · exact .inl ⟨_, _, rfl⟩
          · have hfrom := hes.from hsub hab hmeets
            have hwritten := not_not.1 hwritten
            have hgather : ((gather v f.streamOffset (f.streamOffset + f.streamLength)
                (chunk.map span)).length : ℤ) =
                  f.streamOffset + f.streamLength - f.streamOffset := by omega
            refine .inr ⟨?_, (covered_iff hsub hall).1 ((length_gather_eq_iff hfrom).1 hgather)⟩
            rw [hwritten, gather_eq_slice hfrom hgather]
            congr 4
            omega
        · rw [heq]
          exact .inl ⟨msg, none, rfl⟩
      · have hnone : chunk = [] := List.eq_nil_iff_forall_not_mem.2 fun e he =>
          not_meets_of_overflow hes hlen.2 (by omega) hoff.2 (hsub.subset he) (hmeets e he)
        rw [hnone, appendChunks]
        simp only [List.length_nil, Nat.cast_zero]
        rw [if_pos (by omega)]
        exact .inl ⟨_, _, rfl⟩

/-- **A restored file is the range of the stream, and a range with a gap is an error.** For entries
of a stream in their order, a file entry with any range and whatever fails: if the restore succeeds,
the file is exactly the range of the stream; if a byte of the range is in no entry, the restore
returns an error; and the searches select exactly the entries that reach into a range. -/
theorem restoreFile_exact (hea : ea.Serves es) (hes : Sorted es) (hdesc : Describes R frames es v)
    (hoff : IsInt64 f.streamOffset) (hlen : IsInt64 f.streamLength) :
    (∀ n out, restoreFile R frames faults f ea existing = (.ok n, out) →
      n = f.streamLength ∧ 0 ≤ f.streamLength ∧
        out = some (slice v f.streamOffset f.streamLength.toNat)) ∧
    ((∃ x, f.streamOffset ≤ x ∧ x < f.streamOffset + f.streamLength ∧ ¬ Covered es x) →
      ∃ msg out, restoreFile R frames faults f ea existing = (.error (.error msg), out)) ∧
    (∀ a b, (∀ i < es.length, ∃ e, ea.entryAt i = .ok e) →
      ∃ s t, searchEntries ea a = .ok s ∧ searchEntriesEnd ea b = .ok t ∧
        ∀ i e, es[i]? = some e → ((s ≤ i ∧ i < t) ↔ (span e).Meets a b)) := by
  refine ⟨fun n out h => ?_, fun ⟨x, hx, hxlt, hgap⟩ => ?_, fun a b hread => ?_⟩
  · rcases lt_trichotomy f.streamLength 0 with hneg | hzero | hpos
    · exact absurd h (restoreFile_neg hneg n out)
    · obtain ⟨msg, out', heq⟩ | heq := restoreFile_zero (R := R) (f := f) hzero
      · rw [heq] at h
        cases h
      · rw [heq] at h
        cases h
        simp [hzero, slice]
    · obtain ⟨msg, out', heq⟩ | ⟨heq, -⟩ := restoreFile_pos hea hes hdesc hoff hlen hpos
      · rw [heq] at h
        cases h
      · rw [heq] at h
        cases h
        exact ⟨rfl, hpos.le, rfl⟩
  · obtain herr | ⟨-, hcov⟩ := restoreFile_pos hea hes hdesc hoff hlen (by omega)
    · exact herr
    · exact absurd (hcov x hx hxlt) hgap
  · obtain ⟨s, hs⟩ : ∃ s, searchEntries ea a = .ok s := by
      rw [searchEntries, hea.count]
      exact searchLoop_isOk hread le_rfl
    obtain ⟨t, ht⟩ : ∃ t, searchEntriesEnd ea b = .ok t := by
      rw [searchEntriesEnd, hea.count]
      exact searchLoop_isOk hread le_rfl
    exact ⟨s, t, hs, ht, fun i e he => search_meets hea hes hs ht he⟩

end File

/-! ### A repository of two chunks -/

/-- A repository that holds the chunks `[1, 2, 3]` and `[4, 5]`. -/
def twoChunkRestorer : Restorer where
  index := ⟨newBloomFilter 64, ⟨Index.encodeEntries
    [⟨sum256 [1, 2, 3], 0, 0, 3⟩, ⟨sum256 [4, 5], 0, 11, 2⟩], ∅, false, true, none⟩, none,
      false, none⟩
  store := { ChunkStore.newChunkStore ∅ ⟨id, some, none⟩ 100 with
    packs := (∅ : Packs).insert 0 (encodeFrame [1, 2, 3] 3 ++ encodeFrame [4, 5] 2) }
  normalizer := none

/-- The chunks one behind the other at offset 4, and the first of them again behind a gap. -/
def gapped : List Entry :=
  [⟨4, sum256 [1, 2, 3], 3, false⟩, ⟨7, sum256 [4, 5], 2, false⟩, ⟨11, sum256 [1, 2, 3], 3, false⟩]

/-- A stream with these entries. -/
def gappedStream (x : ℤ) : UInt8 := UInt8.ofNat ((if x < 11 then x else x - 7) - 3).toNat

/-- A file with the given range of the stream. -/
def rangeFile (streamOffset streamLength : ℤ) : FileEntry where
  path := [97]
  sourceIndex := 0
  size := streamLength
  mode := 420
  modTime := none
  isDir := false
  isSymlink := false
  unchanged := false
  isExcluded := false
  linkTarget := []
  streamOffset := streamOffset
  streamLength := streamLength
  contentHash := .zero
  dataBackupID := []
  volumeExtents := []
  inlineData := []

lemma gapped_sorted : Sorted gapped where
  ordered := by unfold Ordered; decide
  lower := by decide
  upper := by decide
  length := by decide

lemma gapped_describes {ι : Type} :
    Describes twoChunkRestorer (fun _ : ι => none) gapped gappedStream := by
  have hread : ∀ e ∈ gapped, (verifiedChunk twoChunkRestorer none e).toOption =
      some (slice gappedStream e.volumeOffset e.chunkLength) := by decide +kernel
  intro e he i data hdata
  have h := hread e he
  rw [hdata] at h
  exact Option.some.inj h

lemma covered_gapped {x : ℤ} : Covered gapped x ↔ 4 ≤ x ∧ x < 9 ∨ 11 ≤ x ∧ x < 14 := by
  simp only [Covered, gapped, Span.Covers, span, Span.stop, List.exists_mem_cons_iff,
    List.not_mem_nil, false_and, exists_false, or_false]
  omega

/-- A range over two chunks is restored, and one over the gap is not. -/
theorem restoreFile_exact_gapped :
    restoreFile twoChunkRestorer (fun _ => none) ⟨false, fun _ => false, false⟩ (rangeFile 5 3)
        (sliceEntryAccessor gapped) none = (.ok 3, some [2, 3, 4]) ∧
      ∃ msg out, restoreFile twoChunkRestorer (fun _ => none) ⟨false, fun _ => false, false⟩
        (rangeFile 5 8) (sliceEntryAccessor gapped) none = (.error (.error msg), out) := by
  refine ⟨by decide +kernel, (restoreFile_exact (serves_slice gapped) gapped_sorted gapped_describes
    (by decide) (by decide)).2.1 ⟨9, by decide, by decide, ?_⟩⟩
  rw [covered_gapped]
  decide

end DiskNexus.Restore
