import DiskNexus.Checkpoint.Segment

/-!
# Resuming from segments

A backup that was interrupted goes on from its last checkpoint. The fast path replays the segments
that the checkpoint covers and cuts those behind them off the file, but only if it has read any. A
torn record stays, and whatever the resumed run appends comes behind it, where no reader gets.

## Main results

`fastPath_segments_iff`, `fastPath_segments_lost`
-/

namespace DiskNexus.Checkpointing

open Binary Sha256 Index

/-- `pipeline.Stats`: the tallies of a backup. -/
structure Stats where
  totalChunks : ℕ
  rawBytes : ℕ
  uniqueChunks : ℕ
  dedupChunks : ℕ
  storedBytes : ℕ
  deriving DecidableEq

/-- `Progress`. The boundary fields name the last entry before the resume point. -/
structure Progress where
  lastSealedPack : ℕ
  checkpointSeq : UInt32
  resumeOffset : ℤ
  entriesLen : ℤ
  entriesCount : ℤ
  boundaryChunkHash : Hash
  boundaryChunkOffset : ℕ
  boundaryChunkLength : ℕ
  tallies : Stats
  digestState : Option Bytes
  deriving DecidableEq

/-- `Checkpoint`: the progress, and the layout of the packs it was made under. -/
structure Checkpoint extends Progress where
  packsGeneration : String
  deriving DecidableEq

/-- The files that the fast path looks at. -/
structure Files where
  packsGeneration : String
  segments : Option Bytes
  entries : Option Bytes

/-- `AppendSegmentLocal`, on the file of segments. -/
def appendSegmentLocal (file : Option Bytes) (s : Segment) : Option Bytes :=
  some (file.getD [] ++ marshalSegment s)

/-- The loop of `ReplaySegments`. -/
def replayLoop (entriesLen : ℤ) (covered : ℤ) (sidecar : Bytes) (inserts : List InsertTuple) :
    List Segment → ℤ × Bytes × List InsertTuple
  | [] => (covered, sidecar, inserts)
  | s :: ss =>
    if entriesLen ≤ covered then (covered, sidecar, inserts)
    else
      let take := if covered + s.sidecarBytes.length > entriesLen then
        s.sidecarBytes.take (entriesLen - covered).toNat else s.sidecarBytes
      replayLoop entriesLen (covered + take.length) (sidecar ++ take) (inserts ++ s.inserts) ss

/-- `ReplaySegments`: the sidecar and the inserts up to a checkpoint. -/
def replaySegments (segs : List Segment) (c : Checkpoint) :
    Except String (Bytes × List InsertTuple) :=
  let r := replayLoop c.entriesLen 0 [] [] segs
  if r.1 ≠ c.entriesLen then
    .error s!"segments cover {r.1} of {c.entriesLen} checkpoint sidecar bytes"
  else .ok r.2

/-- The number of segments that a checkpoint covers. -/
def Checkpoint.keep (c : Checkpoint) : ℕ := c.checkpointSeq.toNat + 1

/-- `tryFastPath`: the inserts to replay, if the segments agree with the entries on disk. -/
def tryFastPath (f : Files) (c : Checkpoint) : Option (List InsertTuple) × Files :=
  if f.packsGeneration ≠ c.packsGeneration then (none, f)
  else
    match f.segments with
    | none => (none, f)
    | some data =>
      let segs := parseSegments data
      if segs.length = 0 ∨ segs.length < c.keep then (none, f)
      else
        match replaySegments (segs.take c.keep) c, f.entries with
        | .ok (sidecar, inserts), some onDisk =>
          if (onDisk.length : ℤ) < c.entriesLen ∨ onDisk.take c.entriesLen.toNat ≠ sidecar then
            (none, f)
          else if c.keep < segs.length then
            match truncateSegments data c.keep with
            | .error _ => (none, f)
            | .ok data => (some inserts, { f with segments := some data })
          else (some inserts, f)
        | _, _ => (none, f)

/-- What a fast path that succeeded has checked, and what it leaves. -/
structure FastPath (f : Files) (c : Checkpoint) (data : Bytes) (inserts : List InsertTuple)
    (f' : Files) : Prop where
  generation : f.packsGeneration = c.packsGeneration
  segments : f.segments = some data
  covers : c.keep ≤ (parseSegments data).length
  replay : ∃ onDisk, f.entries = some onDisk ∧ c.entriesLen ≤ onDisk.length ∧
    replaySegments ((parseSegments data).take c.keep) c =
      .ok (onDisk.take c.entriesLen.toNat, inserts)
  cut : ∃ data', f' = { f with segments := some data' } ∧
    if c.keep < (parseSegments data).length then truncateSegments data c.keep = .ok data'
    else data' = data

lemma tryFastPath_ok {f f' : Files} {c : Checkpoint} {inserts : List InsertTuple}
    (h : tryFastPath f c = (some inserts, f')) : ∃ data, FastPath f c data inserts f' := by
  unfold tryFastPath at h
  split_ifs at h with hgen
  · cases h
  · split at h
    · cases h
    · rename_i data hdata
      simp only at h
      split at h
      · cases h
      · split at h
        · rename_i sidecar ins onDisk hreplay hentries
          split at h
          · cases h
          · rename_i hdisk
            obtain ⟨hsize, hmatch⟩ := not_or.1 hdisk
            have hrep : ∃ onDisk, f.entries = some onDisk ∧ c.entriesLen ≤ onDisk.length ∧
                replaySegments ((parseSegments data).take c.keep) c =
                  .ok (onDisk.take c.entriesLen.toNat, ins) :=
              ⟨onDisk, hentries, by omega, by rw [hreplay, not_not.1 hmatch]⟩
            refine ⟨data, ?_⟩
            split_ifs at h with hmore
            · split at h
              · cases h
              · rename_i data' htrunc
                cases h
                exact ⟨not_not.1 hgen,
                  hdata, by omega, hrep, data', rfl, by rw [if_pos hmore, htrunc]⟩
            · cases h
              refine ⟨not_not.1 hgen, hdata, by omega, hrep, data, ?_, by rw [if_neg hmore]⟩
              rw [← hdata]
        · cases h

/-! ## Appending after a resume -/

/-- What a crash inside an append leaves: a part of a record, maybe an empty one, but not the whole.
-/
def Torn (torn : Bytes) : Prop := ∃ rest s, rest ≠ [] ∧ Record (torn ++ rest) s

/-- A torn record is read as the end of the file. -/
lemma Torn.parseFrom {torn : Bytes} (h : Torn torn) (n : ℕ) : parseFrom n torn = [] := by
  obtain ⟨rest, s, hrest, hrecord⟩ := h
  obtain ⟨e, he⟩ := unmarshalSegment_strict_prefix hrecord hrest
  exact parseFrom_error he n

lemma appendSegments (file : Bytes) (ss : List Segment) :
    ss.foldl appendSegmentLocal (some file) = some (file ++ (ss.map marshalSegment).flatten) := by
  induction ss generalizing file with
  | nil => simp
  | cons s ss ih =>
    rw [List.foldl_cons, appendSegmentLocal, Option.getD_some, ih, List.map_cons,
      List.flatten_cons, List.append_assoc]

/-- Segments that fit, appended behind records, are read. -/
lemma parseSegments_append {rs : List Bytes} {ss appended : List Segment}
    (hrec : List.Forall₂ Record rs ss) (hfits : ∀ s ∈ appended, s.Fits)
    (hseq : Consecutive 0 (ss ++ appended)) :
    parseSegments (rs.flatten ++ (appended.map marshalSegment).flatten) = ss ++ appended := by
  have happended : List.Forall₂ Record (appended.map marshalSegment) appended := by
    clear hseq
    induction appended with
    | nil => exact .nil
    | cons s appended ih =>
      exact .cons (record_marshalSegment (hfits s (.head _)))
        (ih fun s' hs' => hfits s' (.tail _ hs'))
  have hall := parseFrom_records (List.rel_append hrec happended) hseq []
  rw [List.append_nil, List.flatten_append, parseFrom_nil, List.append_nil] at hall
  exact hall

/-! ## Behind a torn record -/

lemma ofLE_eq_zero {bs : Bytes} (h : ofLE bs = 0) : ∀ b ∈ bs, b = 0 := by
  induction bs with
  | nil => exact fun b hb => by cases hb
  | cons b bs ih =>
    rw [ofLE] at h
    intro b' hb'
    rcases List.mem_cons.1 hb' with rfl | hb'
    · exact UInt8.toNat_inj.1 (by simpa using (by omega : b'.toNat = 0))
    · exact ih (by omega) b' hb'

/-- The bytes of a field that holds zero. -/
lemma getElem?_of_fieldAt_eq_zero {bs : Bytes} {i w k : ℕ} (h : fieldAt bs i w = 0)
    (hik : i ≤ k) (hkw : k < i + w) (hlen : k < bs.length) : bs[k]? = some 0 := by
  have hmem : bs[k] ∈ (bs.drop i).take w := by
    refine List.mem_iff_getElem?.2 ⟨k - i, ?_⟩
    rw [List.getElem?_take_of_lt (by omega), List.getElem?_drop, Nat.add_sub_cancel' hik,
      List.getElem?_eq_getElem hlen]
  rw [List.getElem?_eq_getElem hlen, ofLE_eq_zero h _ hmem]

/-- The segment without any content. -/
def bareSegment (n : ℕ) (entriesLenAfter : Int64) : Segment :=
  ⟨UInt32.ofNat n, entriesLenAfter, [], []⟩

lemma bareSegment_fits (n : ℕ) (e : Int64) : (bareSegment n e).Fits :=
  ⟨by simp [bareSegment], by simp [bareSegment]⟩

/-- What bytes that read as a bare segment say. -/
lemma fields_of_bareSegment {data : Bytes} {n size : ℕ} {e : Int64}
    (h : unmarshalSegment data = .ok (bareSegment n e, size)) :
    Accepts data ∧ (UInt64.ofNat (fieldAt data 9 8)).toInt64 = e ∧ fieldAt data 17 4 = 0 ∧
      fieldAt data 21 4 = 0 := by
  obtain ⟨haccepts, hread, -⟩ := unmarshalSegment_eq_ok.1 h
  have hsize := haccepts.size
  unfold statedSize at hsize
  have hsidecar : ((data.drop segHeaderSize).take (fieldAt data 17 4)).length = 0 := by
    rw [show (data.drop segHeaderSize).take (fieldAt data 17 4) = [] from
      (congrArg Segment.sidecarBytes hread).symm]
    rfl
  have hcount : ∀ version n src, (decodeTuples version n src).length = n := by
    intro version n
    induction n with
    | zero => exact fun src => rfl
    | succ n ih => exact fun src => by rw [decodeTuples, List.length_cons, ih]
  refine ⟨haccepts, (congrArg Segment.entriesLenAfter hread).symm, ?_, ?_⟩
  · rw [List.length_take, List.length_drop] at hsidecar
    omega
  · have hinserts := congrArg (fun s : Segment => s.inserts.length) hread
    simp only [readSegment, hcount, bareSegment, List.length_nil] at hinserts
    exact hinserts.symm

/-- A bare segment behind a part of a record that is shorter than a header is not read: the magic
number is not where it would have to stand. -/
lemma unmarshalSegment_short {torn : Bytes} (hne : torn ≠ []) (hshort : torn.length < segHeaderSize)
    (n size : ℕ) :
    unmarshalSegment (torn ++ marshalSegment (bareSegment n 0)) ≠ .ok (bareSegment n 0, size) := by
  intro h
  obtain ⟨haccepts, hlen, hsidecar, hcount⟩ := fields_of_bareSegment h
  set data := torn ++ marshalSegment (bareSegment n 0) with hdata
  have hheader : 29 ≤ data.length := haccepts.header
  have hentries : fieldAt data 9 8 = 0 := by
    have hzero : UInt64.ofNat (fieldAt data 9 8) = 0 := by
      have hbits := congrArg Int64.toUInt64 hlen
      exact hbits
    have := congrArg UInt64.toNat hzero
    rwa [UInt64.toNat_ofNat_of_lt' (fieldAt_lt data 9 8)] at this
  have hzeros : ∀ k, 9 ≤ k → k < 25 → data[k]? = some 0 := by
    intro k hk hk'
    rcases Nat.lt_or_ge k 17 with hlt | hge
    · exact getElem?_of_fieldAt_eq_zero hentries (by omega) (by omega) (by omega)
    · rcases Nat.lt_or_ge k 21 with hlt | hge
      · exact getElem?_of_fieldAt_eq_zero hsidecar (by omega) (by omega) (by omega)
      · exact getElem?_of_fieldAt_eq_zero hcount (by omega) (by omega) (by omega)
  have hmagic : ∀ k < 4, data[k]? = segMagic[k]? := by
    intro k hk
    rw [← haccepts.magic, List.getElem?_take_of_lt hk]
  have hversion : data[4]? = some 2 ∨ data[4]? = some 1 := by
    have hget : data[4]? = some (versionOf data) := by
      rw [versionOf, List.getD_eq_getElem?_getD, List.getElem?_eq_getElem (by omega)]
      rfl
    rcases haccepts.version with hv | hv
    · exact .inl (by rw [hget, hv]; rfl)
    · exact .inr (by rw [hget, hv])
  -- where the appended segment starts
  have hstart : ∀ k < 5, data[torn.length + k]? = (segMagic ++ [segVersion])[k]? := by
    intro k hk
    rw [hdata, List.getElem?_append_right (by omega), Nat.add_sub_cancel_left]
    interval_cases k <;> rfl
  have hpos := List.length_pos_of_ne_nil hne
  have hlt : torn.length < 25 := hshort
  have hfirst : data[torn.length]? = some 0x44 := hstart 0 (by omega)
  generalize torn.length = start at *
  rcases Nat.lt_or_ge start 9 with hlow | hhigh
  · interval_cases start
    · exact absurd (hfirst.symm.trans (hmagic 1 (by omega))) (by decide)
    · exact absurd (hfirst.symm.trans (hmagic 2 (by omega))) (by decide)
    · exact absurd (hfirst.symm.trans (hmagic 3 (by omega))) (by decide)
    · rcases hversion with hv | hv
      · exact absurd (hfirst.symm.trans hv) (by decide)
      · exact absurd (hfirst.symm.trans hv) (by decide)
    · exact absurd ((hstart 4 (by omega)).symm.trans (hzeros 9 (by omega) (by omega))) (by decide)
    · exact absurd ((hstart 3 (by omega)).symm.trans (hzeros 9 (by omega) (by omega))) (by decide)
    · exact absurd ((hstart 2 (by omega)).symm.trans (hzeros 9 (by omega) (by omega))) (by decide)
    · exact absurd ((hstart 1 (by omega)).symm.trans (hzeros 9 (by omega) (by omega))) (by decide)
  · exact absurd (hfirst.symm.trans (hzeros start hhigh hlt)) (by decide)

/-- Behind a torn record there is a segment that is not read. -/
lemma exists_lost {torn : Bytes} (hne : torn ≠ []) (n : ℕ) :
    ∃ e, ∀ size, unmarshalSegment (torn ++ marshalSegment (bareSegment n e)) ≠
      .ok (bareSegment n e, size) := by
  by_cases hshort : torn.length < segHeaderSize
  · exact ⟨0, unmarshalSegment_short hne hshort n⟩
  · -- the torn record has its whole header, so the length it states is the one that is read
    have hlen : 25 ≤ torn.length := Nat.not_lt.1 hshort
    set stated := (UInt64.ofNat (fieldAt torn 9 8)).toInt64 with hstated
    refine ⟨if stated = 0 then 1 else 0, fun size h => ?_⟩
    have hread := (fields_of_bareSegment h).2.1
    rw [fieldAt_append (by omega), ← hstated] at hread
    split_ifs at hread with hzero
    · rw [hzero] at hread
      exact absurd hread (by decide)
    · exact hzero hread

/-- **Segments appended after a resume.** Take any file of readable, consecutively numbered records
with any torn record behind them, and a checkpoint for which the fast path succeeds. Then all that
is appended afterwards, numbered from the checkpoint on, is read back behind the segments of the
checkpoint, whatever it is, exactly if there was nothing torn, or more segments in front of it than
the checkpoint covers.

**Proof sketch.** If the file was cut, the appended records follow the last covered one. Otherwise
the torn record stays in between. -/
theorem fastPath_segments_iff {f f' : Files} {c : Checkpoint} {inserts : List InsertTuple}
    {rs : List Bytes} {ss : List Segment} {torn : Bytes} (hrec : List.Forall₂ Record rs ss)
    (hseq : Consecutive 0 ss) (htorn : Torn torn) (hfile : f.segments = some (rs.flatten ++ torn))
    (hfast : tryFastPath f c = (some inserts, f')) :
    (∀ appended : List Segment, (∀ s ∈ appended, s.Fits) →
        Consecutive (c.checkpointSeq.toNat + 1) appended →
        parseSegments ((appended.foldl appendSegmentLocal f'.segments).getD []) =
          ss.take c.keep ++ appended) ↔
      torn = [] ∨ c.keep < ss.length := by
  obtain ⟨data, hpath⟩ := tryFastPath_ok hfast
  have hdata : data = rs.flatten ++ torn := by
    have := hpath.segments
    rw [hfile] at this
    exact (Option.some.inj this).symm
  have hparse : parseSegments data = ss := by
    rw [hdata, parseSegments_eq, parseFrom_records hrec hseq, htorn.parseFrom, List.append_nil]
  have hkeep := hpath.covers
  obtain ⟨data', rfl, hcut⟩ := hpath.cut
  rw [hparse] at hkeep hcut
  have hlength := hrec.length_eq
  have happends : ∀ appended : List Segment,
      (appended.foldl appendSegmentLocal (some data')).getD [] =
        data' ++ (appended.map marshalSegment).flatten := by
    intro appended
    rw [appendSegments, Option.getD_some]
  constructor
  · intro hall
    by_contra hbad
    obtain ⟨hne, hmore⟩ := not_or.1 hbad
    have heq : c.keep = ss.length := by omega
    rw [if_neg hmore] at hcut
    obtain ⟨e, hlost⟩ := exists_lost hne c.keep
    have hread := hall [bareSegment c.keep e]
      (fun s hs => by rw [List.mem_singleton.1 hs]; exact bareSegment_fits _ _) ⟨rfl, trivial⟩
    rw [happends, hcut, hdata, List.append_assoc, parseSegments_eq, parseFrom_records hrec hseq,
      heq, List.take_length, List.append_cancel_left_eq, Nat.zero_add, ← heq] at hread
    simp only [List.map_cons, List.map_nil, List.flatten_cons, List.flatten_nil,
      List.append_nil] at hread
    cases hun : unmarshalSegment (torn ++ marshalSegment (bareSegment c.keep e)) with
    | error err =>
      rw [parseFrom_error hun] at hread
      cases hread
    | ok r =>
      obtain ⟨s, size⟩ := r
      rw [parseFrom_ok hun] at hread
      split at hread
      · obtain ⟨rfl, -⟩ := List.cons.inj hread
        exact hlost size hun
      · cases hread
  · intro hgood appended hfits hnum
    have hdata' : data' = (rs.take c.keep).flatten := by
      by_cases hmore : c.keep < ss.length
      · rw [if_pos hmore, hdata, truncateSegments_records hrec (by omega)] at hcut
        exact (Except.ok.inj hcut).symm
      · rw [if_neg hmore] at hcut
        rw [hcut, hdata, hgood.resolve_right hmore, List.append_nil,
          List.take_of_length_le (by omega)]
    rw [happends, hdata']
    have htake : (ss.take c.keep).length = c.keep := by
      rw [List.length_take]
      omega
    refine parseSegments_append (List.forall₂_take c.keep hrec) hfits ((hseq.take _).append ?_)
    rw [htake, Nat.zero_add]
    exact hnum

/-- A segment with one record of the sidecar. -/
def oneEntry (n : ℕ) : Segment :=
  ⟨UInt32.ofNat n, Int64.ofNat (45 * (n + 1)), List.replicate 45 7, []⟩

lemma oneEntry_fits (n : ℕ) : (oneEntry n).Fits := ⟨by simp [oneEntry], by simp [oneEntry]⟩

/-- The checkpoint of the first segment. -/
def firstCheckpoint : Checkpoint :=
  ⟨⟨0, 0, 1, 45, 1, .zero, 0, 1, ⟨1, 1, 1, 0, 9⟩, none⟩, ""⟩

/-- A file of segments, with the start of another one torn off. -/
def tornFile (ss : List Segment) (next : Segment) : Files :=
  ⟨"", some ((ss.map marshalSegment).flatten ++ (marshalSegment next).take 7),
    some (List.replicate 45 7)⟩

lemma torn_take (n : ℕ) : Torn ((marshalSegment (oneEntry n)).take 7) := by
  have hrecord := record_marshalSegment (oneEntry_fits n)
  have hheader : 29 ≤ (marshalSegment (oneEntry n)).length :=
    (unmarshalSegment_eq_ok.1 hrecord).1.header
  refine ⟨(marshalSegment (oneEntry n)).drop 7, oneEntry n, ?_, ?_⟩
  · exact List.ne_nil_of_length_pos (by rw [List.length_drop]; omega)
  · rwa [List.take_append_drop]

/-- The checkpoint covers one of two segments, and a third is torn. -/
theorem fastPath_segments_cut :
    ∃ inserts f', tryFastPath (tornFile [oneEntry 0, oneEntry 1] (oneEntry 2)) firstCheckpoint =
        (some inserts, f') ∧
      ∀ appended : List Segment, (∀ s ∈ appended, s.Fits) → Consecutive 1 appended →
        parseSegments ((appended.foldl appendSegmentLocal f'.segments).getD []) =
          oneEntry 0 :: appended := by
  have hrec : List.Forall₂ Record [marshalSegment (oneEntry 0), marshalSegment (oneEntry 1)]
      [oneEntry 0, oneEntry 1] :=
    .cons (record_marshalSegment (oneEntry_fits 0))
      (.cons (record_marshalSegment (oneEntry_fits 1)) .nil)
  have hsome : (tryFastPath (tornFile [oneEntry 0, oneEntry 1] (oneEntry 2)) firstCheckpoint).1 =
      some [] := by decide +kernel
  obtain ⟨f', hfast⟩ : ∃ f', tryFastPath (tornFile [oneEntry 0, oneEntry 1] (oneEntry 2))
      firstCheckpoint = (some [], f') := by
    generalize tryFastPath _ _ = r at hsome ⊢
    exact ⟨r.2, Prod.ext hsome rfl⟩
  exact ⟨_, f', hfast, (fastPath_segments_iff hrec ⟨rfl, rfl, trivial⟩ (torn_take 2) rfl hfast).2
    (.inr (by decide))⟩

/-- The checkpoint covers the only segment, and the one after it is torn: what the resumed run
appends is not read. -/
theorem fastPath_segments_lost :
    let r := tryFastPath (tornFile [oneEntry 0] (oneEntry 1)) firstCheckpoint
    r.1.isSome ∧
      parseSegments ((appendSegmentLocal r.2.segments (oneEntry 1)).getD []) = [oneEntry 0] := by
  decide +kernel

end DiskNexus.Checkpointing
