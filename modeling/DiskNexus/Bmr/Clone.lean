import DiskNexus.Bmr.Place

/-!
# Cloning a disk

`CloneDisk` copies the partitions of a source to a target, fills the gaps between them and writes
the boot structures. On a target of the same size without a plan the gaps are copied, else they are
zeroed.
-/

namespace DiskNexus.Bmr

open Binary Sha256 Overwrite DiskLayout WriteLog Segments
open Restore (Failure)

/-- `CloneDiskOptions`. Reading back is a function of the writes so far. -/
structure CloneDiskOptions where
  source : Bytes
  sourceSize : ℤ
  targetSize : ℤ
  fit : Option FitPlan
  staged : ℕ → Option StagedMember
  readAt : Option (Writes → ℤ → ℤ → Except String Bytes)
  cancelled : ℕ → Bool

/-- `CloneResult`. -/
structure CloneResult where
  layout : Layout
  partitions : ℕ
  bytes : ℤ
  digests : List (ℕ × Hash)
  readBack : ℕ

/-! ## The captured regions -/

/-- `readRegion`: the end of the source is no error. -/
def readRegion (source : Bytes) (r : Range) : Except Failure Bytes :=
  if r.length < 0 then .error .panicked
  else if r.offset < 0 then .error (.error "negative offset")
  else .ok (resize 0 (source.drop r.offset.toNat) r.length.toNat)

/-- The auxiliary regions. -/
def readAuxRegions (source : Bytes) : List Range → Except Failure (List Bytes)
  | [] => .ok []
  | r :: rs =>
    let off := r.offset
    match readRegion source r with
    | .error e => .error (annotate s!"reading the source's aux region at {off}: " e)
    | .ok b => (readAuxRegions source rs).map (b :: ·)

/-- The backup region, if there is one. -/
def readBackupRegion (source : Bytes) (r : Range) : Except Failure Bytes :=
  if r.length ≤ 0 then .ok [] else readRegion source r

/-- The regions that are read before anything is written. -/
def capture (source : Bytes) (l : Layout) : Except Failure DiskCapture :=
  match readRegion source l.primaryRegion with
  | .error e => .error (annotate "reading the source's primary boot region: " e)
  | .ok primary =>
    match readBackupRegion source l.backupRegion with
    | .error e => .error (annotate "reading the source's backup GPT region: " e)
    | .ok backup =>
      match readAuxRegions source l.auxRegions with
      | .error e => .error e
      | .ok aux => .ok ⟨l, primary, backup, aux, []⟩

/-! ## The partitions -/

/-- The staged bytes for a partition that is planned to shrink. -/
def stagedFor (staged : ℕ → Option StagedMember) (index : ℕ) (length : ℤ) :
    Except Failure StagedMember :=
  match staged index with
  | none =>
    .error (.error (s!"partition {index} is planned to shrink to {length} bytes but no staged " ++
      "(shrunk) bytes were supplied for it"))
  | some st => .ok st

/-- A partition that is planned to shrink. -/
def placeShrunk (staged : ℕ → Option StagedMember) (index : ℕ) (pl : Placement) : Run Hash := do
  let st ← ofExcept (stagedFor staged index pl.length)
  mapError (annotate s!"placing shrunk partition {index}: ")
    (writeStaged ⟨pl.base, pl.length⟩ st pl.length)

/-- The part of a partition behind its captured bytes, if it grows. -/
def zeroTail (index : ℕ) (pl : Placement) : Run Unit :=
  let tail := int64 (pl.length - pl.oldLength)
  if pl.grow ∧ pl.oldLength < pl.length then
    mapError (annotate s!"zeroing the grown tail of partition {index}: ")
      (writeZeros ⟨int64 (pl.base + pl.oldLength), tail⟩ tail)
  else pure ()

/-- A partition with its captured bytes. -/
def copyPartition (opts : CloneDiskOptions) (l : Layout) (p : Partition) (pl : Placement) :
    Run Hash := do
  let index := p.index
  let sum ← mapError (annotate s!"copying partition {index}: ")
    (copyAt ⟨pl.base, pl.length⟩ opts.source (p.offset l.sectorSize) pl.oldLength)
  zeroTail index pl
  pure sum

/-- A partition, as its placement says. -/
def placePartition (opts : CloneDiskOptions) (l : Layout) (p : Partition) (pl : Placement) :
    Run Hash :=
  if pl.shrink then placeShrunk opts.staged p.index pl else copyPartition opts l p pl

/-- How much of a partition is read back. -/
def Placement.written (pl : Placement) : ℤ :=
  if pl.grow then pl.oldLength else if pl.shrink then pl.length else pl.oldLength

/-- Reading a partition back. -/
def readBack (opts : CloneDiskOptions) (index : ℕ) (pl : Placement) (sum : Hash) (past : Writes) :
    Except Failure ℕ :=
  match opts.readAt with
  | none => .ok 0
  | some read =>
    match read past pl.base pl.written with
    | .error e => .error (.error s!"reading partition {index} back: {e}")
    | .ok back =>
      if sum256 back ≠ sum then
        .error (.error (s!"partition {index}: the target reads back differently from what was " ++
          "written — the clone is not trustworthy; keep the source drive"))
      else .ok 1

/-- What is recorded of a partition. -/
structure Cloned where
  digest : ℕ × Hash
  written : ℤ
  readBack : ℕ

/-- The check of the context. -/
def checkContext (opts : CloneDiskOptions) (index : ℕ) : Except Failure Unit :=
  if opts.cancelled index then .error (.error "context canceled") else .ok ()

/-- One round of the loop over the partitions. -/
def clonePartition (opts : CloneDiskOptions) (l : Layout) (p : Partition) : Run Cloned := do
  ofExcept (checkContext opts p.index)
  let pl ← ofExcept (placementFor l opts.fit p.index)
  let sum ← placePartition opts l p pl
  let past ← issued
  let back ← ofExcept (readBack opts p.index pl sum past)
  pure ⟨(p.index, sum), pl.written, back⟩

/-! ## The gaps -/

/-- The spans of the placements. -/
def placedSpans (l : Layout) (fit : Option FitPlan) : List Partition →
    Except Failure (List Interval)
  | [] => .ok []
  | p :: ps =>
    match placementFor l fit p.index with
    | .error e => .error e
    | .ok pl => (placedSpans l fit ps).map (⟨pl.base, int64 (pl.base + pl.length)⟩ :: ·)

/-- A clone to a disk of the same size, without a plan. -/
def sameSize (opts : CloneDiskOptions) (l : Layout) : Bool :=
  opts.fit.isNone && opts.targetSize = l.diskSize

/-- The span that is kept free for the backup structures. -/
def backupSpan (opts : CloneDiskOptions) (l : Layout) : List Interval :=
  if 0 < l.backupRegion.length then
    let entryBytes := int64 (l.backupRegion.length - l.sectorSize)
    let backupOff := if sameSize opts l then l.backupRegion.offset
      else int64 (opts.targetSize - l.sectorSize - entryBytes)
    [⟨backupOff, opts.targetSize⟩]
  else []

/-- The span of a region. -/
def Range.span (r : Range) : Interval := ⟨r.offset, int64 (r.offset + r.length)⟩

/-- The spans that `writeGaps` takes for used, in its order. -/
def usedSpans (opts : CloneDiskOptions) (l : Layout) : Except Failure (List Interval) :=
  match placedSpans l opts.fit l.partitions with
  | .error e => .error e
  | .ok placed =>
    .ok ((Range.span l.primaryRegion :: (l.auxRegions.map Range.span ++
      (placed ++ backupSpan opts l))).insertionSort Interval.Before)

/-- `fillGap`. -/
def fillGap (opts : CloneDiskOptions) (l : Layout) (gap : Interval) : Run Unit :=
  let length := gap.stop - gap.start
  if sameSize opts l ∧ gap.stop ≤ opts.sourceSize then do
    let _ ← copyAt ⟨gap.start, length⟩ opts.source gap.start length
    pure ()
  else writeZeros ⟨gap.start, length⟩ length

/-- `writeGaps`; it gives the bytes of the gaps. -/
def writeGaps (opts : CloneDiskOptions) (l : Layout) : Run ℤ := do
  let used ← ofExcept (usedSpans opts l)
  each (fillGap opts l) (innerHoles used 0 ++ lastHole (reach used 0) opts.targetSize)
  pure ((innerHoles used 0).map fun h => h.stop - h.start).sum

/-! ## The disk -/

/-- The layout of the source. -/
def cloneLayout (opts : CloneDiskOptions) : Except Failure Layout :=
  let target := opts.targetSize
  match parse opts.source opts.sourceSize with
  | .error e => .error (.error s!"parsing the source disk: {e}")
  | .ok l =>
    let size := l.diskSize
    if opts.fit.isNone ∧ target < size then
      .error (.error (s!"target ({target} bytes) is smaller than the source ({size} bytes); " ++
        "plan a fit to shrink"))
    else .ok l

/-- `CloneDisk`. -/
def cloneDisk (opts : CloneDiskOptions) : Run CloneResult := do
  let l ← ofExcept (cloneLayout opts)
  let d ← ofExcept (capture opts.source l)
  let done ← collect (clonePartition opts l) l.partitions
  let gapBytes ← writeGaps opts l
  writeBoot d opts.fit opts.targetSize
  pure ⟨l, done.length, (done.map Cloned.written).sum + gapBytes, done.map Cloned.digest,
    (done.map Cloned.readBack).sum⟩

/-! ## What a clone that succeeds has written -/

/-- The writes behind the captured bytes of a partition that grows. -/
def tailWrites (pl : Placement) : Writes :=
  if pl.grow ∧ pl.oldLength < pl.length then
    chop bufferSize (int64 (pl.base + pl.oldLength)).toNat
      (List.replicate (int64 (pl.length - pl.oldLength)).toNat 0)
  else []

/-- The staged bytes of a partition. -/
def stagedBytes (staged : ℕ → Option StagedMember) (index : ℕ) : Bytes :=
  ((staged index).bind StagedMember.reader).getD []

/-- The writes for a partition with its placement. -/
def placeWrites (opts : CloneDiskOptions) (l : Layout) (p : Partition) (pl : Placement) : Writes :=
  if pl.shrink then
    chop bufferSize pl.base.toNat ((stagedBytes opts.staged p.index).take pl.length.toNat)
  else
    chop bufferSize pl.base.toNat
      ((opts.source.drop (p.offset l.sectorSize).toNat).take pl.oldLength.toNat) ++ tailWrites pl

/-- The writes for a partition. -/
def partitionWrites (opts : CloneDiskOptions) (l : Layout) (p : Partition) : Writes :=
  match placementFor l opts.fit p.index with
  | .error _ => []
  | .ok pl => placeWrites opts l p pl

/-- The writes for a gap. -/
def gapWrites (opts : CloneDiskOptions) (l : Layout) (gap : Interval) : Writes :=
  chop bufferSize gap.start.toNat
    (if sameSize opts l ∧ gap.stop ≤ opts.sourceSize then
      (opts.source.drop gap.start.toNat).take (gap.stop - gap.start).toNat
    else List.replicate (gap.stop - gap.start).toNat 0)

/-- The gaps between used spans. -/
def gaps (opts : CloneDiskOptions) (used : List Interval) : List Interval :=
  innerHoles used 0 ++ lastHole (reach used 0) opts.targetSize

/-- The writes of a clone. -/
def cloneWrites (opts : CloneDiskOptions) (l : Layout) (used : List Interval) (d : DiskCapture)
    (b : BootStructures) : Writes :=
  l.partitions.flatMap (partitionWrites opts l) ++
    ((gaps opts used).flatMap (gapWrites opts l) ++ bootWrites d b)

/-- The grown tail was written. -/
def TailWritten (pl : Placement) : Prop :=
  pl.grow ∧ pl.oldLength < pl.length → 0 < int64 (pl.length - pl.oldLength) →
    0 ≤ int64 (pl.base + pl.oldLength)

/-- A partition was written. -/
structure Written (opts : CloneDiskOptions) (l : Layout) (p : Partition) (pl : Placement) :
    Prop where
  placed : placementFor l opts.fit p.index = .ok pl
  shrunk : pl.shrink → 0 < pl.length →
    0 ≤ pl.base ∧ pl.length ≤ (stagedBytes opts.staged p.index).length
  copied : ¬ pl.shrink → 0 < pl.oldLength →
    (0 ≤ pl.base ∧ pl.oldLength ≤ pl.length) ∧
      0 ≤ p.offset l.sectorSize ∧ p.offset l.sectorSize + pl.oldLength ≤ opts.source.length
  tail : ¬ pl.shrink → TailWritten pl

variable {l : Layout} {index : ℕ} {pl : Placement} {hash : Hash} {past ws : Writes}
  {opts : CloneDiskOptions} {used : List Interval}

/-- The numbers of a placement are offsets. -/
lemma placementFor_offsets {fit : Option FitPlan} (h : placementFor l fit index = .ok pl) :
    IsOffset pl.base ∧ IsOffset pl.length ∧ IsOffset pl.oldLength := by
  unfold placementFor at h
  split at h
  · cases h
  · split at h
    · cases h
      exact ⟨isOffset_int64 _, isOffset_int64 _, isOffset_int64 _⟩
    · split at h
      · cases h
      · cases h
        exact ⟨isOffset_int64 _, isOffset_int64 _, isOffset_int64 _⟩

lemma placeShrunk_ok {staged : ℕ → Option StagedMember} (hbase : IsOffset pl.base)
    (hlength : IsOffset pl.length) (h : placeShrunk staged index pl past = (.ok hash, ws)) :
    (0 < pl.length → 0 ≤ pl.base ∧ pl.length ≤ (stagedBytes staged index).length) ∧
      ws = chop bufferSize pl.base.toNat ((stagedBytes staged index).take pl.length.toNat) := by
  obtain ⟨st, hst, h⟩ := ofExcept_bind_ok_iff.1 h
  have hbytes : stagedBytes staged index = st.reader.getD [] := by
    unfold stagedFor at hst
    split at hst
    · cases hst
    · rename_i hs
      cases hst
      rw [stagedBytes, hs]
      rfl
  rw [hbytes]
  replace h := mapError_ok_iff.1 h
  rw [writeStaged] at h
  cases hr : st.reader with
  | none =>
    simp only [hr] at h
    cases h
  | some bytes =>
    simp only [hr] at h
    split at h
    · cases h
    · obtain ⟨hfacts, rfl⟩ := copyAt_ok (w := ⟨pl.base, pl.length⟩) hbase hlength.2 h
      refine ⟨fun hpos => ?_, rfl⟩
      obtain ⟨hwin, -, hsrc⟩ := hfacts hpos
      rw [zero_add] at hsrc
      exact ⟨hwin.1, hsrc⟩

lemma zeroTail_ok (h : zeroTail index pl past = (.ok (), ws)) :
    TailWritten pl ∧ ws = tailWrites pl := by
  rw [zeroTail] at h
  rw [tailWrites, TailWritten]
  by_cases hgrow : pl.grow ∧ pl.oldLength < pl.length
  · simp only [if_pos hgrow] at h ⊢
    obtain ⟨hfacts, rfl⟩ := writeZeros_ok (w := ⟨_, _⟩) (isOffset_int64 _) (isOffset_int64 _).2
      (mapError_ok_iff.1 h)
    exact ⟨fun _ hpos => (hfacts hpos).1, rfl⟩
  · simp only [if_neg hgrow] at h ⊢
    cases h
    exact ⟨fun hg => absurd hg hgrow, rfl⟩

/-- A partition that was cloned. -/
lemma clonePartition_ok {p : Partition} {c : Cloned}
    (h : clonePartition opts l p past = (.ok c, ws)) :
    (∃ pl, Written opts l p pl) ∧ ws = partitionWrites opts l p := by
  obtain ⟨-, -, h⟩ := ofExcept_bind_ok_iff.1 h
  obtain ⟨pl, hplaced, h⟩ := ofExcept_bind_ok_iff.1 h
  obtain ⟨sum, ws1, ws2, hwrite, hback, rfl⟩ := bind_ok_iff.1 h
  -- reading back issues no write
  obtain ⟨back, -, hret⟩ := ofExcept_bind_ok_iff.1 hback
  cases hret
  obtain ⟨hbase, hlength, hold⟩ := placementFor_offsets hplaced
  have hpw : partitionWrites opts l p = placeWrites opts l p pl := by
    rw [partitionWrites, hplaced]
  rw [placePartition] at hwrite
  rw [hpw, placeWrites, List.append_nil]
  by_cases hshrink : pl.shrink
  · rw [if_pos hshrink] at hwrite
    obtain ⟨hfacts, rfl⟩ := placeShrunk_ok hbase hlength hwrite
    rw [if_pos hshrink]
    exact ⟨⟨pl, hplaced, fun _ => hfacts, fun hn => absurd hshrink hn, fun hn => absurd hshrink hn⟩,
      rfl⟩
  · rw [if_neg hshrink] at hwrite
    obtain ⟨_, _, _, hcopy, hrest, rfl⟩ := bind_ok_iff.1 hwrite
    obtain ⟨_, hzero, -⟩ := bind_pure_ok_iff.1 hrest
    obtain ⟨hfacts, rfl⟩ := copyAt_ok (w := ⟨pl.base, pl.length⟩) hbase hold.2
      (mapError_ok_iff.1 hcopy)
    obtain ⟨htail, rfl⟩ := zeroTail_ok hzero
    rw [if_neg hshrink]
    exact ⟨⟨pl, hplaced, fun hs => absurd hs hshrink, fun _ => hfacts, fun _ => htail⟩, rfl⟩

/-- A gap that was filled. -/
lemma fillGap_ok {gap : Interval} (hgap : 0 ≤ gap.start ∧ gap.start < gap.stop ∧ gap.stop < 2 ^ 63)
    (h : fillGap opts l gap past = (.ok (), ws)) :
    (sameSize opts l ∧ gap.stop ≤ opts.sourceSize → gap.stop ≤ opts.source.length) ∧
      ws = gapWrites opts l gap := by
  have hbase : IsOffset gap.start := ⟨by omega, by omega⟩
  rw [fillGap] at h
  rw [gapWrites]
  by_cases hsame : sameSize opts l ∧ gap.stop ≤ opts.sourceSize
  · simp only [if_pos hsame] at h ⊢
    obtain ⟨hash, hcopy, -⟩ := bind_pure_ok_iff.1 h
    obtain ⟨hfacts, rfl⟩ := copyAt_ok (w := ⟨gap.start, _⟩) hbase (by omega) hcopy
    exact ⟨fun _ => by omega, rfl⟩
  · simp only [if_neg hsame] at h ⊢
    obtain ⟨-, rfl⟩ := writeZeros_ok (w := ⟨gap.start, _⟩) hbase (by omega) h
    exact ⟨fun hs => absurd hs hsame, rfl⟩

/-- What the parser says about the regions of a disk. -/
structure ParsedRegions (l : Layout) : Prop where
  primary : l.primaryRegion.offset = 0
  aux : ∀ r ∈ l.auxRegions, 0 ≤ r.offset ∧ r.offset < 2 ^ 63
  backup : IsOffset l.backupRegion.offset

lemma parsedRegions_of_parse {disk : Bytes} {size : ℤ} (hsize : size < 2 ^ 63)
    (h : parse disk size = .ok l) : ParsedRegions l := by
  obtain ⟨-, rfl⟩ | ⟨-, -, rfl⟩ | ⟨-, -, hm⟩ := parse_ok h
  · exact ⟨rfl, fun r hr => (by cases hr), isOffset_int64 _⟩
  · exact ⟨rfl, fun r hr => (by cases hr), isOffset_int64 _⟩
  · rw [hm.layout]
    refine ⟨rfl, fun r hr => ?_, by norm_num [mbrLayout], by norm_num [mbrLayout]⟩
    obtain ⟨lba, hlba, rfl⟩ := List.mem_map.1 hr
    have := hm.starts lba hlba
    exact ⟨Int.natCast_nonneg _, by simp only; omega⟩

lemma placedSpans_ok {fit : Option FitPlan} {ps : List Partition} {spans : List Interval}
    (h : placedSpans l fit ps = .ok spans) (u : Interval) :
    u ∈ spans ↔ ∃ p ∈ ps, ∃ pl, placementFor l fit p.index = .ok pl ∧
      u = ⟨pl.base, int64 (pl.base + pl.length)⟩ := by
  induction ps generalizing spans with
  | nil =>
    cases h
    simp
  | cons p ps ih =>
    rw [placedSpans] at h
    split at h
    · cases h
    · rename_i pl hpl
      obtain ⟨rest, hrest, rfl⟩ := map_eq_ok.1 h
      rw [List.mem_cons, ih hrest, List.exists_mem_cons_iff, hpl]
      simp

lemma usedSpans_ok (h : usedSpans opts l = .ok used) :
    ∃ placed, placedSpans l opts.fit l.partitions = .ok placed ∧
      used = (Range.span l.primaryRegion :: (l.auxRegions.map Range.span ++
        (placed ++ backupSpan opts l))).insertionSort Interval.Before := by
  unfold usedSpans at h
  split at h
  · cases h
  · cases h
    exact ⟨_, by assumption, rfl⟩

/-- The spans that are taken for used, one by one. -/
lemma mem_usedSpans (h : usedSpans opts l = .ok used) (u : Interval) :
    u ∈ used ↔ u = Range.span l.primaryRegion ∨ (∃ r ∈ l.auxRegions, u = Range.span r) ∨
      (∃ p ∈ l.partitions, ∃ pl, placementFor l opts.fit p.index = .ok pl ∧
        u = ⟨pl.base, int64 (pl.base + pl.length)⟩) ∨ u ∈ backupSpan opts l := by
  obtain ⟨placed, hplaced, rfl⟩ := usedSpans_ok h
  rw [List.mem_insertionSort, List.mem_cons, List.mem_append, List.mem_append, List.mem_map,
    placedSpans_ok hplaced]
  simp only [eq_comm (a := u)]

lemma usedSpans_sorted (h : usedSpans opts l = .ok used) : used.Pairwise Interval.Before := by
  obtain ⟨placed, -, rfl⟩ := usedSpans_ok h
  exact List.pairwise_insertionSort _ _

lemma usedSpans_start (hl : ParsedRegions l) (h : usedSpans opts l = .ok used) {u : Interval}
    (hu : u ∈ used) :
    u.start < 2 ^ 63 := by
  obtain rfl | ⟨r, hr, rfl⟩ | ⟨p, hp, pl, hpl, rfl⟩ | hu := (mem_usedSpans h u).1 hu
  · change l.primaryRegion.offset < 2 ^ 63
    rw [hl.primary]
    norm_num
  · exact (hl.aux r hr).2
  · exact (placementFor_offsets hpl).1.2
  · unfold backupSpan at hu
    split at hu
    · rw [List.mem_singleton.1 hu]
      split
      · exact hl.backup.2
      · exact (int64_range _).2
    · cases hu

/-- A gap is not empty, and ends where a used span starts or the target ends. -/
lemma mem_gaps {gap : Interval} (hgap : gap ∈ gaps opts used) :
    (0 ≤ gap.start ∧ gap.start < gap.stop) ∧
      (gap.stop = opts.targetSize ∨ ∃ u ∈ used, gap.stop = u.start) := by
  rcases List.mem_append.1 hgap with h | h
  · obtain ⟨hpos, hstop⟩ := mem_innerHoles h
    exact ⟨hpos, .inr hstop⟩
  · unfold lastHole at h
    split at h
    · rw [List.mem_singleton.1 h]
      exact ⟨⟨(le_reach used 0).1, by assumption⟩, .inl rfl⟩
    · cases h

lemma writeGaps_ok {bytes : ℤ} (hl : ParsedRegions l) (htarget : opts.targetSize < 2 ^ 63)
    (h : writeGaps opts l past = (.ok bytes, ws)) :
    ∃ used, usedSpans opts l = .ok used ∧
      (∀ gap ∈ gaps opts used, sameSize opts l ∧ gap.stop ≤ opts.sourceSize →
        gap.stop ≤ opts.source.length) ∧
      ws = (gaps opts used).flatMap (gapWrites opts l) := by
  obtain ⟨used, hused, h⟩ := ofExcept_bind_ok_iff.1 h
  obtain ⟨_, hfill, -⟩ := bind_pure_ok_iff.1 h
  have hbound : ∀ gap ∈ gaps opts used,
      0 ≤ gap.start ∧ gap.start < gap.stop ∧ gap.stop < 2 ^ 63 := by
    intro gap hgap
    obtain ⟨⟨h1, h2⟩, h3 | ⟨u, hu, h3⟩⟩ := mem_gaps hgap
    · exact ⟨h1, h2, by omega⟩
    · have := usedSpans_start hl hused hu
      exact ⟨h1, h2, by omega⟩
  obtain ⟨hfacts, rfl⟩ := each_ok (f := fillGap opts l)
    (fun gap hgap past ws hg => fillGap_ok (hbound gap hgap) hg) hfill
  exact ⟨used, hused, hfacts, rfl⟩

/-- A clone that succeeded. -/
structure CloneDone (opts : CloneDiskOptions) (l : Layout) (used : List Interval) (d : DiskCapture)
    (b : BootStructures) : Prop where
  parsed : parse opts.source opts.sourceSize = .ok l
  fits : opts.fit = none → l.diskSize ≤ opts.targetSize
  captured : capture opts.source l = .ok d
  written : ∀ p ∈ l.partitions, ∃ pl, Written opts l p pl
  spans : usedSpans opts l = .ok used
  gaps : ∀ gap ∈ gaps opts used, sameSize opts l ∧ gap.stop ≤ opts.sourceSize →
    gap.stop ≤ opts.source.length
  boot : BootWritten d opts.fit opts.targetSize b

lemma cloneLayout_ok (h : cloneLayout opts = .ok l) :
    parse opts.source opts.sourceSize = .ok l ∧
      (opts.fit = none → l.diskSize ≤ opts.targetSize) := by
  unfold cloneLayout at h
  split at h
  · cases h
  next l' hparse =>
    rw [ite_error_eq_ok, not_and, not_lt] at h
    obtain ⟨hfits, hl⟩ := h
    cases hl
    exact ⟨hparse, fun hnone => hfits (by rw [hnone]; rfl)⟩

/-- What a clone that succeeds has written. -/
theorem cloneDisk_ok {opts : CloneDiskOptions} {res : CloneResult} {past ws : Writes}
    (hsource : opts.sourceSize < 2 ^ 63) (htarget : opts.targetSize < 2 ^ 63)
    (h : cloneDisk opts past = (.ok res, ws)) :
    ∃ l used d b, CloneDone opts l used d b ∧ ws = cloneWrites opts l used d b := by
  obtain ⟨l, hlayout, h⟩ := ofExcept_bind_ok_iff.1 h
  obtain ⟨d, hcapture, h⟩ := ofExcept_bind_ok_iff.1 h
  obtain ⟨done, ws1, ws', hparts, hrest, rfl⟩ := bind_ok_iff.1 h
  obtain ⟨bytes, ws2, ws3, hgaps, hend, rfl⟩ := bind_ok_iff.1 hrest
  obtain ⟨_, hboot, -⟩ := bind_pure_ok_iff.1 hend
  obtain ⟨hparse, hfits⟩ := cloneLayout_ok hlayout
  obtain ⟨hwritten, rfl⟩ := collect_ok (f := clonePartition opts l)
    (fun p _ past c ws hp => clonePartition_ok hp) hparts
  obtain ⟨used, hused, hgapFacts, rfl⟩ :=
    writeGaps_ok (parsedRegions_of_parse hsource hparse) htarget hgaps
  obtain ⟨b, hb, hws⟩ := writeBoot_ok hboot
  refine ⟨l, used, d, b, ⟨hparse, hfits, hcapture, hwritten, hused, hgapFacts, hb⟩, ?_⟩
  rw [hws, cloneWrites]

end DiskNexus.Bmr
