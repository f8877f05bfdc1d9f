import DiskNexus.Bmr.Clone

/-!
# What a clone leaves of the past of its target

A clone keeps spans of the target free for the partitions and for the backup structures and fills
the rest. A byte of the target keeps its past exactly if it is kept free and nothing is written
there.

## Main results

`hits_cloneWrites_iff`, `cloneDisk_clean_iff`
-/

namespace DiskNexus.Bmr

open Binary Overwrite DiskLayout WriteLog Segments
open Restore (Failure)

/-! ## Writes over a position -/

/-- Some write lies over the position. -/
def Hits (ws : Writes) (x : ℕ) : Prop := ∃ w ∈ ws, Covers w x

variable {ws : Writes} {x : ℕ} {opts : CloneDiskOptions} {l : Layout} {source : Bytes}
  {d : DiskCapture} {b : BootStructures}

lemma hits_append {ws' : Writes} : Hits (ws ++ ws') x ↔ Hits ws x ∨ Hits ws' x := by
  simp only [Hits, List.mem_append, or_and_right, exists_or]

lemma hits_cons {w : ℕ × Bytes} : Hits (w :: ws) x ↔ Covers w x ∨ Hits ws x := by
  simp only [Hits, List.exists_mem_cons_iff]

lemma hits_nil : ¬ Hits [] x := by
  rintro ⟨w, hw, -⟩
  cases hw

lemma hits_flatMap {α : Type} {f : α → Writes} {xs : List α} :
    Hits (xs.flatMap f) x ↔ ∃ a ∈ xs, Hits (f a) x := by
  simp only [Hits, List.mem_flatMap]
  constructor
  · rintro ⟨w, ⟨a, ha, hw⟩, hx⟩
    exact ⟨a, ha, w, hw, hx⟩
  · rintro ⟨a, ha, w, hw, hx⟩
    exact ⟨w, ⟨a, ha, hw⟩, hx⟩

/-- Bytes that are written in pieces from an offset on. -/
lemma hits_chop {base n : ℤ} {bytes : Bytes} {x : ℕ} (hbase : 0 < n → 0 ≤ base)
    (hlength : bytes.length = n.toNat) :
    Hits (chop bufferSize base.toNat bytes) x ↔ (⟨base, base + n⟩ : Interval).Has x := by
  unfold Hits
  rw [exists_mem_chop_iff bufferSize_pos, hlength]
  unfold Interval.Has
  simp only
  omega

/-- Bytes that are written at once. -/
lemma covers_iff_has {base : ℤ} {bytes : Bytes} (hbase : bytes ≠ [] → 0 ≤ base) :
    Covers (base.toNat, bytes) x ↔ (⟨base, base + bytes.length⟩ : Interval).Has x := by
  change base.toNat ≤ x ∧ x < base.toNat + bytes.length ↔ base ≤ x ∧ (x : ℤ) < base + bytes.length
  rcases Nat.eq_zero_or_pos bytes.length with hzero | hpos
  · omega
  · have := hbase (List.length_pos_iff.1 hpos)
    omega

/-! ## Partitions and gaps -/

/-- The ranges of the target that get bytes of a partition. -/
def Placement.ranges (pl : Placement) : List Interval :=
  if pl.shrink then [⟨pl.base, pl.base + pl.length⟩]
  else
    ⟨pl.base, pl.base + pl.oldLength⟩ ::
      if pl.grow ∧ pl.oldLength < pl.length then
        [⟨int64 (pl.base + pl.oldLength),
          int64 (pl.base + pl.oldLength) + int64 (pl.length - pl.oldLength)⟩]
      else []

lemma hits_partitionWrites {p : Partition} {pl : Placement} (h : Written opts l p pl) :
    Hits (partitionWrites opts l p) x ↔ ∃ r ∈ pl.ranges, r.Has x := by
  rw [partitionWrites, h.placed]
  simp only
  unfold placeWrites Placement.ranges
  by_cases hshrink : pl.shrink
  · rw [if_pos hshrink, if_pos hshrink, hits_chop fun hpos => (h.shrunk hshrink hpos).1]
    · simp
    · rw [List.length_take]
      rcases le_or_gt pl.length 0 with hle | hpos
      · omega
      · have := (h.shrunk hshrink hpos).2
        omega
  · rw [if_neg hshrink, if_neg hshrink, hits_append,
      hits_chop (n := pl.oldLength) fun hpos => (h.copied hshrink hpos).1.1]
    · rw [List.exists_mem_cons_iff, tailWrites]
      split
      next hgrow =>
        rw [hits_chop (h.tail hshrink hgrow) List.length_replicate]
        simp
      · simp [hits_nil]
    · rw [List.length_take, List.length_drop]
      rcases le_or_gt pl.oldLength 0 with hle | hpos
      · omega
      · have := (h.copied hshrink hpos).2
        omega

lemma hits_gapWrites {gap : Interval} (hgap : 0 ≤ gap.start ∧ gap.start < gap.stop)
    (hcopied : sameSize opts l ∧ gap.stop ≤ opts.sourceSize → gap.stop ≤ opts.source.length) :
    Hits (gapWrites opts l gap) x ↔ gap.Has x := by
  unfold gapWrites
  rw [hits_chop (n := gap.stop - gap.start) fun _ => hgap.1]
  · rw [add_sub_cancel]
  · split_ifs with hsame
    · have := hcopied hsame
      rw [List.length_take, List.length_drop]
      omega
    · rw [List.length_replicate]

/-! ## Boot structures -/

/-- The bytes of a region of the source. -/
def regionBytes (source : Bytes) (r : Range) : Bytes :=
  resize 0 (source.drop r.offset.toNat) r.length.toNat

lemma readRegion_ok {bs : Bytes} {r : Range} (h : readRegion source r = .ok bs) :
    (0 ≤ r.length ∧ 0 ≤ r.offset) ∧ bs = regionBytes source r := by
  unfold readRegion at h
  rw [ite_error_eq_ok, ite_error_eq_ok] at h
  obtain ⟨hlen, hoff, h⟩ := h
  cases h
  exact ⟨⟨by omega, by omega⟩, rfl⟩

lemma readAuxRegions_ok {rs : List Range} {aux : List Bytes}
    (h : readAuxRegions source rs = .ok aux) :
    (∀ r ∈ rs, 0 ≤ r.length) ∧ aux = rs.map (regionBytes source) := by
  induction rs generalizing aux with
  | nil =>
    cases h
    exact ⟨fun r hr => (by cases hr), rfl⟩
  | cons r rs ih =>
    rw [readAuxRegions] at h
    split at h
    · cases h
    · rename_i bs hr
      obtain ⟨rest, hrest, rfl⟩ := map_eq_ok.1 h
      obtain ⟨hpos, rfl⟩ := readRegion_ok hr
      obtain ⟨hrs, rfl⟩ := ih hrest
      exact ⟨List.forall_mem_cons.2 ⟨hpos.1, hrs⟩, rfl⟩

/-- The regions of the source that are captured. -/
structure Captured (source : Bytes) (l : Layout) (d : DiskCapture) : Prop where
  layout : d.layout = l
  primaryLength : 0 ≤ l.primaryRegion.length
  primary : d.primaryGPT = regionBytes source l.primaryRegion
  backup : d.backupGPT = regionBytes source l.backupRegion
  auxLength : ∀ r ∈ l.auxRegions, 0 ≤ r.length
  aux : d.auxBytes = l.auxRegions.map (regionBytes source)

lemma capture_ok (h : capture source l = .ok d) :
    Captured source l d := by
  unfold capture at h
  split at h
  · cases h
  next primary hprimary =>
    split at h
    · cases h
    next backup hbackup =>
      split at h
      · cases h
      next aux haux =>
        cases h
        obtain ⟨hlen, rfl⟩ := readRegion_ok hprimary
        obtain ⟨hauxLen, rfl⟩ := readAuxRegions_ok haux
        refine ⟨rfl, hlen.1, rfl, ?_, hauxLen, rfl⟩
        unfold readBackupRegion at hbackup
        split_ifs at hbackup with hle
        · cases hbackup
          change [] = resize 0 _ _
          rw [Int.toNat_eq_zero.2 hle]
          exact (List.length_eq_zero_iff.1 (length_resize _ _ _)).symm
        · exact (readRegion_ok hbackup).2

/-- Where a clone writes the backup structures, and how many bytes. -/
def backupPlace (opts : CloneDiskOptions) (l : Layout) : ℤ × ℤ :=
  let g := geometryOf (regionBytes opts.source l.primaryRegion) l.sectorSize
  match opts.fit with
  | none =>
    if l.scheme = .mbr then (0, 0)
    else if opts.targetSize = l.diskSize then (l.backupRegion.offset, l.backupRegion.length)
    else movedBackup g l.sectorSize opts.targetSize
  | some plan =>
    if plan.scheme = .mbr then (0, 0) else movedBackup g l.sectorSize opts.targetSize

/-- The range of the backup structures. -/
def backupExtent (opts : CloneDiskOptions) (l : Layout) : Interval :=
  ⟨(backupPlace opts l).1, (backupPlace opts l).1 + (backupPlace opts l).2⟩

/-- The range of a region. -/
def Range.extent (r : Range) : Interval := ⟨r.offset, r.offset + r.length⟩

lemma bootStructures_shaped (hd : Captured opts.source l d)
    (h : bootStructures d opts.fit opts.targetSize = .ok b) :
    b.Shaped l.primaryRegion.length.toNat (backupPlace opts l) := by
  have hprimary : d.primaryGPT.length = l.primaryRegion.length.toNat := by
    rw [hd.primary, regionBytes, length_resize]
  unfold bootStructures at h
  unfold backupPlace
  rw [← hprimary, ← hd.primary]
  rw [hd.layout] at h
  cases hfit : opts.fit with
  | none =>
    rw [hfit] at h
    exact relocateGPT_shaped h
  | some plan =>
    simp only [hfit, ite_error_eq_ok, not_not] at h
    obtain ⟨-, hsize, h⟩ := h
    rw [← hsize]
    exact applyFit_shaped h

/-- An auxiliary region gets its bytes back. -/
lemma hits_auxWrites (hd : Captured source l d) (hoff : ∀ r ∈ l.auxRegions, 0 ≤ r.offset) :
    Hits (l.auxRegions.zipIdx.flatMap (auxWrite d.auxBytes)) x ↔
      ∃ r ∈ l.auxRegions, (Range.extent r).Has x := by
  have hone : ∀ r i, (r, i) ∈ l.auxRegions.zipIdx →
      (Hits (auxWrite d.auxBytes (r, i)) x ↔ (Range.extent r).Has x) := by
    intro r i hri
    have hr : l.auxRegions[i]? = some r := List.mk_mem_zipIdx_iff_getElem?.1 hri
    have hmem := List.mem_of_getElem? hr
    have hbytes : d.auxBytes[i]? = some (regionBytes source r) := by
      rw [hd.aux, List.getElem?_map, hr]
      rfl
    have hlen : ((regionBytes source r).length : ℤ) = r.length := by
      rw [regionBytes, length_resize]
      have := hd.auxLength r hmem
      omega
    rw [auxWrite]
    simp only [hbytes]
    rw [hits_cons, covers_iff_has fun _ => hoff r hmem, hlen]
    exact or_iff_left hits_nil
  rw [hits_flatMap]
  constructor
  · rintro ⟨⟨r, i⟩, hri, hx⟩
    exact ⟨r, List.mem_of_getElem? (List.mk_mem_zipIdx_iff_getElem?.1 hri), (hone r i hri).1 hx⟩
  · rintro ⟨r, hr, hx⟩
    obtain ⟨i, hi, rfl⟩ := List.getElem_of_mem hr
    have hri : (l.auxRegions[i], i) ∈ l.auxRegions.zipIdx :=
      List.mk_mem_zipIdx_iff_getElem?.2 (List.getElem?_eq_getElem hi)
    exact ⟨_, hri, (hone _ i hri).2 hx⟩

/-- Which positions get boot structures. -/
lemma hits_bootWrites (hl : ParsedRegions l) (hd : Captured opts.source l d)
    (h : BootWritten d opts.fit opts.targetSize b) :
    Hits (bootWrites d b) x ↔ (Range.extent l.primaryRegion).Has x ∨
      (backupExtent opts l).Has x ∨ ∃ r ∈ l.auxRegions, (Range.extent r).Has x := by
  obtain ⟨hprimary, hoff, hbackup⟩ := bootStructures_shaped hd h.built
  have hlen : (b.primary.length : ℤ) = l.primaryRegion.length := by
    have := hd.primaryLength
    omega
  have hback : Hits (if b.backup = [] then [] else [(b.backupOffset.toNat, b.backup)]) x ↔
      (backupExtent opts l).Has x := by
    rw [backupExtent, ← hoff, ← hbackup, ← covers_iff_has h.backup]
    split_ifs with hnil
    · rw [hnil]
      exact iff_of_false hits_nil fun hc => by
        have : x < b.backupOffset.toNat + ([] : Bytes).length := hc.2
        have := hc.1
        simp only [List.length_nil] at *
        omega
    · rw [hits_cons]
      exact or_iff_left hits_nil
  rw [bootWrites, hits_cons, hits_append, hd.layout, hback,
    hits_auxWrites hd fun r hr => (hl.aux r hr).1,
    covers_iff_has fun _ => hl.primary.ge, hlen]
  rfl

/-! ## The whole clone -/

/-- The span that is kept free for a partition. -/
def Placement.span (pl : Placement) : Interval := ⟨pl.base, int64 (pl.base + pl.length)⟩

/-- A position that is kept free for a partition or for the backup structures. -/
def Reserved (opts : CloneDiskOptions) (l : Layout) (x : ℤ) : Prop :=
  (∃ p ∈ l.partitions, ∃ pl, placementFor l opts.fit p.index = .ok pl ∧ pl.span.Has x) ∨
    ∃ u ∈ backupSpan opts l, u.Has x

/-- A position that gets boot structures or bytes of a partition. -/
def Filled (opts : CloneDiskOptions) (l : Layout) (x : ℤ) : Prop :=
  ((Range.extent l.primaryRegion).Has x ∨ (backupExtent opts l).Has x ∨
    ∃ r ∈ l.auxRegions, (Range.extent r).Has x) ∨
  ∃ p ∈ l.partitions, ∃ pl, placementFor l opts.fit p.index = .ok pl ∧ ∃ r ∈ pl.ranges, r.Has x

lemma int64_le {n : ℤ} (h : 0 ≤ n) : int64 n ≤ n := by
  obtain ⟨k, hk⟩ := int64_shift n
  have := int64_range n
  omega

/-- A span lies within its region. -/
lemma extent_has_of_span {r : Range} {x : ℤ} (hoff : 0 ≤ r.offset) (hlen : 0 ≤ r.length)
    (h : (Range.span r).Has x) : (Range.extent r).Has x :=
  ⟨h.1, lt_of_lt_of_le h.2 (int64_le (by omega))⟩

lemma gap_not_has {used : List Interval} {gap : Interval} {x : ℤ}
    (hsorted : used.Pairwise Interval.Before) (hgap : gap ∈ gaps opts used) (hx : gap.Has x) :
    ∀ u ∈ used, ¬ u.Has x := by
  rcases List.mem_append.1 hgap with h | h
  · exact ((exists_innerHoles_iff hsorted).1 ⟨gap, h, hx⟩).2.1
  · intro u hu hux
    unfold lastHole at h
    split at h
    · rw [List.mem_singleton.1 h] at hx
      have := (le_reach used 0).2 u hu
      exact absurd (lt_of_lt_of_le hux.2 this) (not_lt.2 hx.1)
    · cases h

/-- A clone writes a position exactly if it is filled or not kept free. -/
lemma hits_cloneWrites_iff {used : List Interval} (hsource : opts.sourceSize < 2 ^ 63)
    (h : CloneDone opts l used d b) (hx : x < opts.targetSize) :
    Hits (cloneWrites opts l used d b) x ↔ (Reserved opts l x → Filled opts l x) := by
  have hl := parsedRegions_of_parse hsource h.parsed
  have hd := capture_ok h.captured
  have hparts : Hits (l.partitions.flatMap (partitionWrites opts l)) x ↔
      ∃ p ∈ l.partitions, ∃ pl, placementFor l opts.fit p.index = .ok pl ∧
        ∃ r ∈ pl.ranges, r.Has x := by
    rw [hits_flatMap]
    refine exists_congr fun p => and_congr_right fun hp => ?_
    obtain ⟨pl, hw⟩ := h.written p hp
    rw [hits_partitionWrites hw, hw.placed]
    simp
  have hgaps : Hits ((gaps opts used).flatMap (gapWrites opts l)) x ↔
      ∃ gap ∈ gaps opts used, gap.Has x := by
    rw [hits_flatMap]
    exact exists_congr fun gap => and_congr_right fun hgap =>
      hits_gapWrites (mem_gaps hgap).1 (h.gaps gap hgap)
  have hfilled : Hits (cloneWrites opts l used d b) x ↔
      Filled opts l x ∨ ∃ gap ∈ gaps opts used, gap.Has x := by
    rw [cloneWrites, hits_append, hits_append, hparts, hgaps, hits_bootWrites hl hd h.boot, Filled]
    constructor
    · rintro (hp | hg | hb)
      · exact .inl (.inr hp)
      · exact .inr hg
      · exact .inl (.inl hb)
    · rintro ((hb | hp) | hg)
      · exact .inr (.inr hb)
      · exact .inl hp
      · exact .inr (.inl hg)
  have hused := mem_usedSpans h.spans
  have hsorted := usedSpans_sorted h.spans
  rw [hfilled]
  constructor
  · -- a gap has no position that is kept free
    rintro (hf | ⟨gap, hgap, hgx⟩) hres
    · exact hf
    · have hfree := gap_not_has hsorted hgap hgx
      rcases hres with ⟨p, hp, pl, hpl, hpx⟩ | ⟨u, hu, hux⟩
      · exact absurd hpx (hfree _ ((hused _).2 (.inr (.inr (.inl ⟨p, hp, pl, hpl, rfl⟩)))))
      · exact absurd hux (hfree u ((hused u).2 (.inr (.inr (.inr hu)))))
  · intro himp
    by_cases hres : Reserved opts l x
    · exact .inl (himp hres)
    by_cases hfree : ∀ u ∈ used, ¬ u.Has x
    · exact .inr (exists_hole hsorted ⟨Int.natCast_nonneg x, hx⟩ hfree)
    · push Not at hfree
      obtain ⟨u, hu, hux⟩ := hfree
      obtain rfl | ⟨r, hr, rfl⟩ | ⟨p, hp, pl, hpl, rfl⟩ | hu := (hused u).1 hu
      · exact .inl (.inl (.inl (extent_has_of_span hl.primary.ge hd.primaryLength hux)))
      · exact .inl (.inl (.inr (.inr ⟨r, hr,
          extent_has_of_span (hl.aux r hr).1 (hd.auxLength r hr) hux⟩)))
      · exact absurd (.inl ⟨p, hp, pl, hpl, hux⟩) hres
      · exact absurd (.inr ⟨u, hu, hux⟩) hres

/-- Every position of the target that is kept free is filled. -/
def FillsReserved (opts : CloneDiskOptions) : Prop :=
  ∀ l, parse opts.source opts.sourceSize = .ok l →
    ∀ x : ℕ, x < opts.targetSize → Reserved opts l x → Filled opts l x

/-- Two clones with the same options leave the same bytes on two targets, whatever they held,
exactly if everything that is kept free is filled.

**Proof sketch.** Both runs issue the writes `cloneWrites`, so the targets agree at a position for
all former contents exactly if one of these lies over it. -/
theorem cloneDisk_clean_iff {opts : CloneDiskOptions}
    {read : Option (Writes → ℤ → ℤ → Except String Bytes)} {res₁ res₂ : CloneResult}
    {ws₁ ws₂ : Writes} (hsource : opts.sourceSize < 2 ^ 63) (htarget : opts.targetSize < 2 ^ 63)
    (h₁ : cloneDisk opts [] = (.ok res₁, ws₁))
    (h₂ : cloneDisk { opts with readAt := read } [] = (.ok res₂, ws₂)) :
    (∀ old₁ old₂ : Bytes, (old₁.length : ℤ) = opts.targetSize →
      (old₂.length : ℤ) = opts.targetSize → ∀ x : ℕ, x < opts.targetSize →
        (patch 0 old₁ ws₁).getD x 0 = (patch 0 old₂ ws₂).getD x 0) ↔ FillsReserved opts := by
  obtain ⟨l, used, d, b, hdone, rfl⟩ := cloneDisk_ok hsource htarget h₁
  obtain ⟨l', used', d', b', hdone', rfl⟩ :=
    @cloneDisk_ok { opts with readAt := read } res₂ [] ws₂ hsource htarget h₂
  obtain rfl : l = l' := Except.ok.inj (hdone.parsed.symm.trans hdone'.parsed)
  obtain rfl : used = used' := Except.ok.inj (hdone.spans.symm.trans hdone'.spans)
  obtain rfl : d = d' := Except.ok.inj (hdone.captured.symm.trans hdone'.captured)
  obtain rfl : b = b' := Except.ok.inj (hdone.boot.built.symm.trans hdone'.boot.built)
  -- the writes do not depend on what is read back
  change (∀ old₁ old₂, _ → _ → ∀ x : ℕ, _ →
    _ = (patch 0 old₂ (cloneWrites opts l used d b)).getD x 0) ↔ _
  have hcond : FillsReserved opts ↔
      ∀ x : ℕ, x < opts.targetSize → Hits (cloneWrites opts l used d b) x := by
    unfold FillsReserved
    constructor
    · intro hf x hx
      exact (hits_cloneWrites_iff hsource hdone hx).2 (hf l hdone.parsed x hx)
    · intro hall l' hl' x hx
      obtain rfl : l = l' := Except.ok.inj (hdone.parsed.symm.trans hl')
      exact (hits_cloneWrites_iff hsource hdone hx).1 (hall x hx)
  rw [hcond]
  constructor
  · intro h x hx
    refine (forall_getD_patch_iff (show (1 : UInt8) ≠ 0 by decide)
      (show x < opts.targetSize.toNat by omega)).1 fun old₁ old₂ hl1 hl2 => ?_
    exact h old₁ old₂ (by omega) (by omega) x hx
  · intro h old₁ old₂ _ _ x hx
    exact getD_patch_congr (h x hx) 0 old₁ old₂

/-! ## Two small disks -/

/-- A clone of a disk to a target of the given size, without a plan. -/
def plainClone (source : Bytes) (targetSize : ℤ) : CloneDiskOptions :=
  ⟨source, source.length, targetSize, none, fun _ => none, none, fun _ => false⟩

/-- A run that succeeds with writes that pass a check. -/
def passes {α : Type} (check : Writes → Bool) : Except Failure α × Writes → Bool
  | (.ok _, ws) => check ws
  | (.error _, _) => false

lemma exists_of_passes {α : Type} {check : Writes → Bool} {r : Except Failure α × Writes}
    (h : passes check r = true) : ∃ a ws, r = (.ok a, ws) ∧ check ws = true := by
  obtain ⟨res, ws⟩ := r
  cases res with
  | error e => cases h
  | ok a => exact ⟨a, ws, rfl, h⟩

/-- The entry array of a small table: one partition on sector 3. -/
def smallEntries : Bytes :=
  List.replicate 16 1 ++ (List.replicate 16 2 ++ (le 8 3 ++ (le 8 3 ++ List.replicate 464 0)))

/-- A disk of `n` sectors whose backup header is said to be on sector `alternate`. -/
def smallDisk (alternate n : ℕ) : Bytes :=
  recomputeHeaderCRC (List.replicate 510 0 ++ ([0x55, 0xAA] ++ (gptSignature ++ ([0, 0, 1, 0] ++
    (le 4 92 ++ (List.replicate 8 0 ++ (le 8 1 ++ (le 8 alternate ++ (le 8 3 ++ (le 8 3 ++
    (List.replicate 16 3 ++ (le 8 2 ++ (le 4 4 ++ (le 4 128 ++
    (le 4 (Crc32.checksumIEEE smallEntries).toNat ++ (List.replicate 420 0 ++ (smallEntries ++
    List.replicate ((n - 3) * 512) 0))))))))))))))))) 512 92

/-- A clone to twelve sectors whose plan moves the partition and grows it. -/
def plannedClone : CloneDiskOptions :=
  { plainClone (smallDisk 7 8) 6144 with
    fit := some ⟨.gpt, 512, 6144, 9, [⟨0, 3, 3, 4, 7, false, true, true, 0⟩], [], []⟩ }

/-- The partition, the gap before it and the backup structures are filled. -/
theorem cloneDisk_clean_iff_planned :
    ∃ res ws, cloneDisk plannedClone [] = (.ok res, ws) ∧
      ∀ old₁ old₂ : Bytes, (old₁.length : ℤ) = 6144 → (old₂.length : ℤ) = 6144 →
        ∀ x : ℕ, (x : ℤ) < 6144 → (patch 0 old₁ ws).getD x 0 = (patch 0 old₂ ws).getD x 0 := by
  have hrun : passes (fun _ => true) (cloneDisk plannedClone []) := by decide +kernel
  have hsize : plannedClone.sourceSize < 2 ^ 63 := by decide +kernel
  obtain ⟨res, ws, h, -⟩ := exists_of_passes hrun
  refine ⟨res, ws, h, (cloneDisk_clean_iff hsize (by decide) h
    (show cloneDisk { plannedClone with readAt := none } [] = _ from h)).2 ?_⟩
  have hparse : parse plannedClone.source plannedClone.sourceSize =
      .ok (gptLayout (smallDisk 7 8) 4096 512) := by decide +kernel
  have hspans : (gptLayout (smallDisk 7 8) 4096 512).partitions.map (·.index) = [0] ∧
      placementFor (gptLayout (smallDisk 7 8) 4096 512) plannedClone.fit 0 =
        .ok ⟨2048, 2048, 512, false, true⟩ ∧
      backupSpan plannedClone (gptLayout (smallDisk 7 8) 4096 512) = [⟨5120, 6144⟩] ∧
      backupExtent plannedClone (gptLayout (smallDisk 7 8) 4096 512) = ⟨5120, 6144⟩ := by
    decide +kernel
  have hplaced : (⟨2048, 2048, 512, false, true⟩ : Placement).span = ⟨2048, 4096⟩ ∧
      (⟨2048, 2048, 512, false, true⟩ : Placement).ranges = [⟨2048, 2560⟩, ⟨2560, 4096⟩] := by
    decide +kernel
  intro l hl x _ hres
  obtain rfl := Except.ok.inj (hparse.symm.trans hl)
  rcases hres with ⟨p, hp, pl, hpl, hx⟩ | ⟨u, hu, hx⟩
  · have hindex : p.index ∈ [0] := hspans.1 ▸ List.mem_map_of_mem hp
    rw [List.mem_singleton.1 hindex, hspans.2.1] at hpl
    obtain rfl := Except.ok.inj hpl
    rw [hplaced.1] at hx
    refine .inr ⟨p, hp, _, by rw [List.mem_singleton.1 hindex, hspans.2.1], ?_⟩
    rw [hplaced.2]
    rcases lt_or_ge (x : ℤ) 2560 with hlt | hge
    · exact ⟨_, List.mem_cons_self, hx.1, hlt⟩
    · exact ⟨_, .tail _ (.head _), hge, hx.2⟩
  · rw [hspans.2.2.1, List.mem_singleton] at hu
    refine .inl (.inr (.inl ?_))
    rw [hspans.2.2.2, ← hu]
    exact hx

/-- What lies behind the backup header, on sector 5 of 8, is kept free and not written. -/
lemma smallDisk_not_hits :
    ∃ res ws, cloneDisk (plainClone (smallDisk 5 8) 4096) [] = (.ok res, ws) ∧ ¬ Hits ws 4095 := by
  have hrun : passes (fun ws => ws.all fun w => ¬ Covers w 4095)
      (cloneDisk (plainClone (smallDisk 5 8) 4096) []) = true := by
    decide +kernel
  obtain ⟨res, ws, h, hall⟩ := exists_of_passes hrun
  refine ⟨res, ws, h, fun ⟨w, hw, hx⟩ => ?_⟩
  exact of_decide_eq_true (List.all_eq_true.1 hall w hw) hx

lemma getD_patch_of_not_hits (h : ¬ Hits ws x) (old : Bytes) :
    (patch 0 old ws).getD x 0 = old.getD x 0 := by
  obtain ⟨w, hw, hx, -⟩ | ⟨-, hval⟩ := getD_patch_cases 0 old ws x
  · exact absurd ⟨w, hw, hx⟩ h
  · exact hval

theorem cloneDisk_keeps_past :
    ∃ res ws, cloneDisk (plainClone (smallDisk 5 8) 4096) [] = (.ok res, ws) ∧
      (patch 0 (List.replicate 4096 0) ws).getD 4095 0 ≠
        (patch 0 (List.replicate 4096 1) ws).getD 4095 0 := by
  obtain ⟨res, ws, h, hnot⟩ := smallDisk_not_hits
  refine ⟨res, ws, h, ?_⟩
  rw [getD_patch_of_not_hits hnot, getD_patch_of_not_hits hnot, List.getD_eq_getElem?_getD,
    List.getD_eq_getElem?_getD, List.getElem?_replicate, List.getElem?_replicate]
  decide

end DiskNexus.Bmr
