import DiskNexus.Bmr.Coverage

/-!
# Clones to a disk of the same size

To a target of the size of the source a clone without a plan copies everything to where it was,
except for what lies behind the backup structures, which is taken for a part of them.
-/

namespace DiskNexus.Bmr

open Binary Overwrite DiskLayout WriteLog Segments
open Restore (Failure)

/-- The range of a partition. -/
def Partition.extent (p : Partition) (sectorSize : ℕ) : Interval :=
  ⟨p.offset sectorSize, p.offset sectorSize + p.length sectorSize⟩

/-- The ranges that hold a table or a partition, the backup structures apart. -/
def heldRanges (l : Layout) : List Interval :=
  Range.extent l.primaryRegion ::
    (l.auxRegions.map Range.extent ++ l.partitions.map fun p => Partition.extent p l.sectorSize)

/-- A range of a disk of the given size. -/
def OnDiskRange (size : ℤ) (r : Interval) : Prop := 0 ≤ r.start ∧ r.start ≤ r.stop ∧ r.stop ≤ size

/-! ## The ranges of a parsed disk -/

/-- A partition on the disk is where its sectors say. -/
lemma partition_extent {p : Partition} {sectorSize : ℕ} {size : ℤ} (hsize : size < 2 ^ 63)
    (hsector : 0 < sectorSize) (hle : p.firstLBA ≤ p.lastLBA)
    (h : (((p.lastLBA + 1) * sectorSize : ℕ) : ℤ) ≤ size) :
    Partition.extent p sectorSize =
      ⟨(p.firstLBA * sectorSize : ℕ), ((p.lastLBA + 1) * sectorSize : ℕ)⟩ := by
  have hfirst : p.firstLBA * sectorSize ≤ p.lastLBA * sectorSize := Nat.mul_le_mul_right _ hle
  have hlast : p.lastLBA ≤ p.lastLBA * sectorSize := Nat.le_mul_of_pos_right _ hsector
  have hsplit : (p.lastLBA + 1) * sectorSize = p.lastLBA * sectorSize + sectorSize :=
    Nat.succ_mul _ _
  have hoff : p.offset sectorSize = (p.firstLBA * sectorSize : ℕ) := by
    rw [Partition.offset, int64_eq (n := (p.firstLBA : ℤ)) (by omega), ← Nat.cast_mul,
      int64_eq (by omega)]
  have hlen : p.length sectorSize =
      ((p.lastLBA + 1) * sectorSize : ℕ) - (p.firstLBA * sectorSize : ℕ) := by
    have hmul : ((p.lastLBA : ℤ) - p.firstLBA + 1) * sectorSize =
        ((p.lastLBA + 1) * sectorSize : ℕ) - (p.firstLBA * sectorSize : ℕ) := by
      push_cast
      ring
    rw [Partition.length, int64_eq (n := (p.lastLBA : ℤ) - p.firstLBA + 1) (by omega), hmul,
      int64_eq (by omega)]
  rw [Partition.extent, hlen, hoff, add_sub_cancel]

/-- The partitions of a parsed disk lie on it. -/
def PartitionsOnDisk (l : Layout) : Prop :=
  ∀ p ∈ l.partitions, (((p.lastLBA + 1) * l.sectorSize : ℕ) : ℤ) ≤ l.diskSize

/-- A parsed disk whose partitions lie on it. -/
structure ParsedDisk (source : Bytes) (size : ℤ) (l : Layout) : Prop where
  length : (source.length : ℤ) = size
  bound : size < 2 ^ 63
  parsed : parse source size = .ok l
  partitions : PartitionsOnDisk l

namespace ParsedDisk

variable {source : Bytes} {size : ℤ} {l : Layout}

lemma diskSize (h : ParsedDisk source size l) : l.diskSize = size := by
  obtain ⟨-, rfl⟩ | ⟨-, -, rfl⟩ | ⟨-, -, hm⟩ := parse_ok h.parsed
  · rfl
  · rfl
  · rw [hm.layout]
    rfl

lemma sectorSize_pos (h : ParsedDisk source size l) : 0 < l.sectorSize := by
  obtain ⟨-, rfl⟩ | ⟨-, -, rfl⟩ | ⟨-, -, hm⟩ := parse_ok h.parsed
  · exact (by decide : 0 < 512)
  · exact (by decide : 0 < 4096)
  · rw [hm.layout]
    exact (by decide : 0 < 512)

lemma ordered (h : ParsedDisk source size l) : ∀ p ∈ l.partitions, p.firstLBA ≤ p.lastLBA := by
  obtain ⟨hv, rfl⟩ | ⟨-, hv, rfl⟩ | ⟨-, -, hm⟩ := parse_ok h.parsed
  · exact fun p hp => (hv.partitions p hp).1
  · exact fun p hp => (hv.partitions p hp).1
  · exact hm.ordered

/-- The table in front lies on the disk, as do the sectors of a chain. -/
lemma regions (h : ParsedDisk source size l) :
    l.primaryRegion.Within size ∧ ∀ r ∈ l.auxRegions, r.Within size := by
  have hgpt : ∀ {sectorSize : ℕ}, ValidGPT source size sectorSize →
      (gptLayout source size sectorSize).primaryRegion.Within size := by
    intro sectorSize hv
    refine (primaryRegion_within_iff h.bound hv.array.1 hv.entryBytes).2 ?_
    rw [← h.length]
    exact hv.array.2
  obtain ⟨hv, hl⟩ | ⟨-, hv, hl⟩ | ⟨-, -, hm⟩ := parse_ok h.parsed
  · rw [hl]
    exact ⟨hgpt hv, fun r hr => (by cases hr)⟩
  · rw [hl]
    exact ⟨hgpt hv, fun r hr => (by cases hr)⟩
  · have hon := (mbrParsed_onDisk_iff hm).2 ⟨hm.within_iff.1 h.partitions, fun lba hlba => ?_⟩
    · rw [← h.diskSize]
      exact ⟨hon.primary, hon.aux⟩
    · have := hm.held lba hlba
      have := h.length
      omega

lemma partition_extent (h : ParsedDisk source size l) {p : Partition} (hp : p ∈ l.partitions) :
    Partition.extent p l.sectorSize =
      ⟨(p.firstLBA * l.sectorSize : ℕ), ((p.lastLBA + 1) * l.sectorSize : ℕ)⟩ :=
  Bmr.partition_extent h.bound h.sectorSize_pos (h.ordered p hp)
    (by rw [← h.diskSize]; exact h.partitions p hp)

lemma held (h : ParsedDisk source size l) : ∀ r ∈ heldRanges l, OnDiskRange size r := by
  have hregion : ∀ {r : Range}, r.Within size → OnDiskRange size (Range.extent r) := by
    rintro r ⟨h1, h2, h3⟩
    exact ⟨h1, by simp only [Range.extent]; omega, h3⟩
  obtain ⟨hprimary, haux⟩ := h.regions
  refine List.forall_mem_cons.2 ⟨hregion hprimary, fun u hu => ?_⟩
  rcases List.mem_append.1 hu with hu | hu
  · obtain ⟨r, hr, rfl⟩ := List.mem_map.1 hu
    exact hregion (haux r hr)
  · obtain ⟨p, hp, rfl⟩ := List.mem_map.1 hu
    rw [h.partition_extent hp]
    refine ⟨Int.natCast_nonneg _, ?_, by rw [← h.diskSize]; exact h.partitions p hp⟩
    exact Int.ofNat_le.2 (Nat.mul_le_mul_right _ (Nat.le_succ_of_le (h.ordered p hp)))

end ParsedDisk

/-! ## Everything where it was -/

/-- Without a plan a partition stays where it was. -/
lemma placementFor_none {l : Layout} (hnodup : (l.partitions.map Partition.index).Nodup)
    {p : Partition} (hp : p ∈ l.partitions) :
    placementFor l none p.index =
      .ok ⟨p.offset l.sectorSize, p.length l.sectorSize, p.length l.sectorSize, false, false⟩ := by
  have hmem : p ∈ l.partitions.filter fun q => q.index = p.index :=
    List.mem_filter.2 ⟨hp, by simp⟩
  obtain ⟨q, hq⟩ : ∃ q, (l.partitions.filter fun q => q.index = p.index).getLast? = some q :=
    ⟨_, List.getLast?_eq_some_getLast (List.ne_nil_of_mem hmem)⟩
  obtain ⟨hqmem, hqi⟩ := List.mem_filter.1 (List.mem_of_getLast? hq)
  obtain rfl : q = p := List.inj_on_of_nodup_map hnodup hqmem hp (of_decide_eq_true hqi)
  rw [placementFor, hq]

/-- A clone without a plan to a target of the same size. -/
structure SameSize (opts : CloneDiskOptions) (l : Layout) : Prop where
  disk : ParsedDisk opts.source opts.sourceSize l
  fit : opts.fit = none
  target : opts.targetSize = opts.sourceSize

namespace SameSize

variable {opts : CloneDiskOptions} {l : Layout}

lemma sameSize (h : SameSize opts l) : sameSize opts l = true := by
  rw [Bmr.sameSize, h.fit, h.target, h.disk.diskSize]
  simp

lemma placed (h : SameSize opts l) {p : Partition} (hp : p ∈ l.partitions) {pl : Placement} :
    placementFor l opts.fit p.index = .ok pl ↔
      pl = ⟨p.offset l.sectorSize, p.length l.sectorSize, p.length l.sectorSize, false, false⟩ := by
  rw [h.fit, placementFor_none (parse_index_nodup h.disk.parsed) hp, Except.ok.injEq, eq_comm]

lemma backupSpan (h : SameSize opts l) :
    backupSpan opts l =
      if 0 < l.backupRegion.length then [⟨l.backupRegion.offset, opts.sourceSize⟩] else [] := by
  rw [Bmr.backupSpan, h.sameSize, h.target]
  rfl

/-- A range on the disk ends where the code computes it to end. -/
lemma int64_stop (h : SameSize opts l) {r : Interval} (hr : r ∈ heldRanges l) :
    int64 r.stop = r.stop := by
  obtain ⟨h1, h2, h3⟩ := h.disk.held r hr
  have := h.disk.bound
  exact int64_eq (by omega)

/-- What is used is what is held, and the backup structures. -/
lemma mem_used (h : SameSize opts l) {used : List Interval} (hused : usedSpans opts l = .ok used)
    (u : Interval) : u ∈ used ↔ u ∈ heldRanges l ∨ u ∈ Bmr.backupSpan opts l := by
  have hspan : ∀ r, Range.extent r ∈ heldRanges l → Range.span r = Range.extent r := by
    intro r hr
    have hstop : int64 (r.offset + r.length) = r.offset + r.length := h.int64_stop hr
    rw [Range.span, hstop, Range.extent]
  have hprimary := hspan l.primaryRegion (.head _)
  have haux : ∀ r ∈ l.auxRegions, Range.span r = Range.extent r := fun r hr =>
    hspan r (.tail _ (List.mem_append_left _ (List.mem_map_of_mem hr)))
  have hparts : (∃ p ∈ l.partitions, ∃ pl, placementFor l opts.fit p.index = .ok pl ∧
      u = ⟨pl.base, int64 (pl.base + pl.length)⟩) ↔
        ∃ p ∈ l.partitions, Partition.extent p l.sectorSize = u := by
    refine exists_congr fun p => and_congr_right fun hp => ?_
    have hstop : int64 (p.offset l.sectorSize + p.length l.sectorSize) =
        p.offset l.sectorSize + p.length l.sectorSize :=
      h.int64_stop (r := Partition.extent p l.sectorSize)
        (.tail _ (List.mem_append_right _ (List.mem_map_of_mem hp)))
    simp only [h.placed hp, exists_eq_left, hstop, eq_comm (b := u)]
    rfl
  rw [mem_usedSpans hused, hprimary, hparts, heldRanges, List.mem_cons, List.mem_append,
    List.mem_map, List.mem_map, or_assoc, or_assoc]
  refine or_congr_right (or_congr_left (exists_congr fun r => and_congr_right fun hr => ?_))
  rw [haux r hr, eq_comm]

end SameSize

/-! ## What is written where -/

lemma getD_drop (xs : Bytes) (n i : ℕ) : (xs.drop n).getD i 0 = xs.getD (n + i) 0 := by
  rw [List.getD_eq_getElem?_getD, List.getD_eq_getElem?_getD, List.getElem?_drop]

/-- Bytes of the source that are written in pieces where they were. -/
lemma getD_mem_chop {source : Bytes} {base : ℤ} {n : ℕ} {w : ℕ × Bytes} {x : ℕ}
    (hw : w ∈ chop bufferSize base.toNat ((source.drop base.toNat).take n)) (hx : Covers w x) :
    w.2.getD (x - w.1) 0 = source.getD x 0 := by
  have hcov := (exists_mem_chop_iff bufferSize_pos).1 ⟨w, hw, hx⟩
  rw [List.length_take] at hcov
  rw [getD_of_mem_chop hw hx, List.getD_eq_getElem?_getD, List.getElem?_take_of_lt (by omega),
    ← List.getD_eq_getElem?_getD, getD_drop, Nat.add_sub_cancel' hcov.1]

/-- A region that is written where it was. -/
lemma getD_regionBytes {source : Bytes} {r : Range} {x : ℕ}
    (hx : Covers (r.offset.toNat, regionBytes source r) x) :
    (regionBytes source r).getD (x - r.offset.toNat) 0 = source.getD x 0 := by
  have h1 : r.offset.toNat ≤ x := hx.1
  have h2 : x < r.offset.toNat + (regionBytes source r).length := hx.2
  rw [regionBytes, length_resize] at h2
  rw [regionBytes, getD_resize _ _ (by omega), getD_drop, Nat.add_sub_cancel' h1]

/-- To a disk of the same size the structures are written as they are. -/
lemma relocateGPT_same {l : Layout} {primary backup : Bytes} {b : BootStructures}
    (h : relocateGPT l primary backup l.diskSize = .ok b) :
    b.primary = primary ∧
      (b.backup = [] ∨ b.backup = backup ∧ b.backupOffset = l.backupRegion.offset) := by
  unfold relocateGPT at h
  by_cases hmbr : l.scheme = .mbr
  · rw [if_pos hmbr] at h
    obtain rfl := Except.ok.inj h
    exact ⟨rfl, .inl rfl⟩
  · rw [if_neg hmbr] at h
    simp only [ite_error_eq_ok, if_true] at h
    obtain ⟨-, -, -, -, h⟩ := h
    obtain rfl := Except.ok.inj h
    exact ⟨rfl, .inr ⟨rfl, rfl⟩⟩

namespace SameSize

variable {opts : CloneDiskOptions} {l : Layout} {used : List Interval} {d : DiskCapture}
  {b : BootStructures} {w : ℕ × Bytes} {x : ℕ}

lemma partition_value (h : SameSize opts l) (hdone : CloneDone opts l used d b) {p : Partition}
    (hp : p ∈ l.partitions) (hw : w ∈ partitionWrites opts l p) (hx : Covers w x) :
    w.2.getD (x - w.1) 0 = opts.source.getD x 0 ∧ (Partition.extent p l.sectorSize).Has x := by
  obtain ⟨pl, hwritten⟩ := hdone.written p hp
  obtain rfl := (h.placed hp).1 hwritten.placed
  have hhits := (hits_partitionWrites hwritten).1 ⟨w, hw, hx⟩
  refine ⟨?_, by simpa [Placement.ranges, Partition.extent] using hhits⟩
  rw [partitionWrites, hwritten.placed] at hw
  simp only [placeWrites, tailWrites, Bool.false_eq_true, false_and, if_false,
    List.append_nil] at hw
  exact getD_mem_chop hw hx

lemma gap_value (h : SameSize opts l) (hdone : CloneDone opts l used d b) {gap : Interval}
    (hgap : gap ∈ gaps opts used) (hw : w ∈ gapWrites opts l gap) (hx : Covers w x) :
    w.2.getD (x - w.1) 0 = (if gap.stop ≤ opts.sourceSize then opts.source.getD x 0 else 0) ∧
      gap.Has x := by
  have hpos := (mem_gaps hgap).1
  refine ⟨?_, (hits_gapWrites hpos (hdone.gaps gap hgap)).1 ⟨w, hw, hx⟩⟩
  rw [gapWrites] at hw
  simp only [h.sameSize, true_and] at hw
  by_cases hstop : gap.stop ≤ opts.sourceSize
  · rw [if_pos hstop] at hw ⊢
    exact getD_mem_chop hw hx
  · rw [if_neg hstop] at hw ⊢
    rw [getD_of_mem_chop hw hx, List.getD_eq_getElem?_getD, List.getElem?_replicate]
    split <;> rfl

lemma boot_value (h : SameSize opts l) (hdone : CloneDone opts l used d b)
    (hw : w ∈ bootWrites d b) (hx : Covers w x) :
    w.2.getD (x - w.1) 0 = opts.source.getD x 0 := by
  have hd := capture_ok hdone.captured
  have hbuilt := hdone.boot.built
  rw [h.fit, h.target, ← h.disk.diskSize, ← hd.layout] at hbuilt
  obtain ⟨hprimary, hbackup⟩ := relocateGPT_same hbuilt
  rw [bootWrites, hprimary, hd.layout, hd.primary, List.mem_cons, List.mem_append] at hw
  rcases hw with rfl | hw | hw
  · exact getD_regionBytes hx
  · rcases hbackup with hnil | ⟨hback, hoff⟩
    · rw [if_pos hnil] at hw
      cases hw
    · split at hw
      · cases hw
      · rw [List.mem_singleton, hback, hoff, hd.layout, hd.backup] at hw
        subst hw
        exact getD_regionBytes hx
  · obtain ⟨⟨r, i⟩, hri, hw⟩ := List.mem_flatMap.1 hw
    have hr : l.auxRegions[i]? = some r := List.mk_mem_zipIdx_iff_getElem?.1 hri
    rw [auxWrite, hd.aux, List.getElem?_map, hr] at hw
    obtain rfl := List.mem_singleton.1 hw
    exact getD_regionBytes hx

/-- Where the backup structures go. -/
lemma backupExtent_has_iff (h : SameSize opts l) :
    (backupExtent opts l).Has x ↔ (Range.extent l.backupRegion).Has x := by
  have hplace : backupPlace opts l = (l.backupRegion.offset, l.backupRegion.length) := by
    unfold backupPlace
    simp only [h.fit, h.target, h.disk.diskSize, if_true]
    obtain ⟨-, rfl⟩ | ⟨-, -, rfl⟩ | ⟨-, -, hm⟩ := parse_ok h.disk.parsed
    · rfl
    · rfl
    · rw [hm.layout]
      rfl
  rw [backupExtent, hplace, Range.extent]

lemma exists_held_iff :
    (∃ r ∈ heldRanges l, r.Has x) ↔ (Range.extent l.primaryRegion).Has x ∨
      (∃ r ∈ l.auxRegions, (Range.extent r).Has x) ∨
        ∃ p ∈ l.partitions, (Partition.extent p l.sectorSize).Has x := by
  simp only [heldRanges, List.exists_mem_cons_iff, List.mem_append, or_and_right, exists_or,
    List.mem_map, exists_exists_and_eq_and]

/-- Positions that get boot structures or bytes of a partition. -/
lemma filled_iff (h : SameSize opts l) :
    Filled opts l x ↔ (∃ r ∈ heldRanges l, r.Has x) ∨ (Range.extent l.backupRegion).Has x := by
  have hparts : (∃ p ∈ l.partitions, ∃ pl, placementFor l opts.fit p.index = .ok pl ∧
      ∃ r ∈ pl.ranges, r.Has x) ↔ ∃ p ∈ l.partitions, (Partition.extent p l.sectorSize).Has x := by
    refine exists_congr fun p => and_congr_right fun hp => ?_
    simp only [h.placed hp, exists_eq_left]
    simp [Placement.ranges, Partition.extent]
  rw [Filled, hparts, h.backupExtent_has_iff, exists_held_iff]
  constructor
  · rintro ((hp | hb | ha) | hq)
    · exact .inl (.inl hp)
    · exact .inr hb
    · exact .inl (.inr (.inl ha))
    · exact .inl (.inr (.inr hq))
  · rintro ((hp | ha | hq) | hb)
    · exact .inl (.inl hp)
    · exact .inl (.inr (.inr ha))
    · exact .inr hq
    · exact .inl (.inr (.inl hb))

/-- Only what lies behind the backup structures can be kept free and not filled. -/
lemma fills_iff (h : SameSize opts l) (hx : x < opts.sourceSize) :
    (Reserved opts l x → Filled opts l x) ↔
      (0 < l.backupRegion.length → l.backupRegion.offset + l.backupRegion.length ≤ x →
        ∃ r ∈ heldRanges l, r.Has x) := by
  have hspan : (∃ u ∈ Bmr.backupSpan opts l, u.Has x) ↔
      0 < l.backupRegion.length ∧ l.backupRegion.offset ≤ x := by
    rw [h.backupSpan]
    split
    · rename_i hpos
      simp [Interval.Has, hpos, hx]
    · rename_i hneg
      simp [hneg]
  have hback : (Range.extent l.backupRegion).Has x ↔ l.backupRegion.offset ≤ x ∧
      (x : ℤ) < l.backupRegion.offset + l.backupRegion.length := Iff.rfl
  rw [h.filled_iff, hback]
  constructor
  · intro himp hpos hbehind
    refine (himp (.inr (hspan.2 ⟨hpos, by omega⟩))).resolve_right fun hin => ?_
    omega
  · rintro himp (⟨p, hp, pl, hpl, hpx⟩ | hu)
    · obtain rfl := (h.placed hp).1 hpl
      refine .inl (exists_held_iff.2 (.inr (.inr ⟨p, hp, hpx.1, ?_⟩)))
      have hstop := h.int64_stop (r := Partition.extent p l.sectorSize)
        (.tail _ (List.mem_append_right _ (List.mem_map_of_mem hp)))
      rw [← hstop]
      exact hpx.2
    · obtain ⟨hpos, hoff⟩ := hspan.1 hu
      by_cases hbehind : l.backupRegion.offset + l.backupRegion.length ≤ x
      · exact .inl (himp hpos hbehind)
      · exact .inr ⟨hoff, by omega⟩

/-- A gap reaches behind the end of the disk only if the backup structures lie there. -/
lemma behind_of_gap (h : SameSize opts l) (hused : usedSpans opts l = .ok used) {gap : Interval}
    (hgap : gap ∈ gaps opts used) (hstop : opts.sourceSize < gap.stop) (hgx : gap.Has x) :
    0 < l.backupRegion.length ∧ opts.sourceSize < l.backupRegion.offset ∧
      ∀ r ∈ heldRanges l, r.stop ≤ x := by
  have hmem := h.mem_used hused
  rcases List.mem_append.1 hgap with hgap | hgap
  · obtain ⟨before, u, after, rfl, hlt, rfl⟩ := split_of_mem_innerHoles hgap
    have hu : u ∈ Bmr.backupSpan opts l := by
      refine ((hmem u).1 (List.mem_append_right _ (.head _))).resolve_left fun hheld => ?_
      obtain ⟨-, h2, h3⟩ := h.disk.held u hheld
      simp only at hstop
      omega
    rw [h.backupSpan] at hu
    split_ifs at hu with hpos
    · obtain rfl := List.mem_singleton.1 hu
      refine ⟨hpos, hstop, fun r hr => ?_⟩
      -- everything that is held starts on the disk, so it comes before the backup structures
      obtain ⟨-, h2, h3⟩ := h.disk.held r hr
      refine le_trans ((le_reach before 0).2 r ?_) hgx.1
      refine (List.mem_append.1 ((hmem r).2 (.inl hr))).resolve_right fun hafter => ?_
      have hle : l.backupRegion.offset ≤ r.start := by
        rcases List.mem_cons.1 hafter with rfl | hafter
        · exact le_refl _
        · exact (List.pairwise_cons.1
            (List.pairwise_append.1 (usedSpans_sorted hused)).2.1).1 r hafter
      simp only at hstop
      omega
    · cases hu
  · unfold lastHole at hgap
    split at hgap
    · obtain rfl := List.mem_singleton.1 hgap
      rw [h.target] at hstop
      exact absurd hstop (lt_irrefl _)
    · cases hgap

/-- In front of backup structures off the disk, only the last gap is behind all that is held. -/
lemma not_behind_of_gap (h : SameSize opts l) (hused : usedSpans opts l = .ok used) {gap : Interval}
    (hgap : gap ∈ gaps opts used) (hstop : gap.stop ≤ opts.sourceSize) (hgx : gap.Has x)
    (hx : x < opts.sourceSize) :
    ¬ (0 < l.backupRegion.length ∧ opts.sourceSize < l.backupRegion.offset ∧
      ∀ r ∈ heldRanges l, r.stop ≤ x) := by
  rintro ⟨hpos, hoff, hends⟩
  have hmem := h.mem_used hused
  rw [h.backupSpan, if_pos hpos] at hmem
  rcases List.mem_append.1 hgap with hgap | hgap
  · obtain ⟨-, u, hu, hgu⟩ := mem_innerHoles hgap
    have hlt := hgx.2
    rcases (hmem u).1 hu with hheld | hback
    · have := hends u hheld
      obtain ⟨-, h2, -⟩ := h.disk.held u hheld
      omega
    · obtain rfl := List.mem_singleton.1 hback
      simp only at hgu
      omega
  · unfold lastHole at hgap
    split at hgap
    · obtain rfl := List.mem_singleton.1 hgap
      have hreach := (le_reach used 0).2 _ ((hmem _).2 (.inr (List.mem_singleton_self _)))
      have hle : reach used 0 ≤ x := hgx.1
      simp only at hreach
      omega
    · cases hgap

/-- What a write puts on a position: the byte of the source, or a zero of a gap off the disk. -/
lemma value (h : SameSize opts l) (hdone : CloneDone opts l used d b)
    (hw : w ∈ cloneWrites opts l used d b) (hwx : Covers w x) (hx : x < opts.sourceSize) :
    w.2.getD (x - w.1) 0 = if 0 < l.backupRegion.length ∧
      opts.sourceSize < l.backupRegion.offset ∧ ∀ r ∈ heldRanges l, r.stop ≤ x then 0
      else opts.source.getD x 0 := by
  rw [cloneWrites, List.mem_append, List.mem_append, List.mem_flatMap, List.mem_flatMap] at hw
  rcases hw with ⟨p, hp, hw⟩ | ⟨gap, hgap, hw⟩ | hw
  · obtain ⟨hval, hin⟩ := h.partition_value hdone hp hw hwx
    rw [if_neg fun hz => ?_]
    · exact hval
    · have := hz.2.2 _ (.tail _ (List.mem_append_right _ (List.mem_map_of_mem hp)))
      exact absurd hin.2 (not_lt.2 this)
  · obtain ⟨hval, hin⟩ := h.gap_value hdone hgap hw hwx
    rw [hval]
    by_cases hstop : gap.stop ≤ opts.sourceSize
    · rw [if_pos hstop, if_neg (h.not_behind_of_gap hdone.spans hgap hstop hin hx)]
    · rw [if_neg hstop,
        if_pos (h.behind_of_gap hdone.spans hgap (not_le.1 hstop) hin)]
  · rw [if_neg fun hz => ?_]
    · exact h.boot_value hdone hw hwx
    · have hl := parsedRegions_of_parse h.disk.bound h.disk.parsed
      have hhits := (hits_bootWrites hl (capture_ok hdone.captured) hdone.boot).1 ⟨w, hw, hwx⟩
      rw [h.backupExtent_has_iff] at hhits
      obtain ⟨-, hoff, hends⟩ := hz
      rcases hhits with hp | hb | ⟨r, hr, ha⟩
      · exact absurd hp.2 (not_lt.2 (hends _ (.head _)))
      · have : l.backupRegion.offset ≤ x := hb.1
        omega
      · exact absurd ha.2 (not_lt.2 (hends _
          (.tail _ (List.mem_append_left _ (List.mem_map_of_mem hr)))))

end SameSize

/-! ## The whole disk -/

/-- Nothing of the source is left out: what lies behind the backup structures is held by a partition
or the table in front, and if those lie off the disk, there are only zeros behind all that is held.
-/
def CarriesTail (source : Bytes) (l : Layout) : Prop :=
  0 < l.backupRegion.length →
    (∀ x : ℕ, x < l.diskSize → l.backupRegion.offset + l.backupRegion.length ≤ x →
      ∃ r ∈ heldRanges l, r.Has x) ∧
    (l.diskSize < l.backupRegion.offset → ∀ x : ℕ, x < l.diskSize →
      (∀ r ∈ heldRanges l, r.stop ≤ x) → source.getD x 0 = 0)

/-- A clone without a plan to a target of the size of the source leaves the source on it, whatever
it held, exactly if nothing of the source lies behind the backup structures.

**Proof sketch.** Every write puts the bytes of the source where they were, except for the zeros of
a gap that reaches off the disk. -/
theorem cloneDisk_whole_iff {opts : CloneDiskOptions} {l : Layout} {res : CloneResult} {ws : Writes}
    (hdisk : (opts.source.length : ℤ) = opts.sourceSize) (hsize : opts.sourceSize < 2 ^ 63)
    (hparse : parse opts.source opts.sourceSize = .ok l)
    (hpartitions : ∀ p ∈ l.partitions, (((p.lastLBA + 1) * l.sectorSize : ℕ) : ℤ) ≤ l.diskSize)
    (hfit : opts.fit = none) (htarget : opts.targetSize = l.diskSize)
    (h : cloneDisk opts [] = (.ok res, ws)) :
    (∀ old : Bytes, (old.length : ℤ) = l.diskSize → ∀ x : ℕ, x < l.diskSize →
      (patch 0 old ws).getD x 0 = opts.source.getD x 0) ↔ CarriesTail opts.source l := by
  have hd : ParsedDisk opts.source opts.sourceSize l := ⟨hdisk, hsize, hparse, hpartitions⟩
  have hs : SameSize opts l := ⟨hd, hfit, htarget.trans hd.diskSize⟩
  obtain ⟨l', used, d, b, hdone, rfl⟩ := cloneDisk_ok hsize (hs.target ▸ hsize) h
  obtain rfl : l = l' := Except.ok.inj (hparse.symm.trans hdone.parsed)
  have hhits : ∀ {x : ℕ}, x < opts.sourceSize → (Hits (cloneWrites opts l used d b) x ↔
      (0 < l.backupRegion.length → l.backupRegion.offset + l.backupRegion.length ≤ x →
        ∃ r ∈ heldRanges l, r.Has x)) := by
    intro x hx
    rw [hits_cloneWrites_iff hsize hdone (hs.target.symm ▸ hx), hs.fills_iff hx]
  rw [CarriesTail, hd.diskSize]
  constructor
  · intro hall hpos
    have hcovered : ∀ x : ℕ, x < opts.sourceSize → Hits (cloneWrites opts l used d b) x := by
      intro x hx
      refine (forall_getD_patch_iff (show (1 : UInt8) ≠ 0 by decide)
        (show x < opts.sourceSize.toNat by omega)).1 fun old1 old2 h1 h2 => ?_
      rw [hall old1 (by omega) x hx, hall old2 (by omega) x hx]
    refine ⟨fun x hx => (hhits hx).1 (hcovered x hx) hpos, fun hoff x hx hends => ?_⟩
    have hbyte := hall opts.source hdisk x hx
    obtain ⟨w, hw, hwx, hval⟩ | ⟨hnone, -⟩ :=
      getD_patch_cases 0 opts.source (cloneWrites opts l used d b) x
    · rw [← hbyte, hval, hs.value hdone hw hwx hx, if_pos ⟨hpos, hoff, hends⟩]
    · obtain ⟨w, hw, hwx⟩ := hcovered x hx
      exact absurd hwx (hnone w hw)
  · intro htail old _ x hx
    obtain ⟨w, hw, hwx, hval⟩ | ⟨hnone, -⟩ := getD_patch_cases 0 old (cloneWrites opts l used d b) x
    · rw [hval, hs.value hdone hw hwx hx]
      split_ifs with hz
      · exact ((htail hz.1).2 hz.2.1 x hx hz.2.2).symm
      · rfl
    · obtain ⟨w, hw, hwx⟩ := (hhits hx).2 fun hpos => (htail hpos).1 x hx
      exact absurd hwx (hnone w hw)

/-- A disk with a gap and with backup structures at its end. -/
theorem cloneDisk_whole_iff_small :
    ∃ res ws, cloneDisk (plainClone (smallDisk 7 8) 4096) [] = (.ok res, ws) ∧
      ∀ old : Bytes, (old.length : ℤ) = 4096 → ∀ x : ℕ, (x : ℤ) < 4096 →
        (patch 0 old ws).getD x 0 = (smallDisk 7 8).getD x 0 := by
  have hparse : parse (smallDisk 7 8) 4096 = .ok (gptLayout (smallDisk 7 8) 4096 512) := by
    decide +kernel
  have hrun : passes (fun _ => true) (cloneDisk (plainClone (smallDisk 7 8) 4096) []) := by
    decide +kernel
  have hlength : ((smallDisk 7 8).length : ℤ) = 4096 := by decide +kernel
  have hregions : (gptLayout (smallDisk 7 8) 4096 512).backupRegion = ⟨3072, 1024⟩ := by
    decide +kernel
  obtain ⟨res, ws, h, -⟩ := exists_of_passes hrun
  refine ⟨res, ws, h, (@cloneDisk_whole_iff (plainClone (smallDisk 7 8) 4096)
    (gptLayout (smallDisk 7 8) 4096 512) _ _ rfl ?_ ?_ (by decide +kernel) rfl rfl h).2 fun _ => ?_⟩
  · change ((smallDisk 7 8).length : ℤ) < 2 ^ 63
    rw [hlength]
    norm_num
  · change parse (smallDisk 7 8) ((smallDisk 7 8).length : ℤ) = _
    rw [hlength, hparse]
  · -- the backup structures end with the disk
    rw [hregions]
    exact ⟨fun x hx hbehind => absurd hx (not_lt.2 hbehind), fun hoff => absurd hoff (by decide)⟩

/-- The backup header of a disk of eight sectors is on sector 5: the last sector is not copied. -/
theorem cloneDisk_leaves_tail :
    ∃ l res ws, parse (smallDisk 5 8) 4096 = .ok l ∧ l.diskSize = 4096 ∧
      (∀ p ∈ l.partitions, (((p.lastLBA + 1) * l.sectorSize : ℕ) : ℤ) ≤ l.diskSize) ∧
      cloneDisk (plainClone (smallDisk 5 8) 4096) [] = (.ok res, ws) ∧
      (patch 0 (List.replicate 4096 1) ws).getD 4095 0 ≠ (smallDisk 5 8).getD 4095 0 := by
  have hparse : parse (smallDisk 5 8) 4096 = .ok (gptLayout (smallDisk 5 8) 4096 512) := by
    decide +kernel
  obtain ⟨res, ws, h, hnot⟩ := smallDisk_not_hits
  refine ⟨_, res, ws, hparse, rfl, by decide +kernel, h, ?_⟩
  have hbyte : (smallDisk 5 8).getD 4095 0 = 0 := by decide +kernel
  rw [getD_patch_of_not_hits hnot, hbyte, List.getD_eq_getElem?_getD, List.getElem?_replicate]
  decide

end DiskNexus.Bmr
