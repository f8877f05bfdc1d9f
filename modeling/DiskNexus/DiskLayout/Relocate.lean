import DiskNexus.DiskLayout.Mbr
import DiskNexus.Restore.Files

/-!
# Boot structures for another disk

The captured boot structures of a disk are rewritten for a larger target with the partitions where
they were, or for a plan. A slice of captured bytes that reaches behind their end panics.
-/

namespace DiskNexus.DiskLayout

open Binary Crc32 Overwrite
open Restore (Failure)

/-- The `uint64` value of an integer. -/
def uint64 (n : ℤ) : ℕ := (n % 2 ^ 64).toNat

/-- `recomputeHeaderCRC` on the header of `size` bytes at `off`. -/
def recomputeHeaderCRC (bs : Bytes) (off size : ℕ) : Bytes :=
  let crc := checksumIEEE (zeroCRC ((bs.drop off).take size))
  overwrite 0 bs (off + 16) (le 4 crc.toNat)

/-- The geometry that a captured primary region states in its header. -/
structure Geometry where
  headerSize : ℕ
  entryLBA : ℕ
  entryCount : ℕ
  entrySize : ℕ

/-- The geometry of a captured primary region. -/
def geometryOf (primary : Bytes) (sectorSize : ℕ) : Geometry :=
  let hdr := primary.drop sectorSize
  ⟨fieldAt hdr 12 4, fieldAt hdr 72 8, fieldAt hdr 80 4, fieldAt hdr 84 4⟩

/-- The size of the entry array. -/
def Geometry.entryBytes (g : Geometry) : ℤ := int64 (g.entryCount * g.entrySize)

/-- The number of sectors of the entry array. -/
def Geometry.entrySectors (g : Geometry) (sectorSize : ℕ) : ℤ :=
  (g.entryBytes + sectorSize - 1).tdiv sectorSize

/-- The last sector of a disk of `size` bytes. -/
def lastLBA (size : ℤ) (sectorSize : ℕ) : ℤ := size.tdiv sectorSize - 1

/-- The sector of the backup entries on a disk of `size` bytes. -/
def Geometry.backupEntryLBA (g : Geometry) (size : ℤ) (sectorSize : ℕ) : ℤ :=
  lastLBA size sectorSize - g.entrySectors sectorSize

/-- The backup structures: the entries and the primary header with its roles swapped. -/
def backupStructures (g : Geometry) (sectorSize : ℕ) (size : ℤ) (entries hdr : Bytes) : Bytes :=
  let off := entries.length
  let backup := entries ++ (hdr.take g.headerSize ++ List.replicate (sectorSize - g.headerSize) 0)
  let backup := overwrite 0 backup (off + 24) (le 8 (uint64 (lastLBA size sectorSize)))
  let backup := overwrite 0 backup (off + 32) (le 8 1)
  let backup := overwrite 0 backup (off + 72) (le 8 (uint64 (g.backupEntryLBA size sectorSize)))
  recomputeHeaderCRC backup off g.headerSize

/-- The header slices of the rewriting functions lie within what they slice. -/
def Geometry.Slices (g : Geometry) (sectorSize : ℕ) (primary : Bytes) : Prop :=
  20 ≤ g.headerSize ∧ sectorSize + g.headerSize ≤ primary.length ∧ g.headerSize ≤ sectorSize ∧
    80 ≤ sectorSize

instance (g : Geometry) (sectorSize : ℕ) (primary : Bytes) :
    Decidable (g.Slices sectorSize primary) :=
  inferInstanceAs (Decidable (_ ∧ _ ∧ _ ∧ _))

/-- The boot structures: the primary region, and the backup with its offset. -/
structure BootStructures where
  primary : Bytes
  backupOffset : ℤ
  backup : Bytes
  deriving DecidableEq

/-- `RelocateGPT`. -/
def relocateGPT (l : Layout) (capturedPrimary capturedBackup : Bytes) (newDiskSize : ℤ) :
    Except Failure BootStructures :=
  let sectorSize := l.sectorSize
  let diskSize := l.diskSize
  if l.scheme = .mbr then .ok ⟨capturedPrimary, 0, []⟩
  else if sectorSize = 0 then .error .panicked
  else if newDiskSize % sectorSize ≠ 0 then
    .error (.error (s!"target size {newDiskSize} is not a multiple of the captured sector size " ++
      s!"{sectorSize}"))
  else if newDiskSize < diskSize then
    .error (.error (s!"target ({newDiskSize} bytes) is smaller than the captured disk " ++
      s!"({diskSize} bytes); shrinking restores are not supported"))
  else if (capturedPrimary.length : ℤ) ≠ l.primaryRegion.length ∨
      (capturedBackup.length : ℤ) ≠ l.backupRegion.length then
    .error (.error "captured region sizes do not match the layout")
  else if newDiskSize = diskSize then
    .ok ⟨capturedPrimary, l.backupRegion.offset, capturedBackup⟩
  else if capturedPrimary.length < sectorSize + gptHeaderSize then
    .error (.error "primary region too short for a GPT header")
  else
    let g := geometryOf capturedPrimary sectorSize
    if ¬ g.Slices sectorSize capturedPrimary ∨ g.entryBytes < 0 ∨
        (capturedBackup.length : ℤ) < g.entryBytes then .error .panicked
    else
      let primary := overwrite 0 capturedPrimary (sectorSize + 32)
        (le 8 (uint64 (lastLBA newDiskSize sectorSize)))
      let primary := recomputeHeaderCRC primary sectorSize g.headerSize
      let entries := capturedBackup.take g.entryBytes.toNat
      .ok ⟨primary, int64 (g.backupEntryLBA newDiskSize sectorSize * sectorSize),
        backupStructures g sectorSize newDiskSize entries (primary.drop sectorSize)⟩

/-! ## Plans -/

/-- `PlannedPartition`. -/
structure PlannedPartition where
  index : ℕ
  oldFirst : ℕ
  oldLast : ℕ
  newFirst : ℕ
  newLast : ℕ
  shrink : Bool
  grow : Bool
  moved : Bool
  minBytes : ℤ
  deriving DecidableEq

/-- `PlannedPartition.NewBytes`. -/
def PlannedPartition.newBytes (p : PlannedPartition) (sectorSize : ℕ) : ℤ :=
  int64 (int64 ((p.newLast : ℤ) - p.newFirst + 1) * sectorSize)

/-- `FitPlan`. -/
structure FitPlan where
  scheme : Scheme
  sectorSize : ℕ
  targetSize : ℤ
  newLastUsableLBA : ℕ
  partitions : List PlannedPartition
  warnings : List String
  refusals : List String
  deriving DecidableEq

/-- `FitPlan.Applicable`. -/
def FitPlan.Applicable (p : FitPlan) : Prop := p.refusals = []

instance (p : FitPlan) : Decidable p.Applicable := inferInstanceAs (Decidable (_ = _))

/-- `FitPlan.Partition`. -/
def FitPlan.partition (p : FitPlan) (index : ℕ) : Option PlannedPartition :=
  p.partitions.find? fun pp => pp.index = index

/-- The slots of the entry array with the extents of a plan. -/
def placeEntries (g : Geometry) (entryOff : ℕ) :
    List PlannedPartition → Bytes → Except Failure Bytes
  | [], primary => .ok primary
  | pp :: pps, primary =>
    let index := pp.index
    let count := g.entryCount
    let e := entryOff + index * g.entrySize
    if count ≤ index then
      .error (.error s!"plan names slot {index} beyond the {count}-entry array")
    else if primary.length < e + 48 then .error .panicked
    else
      let primary := overwrite 0 primary (e + 32) (le 8 pp.newFirst)
      placeEntries g entryOff pps (overwrite 0 primary (e + 40) (le 8 pp.newLast))

/-- The primary header of a target: the backup, the last usable sector, the checksum of the entries.
-/
def placeHeader (g : Geometry) (sectorSize : ℕ) (plan : FitPlan) (entriesCRC : ℕ)
    (primary : Bytes) : Bytes :=
  let primary := overwrite 0 primary (sectorSize + 32)
    (le 8 (uint64 (lastLBA plan.targetSize sectorSize)))
  let primary := overwrite 0 primary (sectorSize + 48) (le 8 plan.newLastUsableLBA)
  let primary := overwrite 0 primary (sectorSize + 88) (le 4 entriesCRC)
  recomputeHeaderCRC primary sectorSize g.headerSize

/-- The slots of the boot sector that `parseMBR` numbers, in order. -/
def mbrSlotNumbers (primary : Bytes) : List ℕ :=
  (List.range 4).filter fun i =>
    (mbrEntry primary i).Used ∧ ¬ isExtended (mbrEntry primary i).typ

/-- The slots of the boot sector with the extents of a plan. -/
def placeSlots (slots : List ℕ) : List PlannedPartition → Bytes → Except Failure Bytes
  | [], primary => .ok primary
  | pp :: pps, primary =>
    let index := pp.index
    match slots[pp.index]? with
    | none =>
      if pp.moved ∨ pp.shrink ∨ pp.grow then
        .error (.error s!"plan changes MBR partition {index}, which is not a primary")
      else placeSlots slots pps primary
    | some slot =>
      let size := uint64 ((pp.newLast : ℤ) - pp.newFirst + 1)
      if 0xFFFFFFFF < pp.newFirst ∨ 0xFFFFFFFF < size then
        .error (.error s!"MBR partition {index} would not fit a 32-bit LBA")
      else
        let primary := overwrite 0 primary (mbrEntryBase + slot * 16 + 8) (le 4 pp.newFirst)
        placeSlots slots pps (overwrite 0 primary (mbrEntryBase + slot * 16 + 12) (le 4 size))

/-- `applyFitMBR`. -/
def applyFitMBR (plan : FitPlan) (capturedPrimary : Bytes) : Except Failure BootStructures :=
  if capturedPrimary.length < 512 then
    .error (.error "captured MBR region is shorter than a sector")
  else
    match placeSlots (mbrSlotNumbers capturedPrimary) plan.partitions capturedPrimary with
    | .error e => .error e
    | .ok primary => .ok ⟨primary, 0, []⟩

/-- `ApplyFit`. -/
def applyFit (l : Layout) (plan : FitPlan) (capturedPrimary capturedBackup : Bytes) :
    Except Failure BootStructures :=
  let sectorSize := l.sectorSize
  let refusals := String.intercalate "; " plan.refusals
  if ¬ plan.Applicable then .error (.error s!"fit plan has refusals: {refusals}")
  else if plan.scheme = .mbr then applyFitMBR plan capturedPrimary
  else if (capturedPrimary.length : ℤ) ≠ l.primaryRegion.length ∨
      (capturedBackup.length : ℤ) ≠ l.backupRegion.length then
    .error (.error "captured region sizes do not match the layout")
  else if capturedPrimary.length < sectorSize + gptHeaderSize then
    .error (.error "primary region too short for a GPT header")
  else
    let g := geometryOf capturedPrimary sectorSize
    let entryOff := int64 (int64 g.entryLBA * sectorSize)
    if (capturedPrimary.length : ℤ) < int64 (entryOff + g.entryBytes) then
      .error (.error "primary region does not contain the entry array")
    else if entryOff < 0 ∨ g.entryBytes < 0 ∨
        (capturedPrimary.length : ℤ) < entryOff + g.entryBytes then .error .panicked
    else
      match placeEntries g entryOff.toNat plan.partitions capturedPrimary with
      | .error e => .error e
      | .ok primary =>
        let entriesCRC := checksumIEEE ((primary.drop entryOff.toNat).take g.entryBytes.toNat)
        if sectorSize = 0 ∨ ¬ g.Slices sectorSize primary then .error .panicked
        else
          let primary := placeHeader g sectorSize plan entriesCRC.toNat primary
          let entries := (primary.drop entryOff.toNat).take g.entryBytes.toNat
          .ok ⟨primary, int64 (g.backupEntryLBA plan.targetSize sectorSize * sectorSize),
            backupStructures g sectorSize plan.targetSize entries (primary.drop sectorSize)⟩

/-! ## The sizes of the structures -/

/-- A number written into a list keeps its length. -/
lemma length_overwrite_field {bs : Bytes} {n off w v : ℕ} (hbs : bs.length = n) (h : off + w ≤ n) :
    (overwrite 0 bs off (le w v)).length = n := by
  rw [length_overwrite_of_le _ (by rw [length_le]; omega), hbs]

lemma length_recomputeHeaderCRC {bs : Bytes} {n off size : ℕ} (hbs : bs.length = n)
    (h : off + 20 ≤ n) : (recomputeHeaderCRC bs off size).length = n := by
  exact length_overwrite_field hbs (by omega)

/-- The backup structures are the entries and one sector. -/
lemma length_backupStructures {g : Geometry} {sectorSize : ℕ} {size : ℤ} {entries hdr : Bytes}
    (hhdr : g.headerSize ≤ hdr.length) (hsector : g.headerSize ≤ sectorSize ∧ 80 ≤ sectorSize) :
    (backupStructures g sectorSize size entries hdr).length = entries.length + sectorSize := by
  have h0 : (entries ++ (hdr.take g.headerSize ++
      List.replicate (sectorSize - g.headerSize) 0)).length = entries.length + sectorSize := by
    simp only [List.length_append, List.length_take, List.length_replicate]
    omega
  refine length_recomputeHeaderCRC ?_ (by omega)
  refine length_overwrite_field ?_ (by omega)
  refine length_overwrite_field ?_ (by omega)
  exact length_overwrite_field h0 (by omega)

lemma length_placeEntries {g : Geometry} {entryOff n : ℕ} {pps : List PlannedPartition}
    {bs bs' : Bytes} (hbs : bs.length = n) (h : placeEntries g entryOff pps bs = .ok bs') :
    bs'.length = n := by
  induction pps generalizing bs with
  | nil =>
    cases h
    exact hbs
  | cons pp pps ih =>
    rw [placeEntries] at h
    simp only [ite_error_eq_ok, not_lt] at h
    obtain ⟨-, hlen, h⟩ := h
    refine ih ?_ h
    refine length_overwrite_field ?_ (by omega)
    exact length_overwrite_field hbs (by omega)

lemma length_placeHeader {g : Geometry} {sectorSize n : ℕ} {plan : FitPlan} {crc : ℕ} {bs : Bytes}
    (hbs : bs.length = n) (h : sectorSize + gptHeaderSize ≤ n) :
    (placeHeader g sectorSize plan crc bs).length = n := by
  unfold gptHeaderSize at h
  refine length_recomputeHeaderCRC ?_ (by omega)
  refine length_overwrite_field ?_ (by omega)
  refine length_overwrite_field ?_ (by omega)
  exact length_overwrite_field hbs (by omega)

lemma mbrSlotNumbers_lt {bs : Bytes} {slot : ℕ} (h : slot ∈ mbrSlotNumbers bs) : slot < 4 :=
  List.mem_range.1 (List.mem_filter.1 h).1

lemma length_placeSlots {slots : List ℕ} (hslots : ∀ slot ∈ slots, slot < 4) {n : ℕ} (hn : 512 ≤ n)
    {pps : List PlannedPartition} {bs bs' : Bytes} (hbs : bs.length = n)
    (h : placeSlots slots pps bs = .ok bs') : bs'.length = n := by
  induction pps generalizing bs with
  | nil =>
    cases h
    exact hbs
  | cons pp pps ih =>
    rw [placeSlots] at h
    split at h
    · rw [ite_error_eq_ok] at h
      exact ih hbs h.2
    next slot hslot =>
      have := hslots slot (List.mem_of_getElem? hslot)
      have hbase : mbrEntryBase = 446 := rfl
      rw [ite_error_eq_ok] at h
      refine ih ?_ h.2
      refine length_overwrite_field ?_ (by omega)
      exact length_overwrite_field hbs (by omega)

/-- Where the backup structures go, and how long they are. -/
def movedBackup (g : Geometry) (sectorSize : ℕ) (size : ℤ) : ℤ × ℤ :=
  (int64 (g.backupEntryLBA size sectorSize * sectorSize), g.entryBytes + sectorSize)

/-- The sizes of boot structures for a target: the backup structures have the given place. -/
structure BootStructures.Shaped (b : BootStructures) (primary : ℕ) (backup : ℤ × ℤ) : Prop where
  primary : b.primary.length = primary
  backupOffset : b.backupOffset = backup.1
  backup : (b.backup.length : ℤ) = backup.2

lemma relocateGPT_shaped {l : Layout} {primary backup : Bytes} {size : ℤ} {b : BootStructures}
    (h : relocateGPT l primary backup size = .ok b) :
    b.Shaped primary.length
      (if l.scheme = .mbr then (0, 0)
      else if size = l.diskSize then (l.backupRegion.offset, l.backupRegion.length)
      else movedBackup (geometryOf primary l.sectorSize) l.sectorSize size) := by
  unfold relocateGPT at h
  by_cases hmbr : l.scheme = .mbr
  · rw [if_pos hmbr] at h ⊢
    cases h
    exact ⟨rfl, rfl, rfl⟩
  rw [if_neg hmbr] at h ⊢
  simp only [ite_error_eq_ok] at h
  obtain ⟨-, -, -, hcaptured, h⟩ := h
  by_cases hsame : size = l.diskSize
  · rw [if_pos hsame] at h ⊢
    cases h
    exact ⟨rfl, rfl, by simp only; omega⟩
  rw [if_neg hsame] at h ⊢
  simp only [ite_error_eq_ok, not_or, not_not] at h
  obtain ⟨hheader, ⟨hslices, hpos, htake⟩, h⟩ := h
  obtain rfl := Except.ok.inj h
  obtain ⟨-, hin, hsector, h80⟩ := hslices
  unfold gptHeaderSize at hheader
  have hprimary : (recomputeHeaderCRC (overwrite 0 primary (l.sectorSize + 32)
      (le 8 (uint64 (lastLBA size l.sectorSize)))) l.sectorSize
        (geometryOf primary l.sectorSize).headerSize).length = primary.length :=
    length_recomputeHeaderCRC (length_overwrite_field rfl (by omega)) (by omega)
  refine ⟨hprimary, rfl, ?_⟩
  rw [length_backupStructures (by rw [List.length_drop, hprimary]; omega) ⟨hsector, h80⟩,
    List.length_take, movedBackup]
  omega

lemma applyFit_shaped {l : Layout} {plan : FitPlan} {primary backup : Bytes} {b : BootStructures}
    (h : applyFit l plan primary backup = .ok b) :
    b.Shaped primary.length
      (if plan.scheme = .mbr then (0, 0)
      else movedBackup (geometryOf primary l.sectorSize) l.sectorSize plan.targetSize) := by
  unfold applyFit at h
  rw [ite_error_eq_ok] at h
  obtain ⟨-, h⟩ := h
  by_cases hmbr : plan.scheme = .mbr
  · rw [if_pos hmbr] at h ⊢
    unfold applyFitMBR at h
    rw [ite_error_eq_ok] at h
    obtain ⟨hlen, h⟩ := h
    split at h
    · cases h
    next bs hslots =>
      cases h
      exact ⟨length_placeSlots (fun slot => mbrSlotNumbers_lt) (by omega) rfl hslots, rfl, rfl⟩
  rw [if_neg hmbr] at h ⊢
  simp only [ite_error_eq_ok, not_or, not_not] at h
  obtain ⟨hcaptured, hheader, -, ⟨hoff, hpos, hin⟩, h⟩ := h
  split at h
  · cases h
  next bs hentries =>
    have hbs := length_placeEntries rfl hentries
    simp only [ite_error_eq_ok, not_or, not_not] at h
    obtain ⟨⟨-, -, hslices, hsector, h80⟩, h⟩ := h
    obtain rfl := Except.ok.inj h
    have hprimary : (placeHeader (geometryOf primary l.sectorSize) l.sectorSize plan
        (checksumIEEE ((bs.drop (int64 (int64 (geometryOf primary l.sectorSize).entryLBA *
          l.sectorSize)).toNat).take (geometryOf primary l.sectorSize).entryBytes.toNat)).toNat
        bs).length = primary.length := length_placeHeader hbs (by omega)
    refine ⟨hprimary, rfl, ?_⟩
    rw [length_backupStructures (by rw [List.length_drop, hprimary]; omega) ⟨hsector, h80⟩,
      List.length_take, List.length_drop, hprimary, movedBackup]
    generalize int64 (int64 (geometryOf primary l.sectorSize).entryLBA * l.sectorSize) = off at *
    generalize (geometryOf primary l.sectorSize).entryBytes = entryBytes at *
    omega

end DiskNexus.DiskLayout
