import DiskNexus.DiskLayout.Fit
import DiskNexus.DiskLayout.Relocate
import DiskNexus.Lib.Text

/-!
# Planning a layout for another drive

`PlanFit` places the partitions of a captured layout on a target. On a larger one the last data
partition may grow, and those behind it are packed at the end; on a smaller one data partitions
shrink from the tail backwards, in passes, since what follows is laid out anew.

## Main results

`lastCheck_eq_nil_iff`, `applicable_planSlots`
-/

namespace DiskNexus.DiskLayout

open Binary Text

/-- `TargetGeometry`. -/
structure TargetGeometry where
  size : ℤ
  logicalSector : ℕ
  physicalSector : ℕ

/-- `FitOptions`. -/
structure FitOptions where
  grow : Bool
  moveRecoveryToEnd : Bool
  realign : Bool
  minSize : Option (Partition → Option ℤ)

/-- `dataTypes`: `TypeMSBasicData`, `TypeLinuxFS`, `TypeLinuxHome`. -/
def dataTypes : List Bytes :=
  [[0xA2, 0xA0, 0xD0, 0xEB, 0xE5, 0xB9, 0x33, 0x44, 0x87, 0xC0, 0x68, 0xB6, 0xB7, 0x26, 0x99, 0xC7],
   [0xAF, 0x3D, 0xC6, 0x0F, 0x83, 0x84, 0x72, 0x47, 0x8E, 0x79, 0x3D, 0x69, 0xD8, 0x47, 0x7D, 0xE4],
   [0xE1, 0xC7, 0x3A, 0x93, 0xB4, 0x2E, 0x13, 0x4F, 0xB8, 0x44, 0x0E, 0x14, 0xE2, 0xAE, 0xF9, 0x15]]

/-- `isData`. -/
def isData (l : Layout) (p : Partition) : Bool :=
  if l.scheme = .mbr then p.mbrType = 0x07 ∨ p.mbrType = 0x83 else p.typeGUID ∈ dataTypes

/-- `GUID.String`: the first three fields are little-endian. -/
def guidString (g : Bytes) : String :=
  let digits := fun b : UInt8 =>
    String.ofList [(b.toNat / 16).digitChar.toUpper, (b.toNat % 16).digitChar.toUpper]
  let field := fun bs : Bytes => String.join (bs.map digits)
  String.intercalate "-" [field (g.take 4).reverse, field ((g.drop 4).take 2).reverse,
    field ((g.drop 6).take 2).reverse, field ((g.drop 8).take 2), field (g.drop 10)]

/-- `typeNames`. -/
def typeNames : List (String × String) :=
  [("C12A7328-F81F-11D2-BA4B-00A0C93EC93B", "EFI System"),
   ("E3C9E316-0B5C-4DB8-817D-F92DF00215AE", "Microsoft Reserved"),
   ("EBD0A0A2-B9E5-4433-87C0-68B6B72699C7", "Basic Data"),
   ("DE94BBA4-06D1-4D40-A16A-BFD50179D6AC", "Windows RE"),
   ("0FC63DAF-8483-4772-8E79-3D69D8477DE4", "Linux Filesystem"),
   ("0657FD6D-A4AB-43C4-84E5-0933C84B4F4F", "Linux Swap"),
   ("21686148-6449-6E6F-744E-656564454649", "BIOS Boot"),
   ("E6D6D379-F507-44C2-A23C-238F2A3DF928", "Linux LVM"),
   ("933AC7E1-2EB4-4F13-B844-0E14E2AEF915", "Linux Home"),
   ("5808C8AA-7E8F-42E0-85D2-E1E90434CFB3", "Windows LDM")]

/-- `mbrTypeNames`. -/
def mbrTypeNames : List (UInt8 × String) :=
  [(0x01, "FAT12"), (0x04, "FAT16"), (0x06, "FAT16B"), (0x07, "NTFS/exFAT"), (0x0B, "FAT32"),
   (0x0C, "FAT32"), (0x0E, "FAT16 LBA"), (0x05, "Extended"), (0x0F, "Extended LBA"),
   (0x82, "Linux swap"), (0x83, "Linux"), (0x8E, "Linux LVM"), (0x27, "Windows RE"),
   (0xEE, "GPT protective")]

/-- The field `TypeName`. A partition of an MBR has no type GUID. -/
def typeName (p : Partition) : String :=
  if p.typeGUID = [] then (mbrTypeNames.lookup p.mbrType).getD ""
  else (typeNames.lookup (guidString p.typeGUID)).getD (guidString p.typeGUID)

/-- `describe`. -/
def describe (p : Partition) : String :=
  let index := p.index
  let type := typeName p
  let name := quote (utf16Decode p.name)
  if p.name ≠ [] then s!"partition {index} ({type}, {name})" else s!"partition {index} ({type})"

/-- `alignUp`. -/
def alignUp (lba unit : ℕ) : ℕ :=
  if unit = 0 ∨ lba % unit = 0 then lba else uint64 (lba + unit - lba % unit)

/-- `alignDown`. -/
def alignDown (lba unit : ℕ) : ℕ := if unit = 0 then lba else lba - lba % unit

/-- A partition and its place on the target. -/
structure Slot where
  part : Partition
  plan : PlannedPartition

namespace Slot

/-- The place of a partition before anything is moved. -/
def captured (p : Partition) : Slot :=
  ⟨p, ⟨p.index, p.firstLBA, p.lastLBA, p.firstLBA, p.lastLBA, false, false, false, 0⟩⟩

/-- The closure `sizeOf`. -/
def size (s : Slot) : ℕ := uint64 (s.plan.newLast - s.plan.newFirst + 1)

/-- A partition that is moved. -/
def move (s : Slot) (first : ℕ) : Slot :=
  { s with plan := { s.plan with
      newFirst := first, newLast := uint64 (first + s.size - 1), moved := true } }

/-- A partition of which the minimum is known. -/
def noteMin (s : Slot) (minBytes : ℤ) : Slot :=
  { s with plan := { s.plan with minBytes := minBytes } }

/-- A partition at `first`: a move unless it starts there. -/
def put (s : Slot) (first : ℕ) : Slot := if first ≠ s.plan.newFirst then s.move first else s

/-- A partition that grows up to a sector, unless it ends behind it. -/
def growTo (s : Slot) (last : ℕ) : Slot :=
  if s.plan.newLast < last then { s with plan := { s.plan with newLast := last, grow := true } }
    else s

/-- A partition when the realignment is dropped. -/
def fallBack (s : Slot) : Slot :=
  if s.plan.moved ∧ !s.plan.shrink then
    { s with plan := { s.plan with
        newFirst := s.plan.oldFirst, newLast := s.plan.oldLast, moved := false } }
  else s

end Slot

section Plan

variable (l : Layout) (opts : FitOptions) (align newLastUsable : ℕ)

instance (p : Partition) : Decidable (isLogical l p) := inferInstanceAs (Decidable (_ ∧ _))

/-- Pack partitions at the end, the last one first: where the space before them ends. A logical
partition cannot be moved. -/
def packAtEnd : List Slot → Except Partition (ℕ × List Slot)
  | [] => .ok (newLastUsable, [])
  | s :: slots =>
    match packAtEnd slots with
    | .error p => .error p
    | .ok (stop, slots) =>
      if isLogical l s.part then .error s.part
      else
        let first := alignDown (uint64 (stop + 1 - s.size)) align
        .ok (uint64 (first - 1), s.move first :: slots)

/-- Grow into the new space the data partition `d`, with `before` before it and `trailing` behind.
-/
def growLast (before : List Slot) (d : Slot) (trailing : List Slot) : List Slot × List String :=
  let name := describe d.part
  if isLogical l d.part then
    (before ++ d :: trailing,
      [s!"{name} is an MBR logical partition; growth is not supported for " ++
      "logical partitions, the new space stays unallocated"])
  else if trailing = [] then (before ++ [d.growTo newLastUsable], [])
  else if !opts.moveRecoveryToEnd then
    let names := String.intercalate ", " (trailing.map fun s => describe s.part)
    (before ++ d :: trailing,
      [s!"{name} cannot grow: {names} follow it; move them to the end of the " ++
      "drive to grow into the new space"])
  else
    match packAtEnd l align newLastUsable trailing with
    | .error p =>
      let name := describe p
      (before ++ d :: trailing,
        [s!"{name} is an MBR logical partition and cannot be moved; growth is blocked"])
    | .ok (stop, packed) => (before ++ d.growTo stop :: packed, [])

/-- The partitions around the last data partition. -/
def splitLastData (slots : List Slot) : Option (List Slot × Slot × List Slot) :=
  match slots.reverse.span fun s => !isData l s.part with
  | (_, []) => none
  | (trailing, d :: before) => some (before.reverse, d, trailing.reverse)

/-- The closure `minSectorsOf`, and the partition with what was found out. -/
def minSectorsOf (s : Slot) : ℕ × Slot × List String :=
  match opts.minSize.bind fun f => f s.part with
  | some minBytes =>
    let sectors := uint64 (uint64 minBytes + l.sectorSize - 1) / l.sectorSize
    (alignUp sectors align, s.noteMin minBytes, [])
  | none =>
    let name := describe s.part
    (align, s,
      [s!"the minimum size of {name} is unknown; its shrink is planned to what fits and must " ++
      "be confirmed with the filesystem tools before anything is written"])

/-- One pass of the shrink loop, from the tail backwards. A warning is given once. -/
def shrinkPass : List Slot → ℕ → List String → List Slot × ℕ × List String
  | [], need, warnings => ([], need, warnings)
  | s :: slots, need, warnings =>
    let (slots, need, warnings) := shrinkPass slots need warnings
    if need = 0 ∨ !isData l s.part ∨ isLogical l s.part then (s :: slots, need, warnings)
    else
      let (minSectors, s, unknown) := minSectorsOf l opts align s
      let warnings := warnings ++ unknown.filter (· ∉ warnings)
      let take := min need (s.size - minSectors)
      if take = 0 then (s :: slots, need, warnings)
      else ({ s with plan := { s.plan with
          newLast := uint64 (s.plan.newLast - take), shrink := true } } :: slots,
        need - take, warnings)

/-- `relayout`: the partitions behind `last`, once something before them has shrunk. -/
def relayout : Bool → ℕ → List Slot → List Slot × List String
  | _, _, [] => ([], [])
  | shifted, last, s :: slots =>
    if shifted ∧ isLogical l s.part then
      let name := describe s.part
      let (slots, refusals) := relayout shifted s.plan.newLast slots
      (s :: slots,
        (s!"{name} is an MBR logical partition and would have to move; logical partitions " ++
        "restore verbatim only") :: refusals)
    else
      let first := alignUp (uint64 (last + 1)) align
      let s := if shifted then s.put first else s
      let (slots, refusals) := relayout (shifted || s.plan.shrink) s.plan.newLast slots
      (s :: slots, refusals)

/-- Where the last partition ends. -/
def tailEnd (slots : List Slot) : ℕ := (slots.getLast?.map fun s => s.plan.newLast).getD 0

/-- The passes of the shrink loop, with what is still needed, the warnings and refusals. -/
def shrinkPasses : ℕ → List Slot → ℕ → List String → List String →
    List Slot × ℕ × List String × List String
  | 0, slots, need, warnings, refusals => (slots, need, warnings, refusals)
  | passes + 1, slots, need, warnings, refusals =>
    if need = 0 then (slots, need, warnings, refusals)
    else
      let (slots, left, warnings) := shrinkPass l opts align slots need warnings
      if 0 < left ∧ left = need then (slots, left, warnings, refusals)
      else
        let (slots, moved) := relayout l align false 0 slots
        let stop := tailEnd slots
        let need := if newLastUsable < stop then alignUp (stop - newLastUsable) align else 0
        shrinkPasses passes slots need warnings (refusals ++ moved)

/-- The loop of the realignment, from the sector `pos` on. -/
def realignFrom : ℕ → List Slot → List Slot
  | _, [] => []
  | pos, s :: slots =>
    if isLogical l s.part then s :: realignFrom pos slots
    else
      let s := s.put (alignUp pos align)
      s :: realignFrom (uint64 (s.plan.newLast + 1)) slots

/-- Every partition on a boundary, one behind the other. -/
def realigned (slots : List Slot) : List Slot :=
  realignFrom l align (alignUp l.firstUsableLBA align) slots

/-- The realignment, which is dropped if the last partition does not fit. -/
def realign (slots : List Slot) : List Slot × List String :=
  let moved := realigned l align slots
  let stop := tailEnd moved
  let excess := stop - newLastUsable
  if newLastUsable < stop then
    (moved.map Slot.fallBack,
      [s!"realigning every partition needs {excess} more sectors than the target has; " ++
      "partitions keep their captured alignment"])
  else (moved, [])

/-- The report of what is not aligned. -/
def misaligned (slots : List Slot) : List String :=
  (slots.filter fun s => s.plan.newFirst % align ≠ 0).map fun s =>
    let name := describe s.part
    let first := s.plan.newFirst
    let kib := uint64 (align * l.sectorSize) / 1024
    s!"{name} starts at sector {first}, not on a {kib} KiB boundary; on an SSD this costs write " ++
      "performance (realign to fix)"

/-- The last check, behind the partition `prev`. -/
def lastCheck : Option Slot → List Slot → List String
  | _, [] => []
  | prev, s :: slots =>
    let name := describe s.part
    (if s.plan.newLast < s.plan.newFirst then [s!"{name} would have no sectors"] else []) ++
      (match prev with
      | some q =>
        let other := describe q.part
        if s.plan.newFirst ≤ q.plan.newLast then [s!"{name} would overlap {other}"] else []
      | none => []) ++
      (if newLastUsable < s.plan.newLast then
        [s!"{name} would end past the target's last usable sector"] else []) ++
      lastCheck (some s) slots

/-- Grow or shrink: the partitions, the warnings and the refusals. -/
def resize (slots : List Slot) : List Slot × List String × List String :=
  let stop := tailEnd slots
  if stop ≤ newLastUsable then
    if opts.grow ∧ stop < newLastUsable then
      match splitLastData l slots with
      | none => (slots, [], [])
      | some (before, d, trailing) =>
        let (slots, warnings) := growLast l opts align newLastUsable before d trailing
        (slots, warnings, [])
    else (slots, [], [])
  else
    let (slots, need, warnings, refusals) :=
      shrinkPasses l opts align newLastUsable 16 slots (stop - newLastUsable) [] []
    let mib := uint64 (uint64 (need * l.sectorSize) + 2 ^ 20 - 1) / 2 ^ 20
    (slots, warnings, refusals ++ if 0 < need then
      [s!"the target is {mib} MiB too small even after shrinking every NTFS/ext4 partition to " ++
        "its minimum; a partition that cannot shrink (system, recovery, swap, or an MBR logical " ++
        "partition) or data that does not fit is in the way"] else [])

end Plan

/-- The sectors behind the last usable one, of a GPT. -/
def entrySectors (l : Layout) : ℕ :=
  let entryBytes := uint64 (uint64 l.backupRegion.length - l.sectorSize)
  uint64 (entryBytes + l.sectorSize - 1) / l.sectorSize

/-- What is wrong with the target itself. -/
def targetRefusals (l : Layout) (tg : TargetGeometry) : List String :=
  let size := tg.size
  let ss := l.sectorSize
  let logical := tg.logicalSector
  (if logical ≠ 0 ∧ logical ≠ ss then
    [s!"the target's logical sector size is {logical} bytes but the captured disk used {ss}; " ++
      "partition offsets are counted in sectors, so a byte-for-byte restore would not boot — " ++
      "this drive needs a different capture"] else []) ++
    if size ≤ 0 ∨ size % ss ≠ 0 then
      [s!"target size {size} is not a whole number of {ss}-byte sectors"] else []

/-- The last sector of a target that a partition may have. -/
def lastUsable (l : Layout) (tg : TargetGeometry) : ℕ :=
  let sectors := tg.size.toNat / l.sectorSize
  if l.scheme = .gpt then uint64 (sectors - 1 - entrySectors l - 1) else sectors - 1

/-- The alignment unit: 1 MiB, or the physical sector if larger. -/
def alignment (l : Layout) (tg : TargetGeometry) : ℕ :=
  max (2 ^ 20 / l.sectorSize) (tg.physicalSector / l.sectorSize)

/-- The partitions in the order of the disk, as captured. -/
def capturedSlots (l : Layout) : List Slot :=
  (l.partitions.insertionSort fun p q => p.firstLBA ≤ q.firstLBA).map Slot.captured

/-- The partitions as they were resized. -/
def resized (l : Layout) (tg : TargetGeometry) (opts : FitOptions) :
    List Slot × List String × List String :=
  resize l opts (alignment l tg) (lastUsable l tg) (capturedSlots l)

/-- The plan for such a target. -/
def planSlots (l : Layout) (tg : TargetGeometry) (opts : FitOptions) : FitPlan :=
  let align := alignment l tg
  let newLastUsable := lastUsable l tg
  let (slots, warnings, refusals) := resized l tg opts
  let (slots, realigned) :=
    if opts.realign ∧ refusals = [] then realign l align newLastUsable slots else (slots, [])
  ⟨l.scheme, l.sectorSize, tg.size, newLastUsable, slots.map Slot.plan,
    warnings ++ realigned ++ misaligned l align slots,
    refusals ++ lastCheck newLastUsable none slots⟩

/-- `PlanFit`. -/
def planFit (l : Layout) (tg : TargetGeometry) (opts : FitOptions) : Except String FitPlan :=
  let ss := l.sectorSize
  let sectors := tg.size.toNat / ss
  let refused (refusals : List String) : FitPlan := ⟨l.scheme, ss, tg.size, 0, [], [], refusals⟩
  if ss = 0 ∨ l.partitions = [] then .error "fit: not a partitioned layout"
  else if targetRefusals l tg ≠ [] then .ok (refused (targetRefusals l tg))
  else if l.scheme = .gpt ∧ sectors < uint64 (entrySectors l + 3) then
    .ok (refused [s!"target ({sectors} sectors) is too small to hold a GPT at all"])
  else .ok (planSlots l tg opts)

/-! ## Places -/

@[simp] lemma uint64_cast (n : ℤ) : ((uint64 n : ℕ) : ℤ) = n % 2 ^ 64 :=
  Int.toNat_of_nonneg (Int.emod_nonneg _ (by norm_num))

lemma uint64_lt (n : ℤ) : uint64 n < 2 ^ 64 := by
  have := uint64_cast n
  omega

namespace Slot

variable (s : Slot) (first : ℕ)

@[simp] lemma put_part : (s.put first).part = s.part := by
  unfold put
  split <;> rfl

@[simp] lemma put_shrink : (s.put first).plan.shrink = s.plan.shrink := by
  unfold put
  split <;> rfl

@[simp] lemma put_newFirst : (s.put first).plan.newFirst = first := by
  unfold put
  split_ifs with h
  · rfl
  · exact (not_not.1 h).symm

/-- The size of a partition as a number. -/
lemma size_cast : (s.size : ℤ) = ((s.plan.newLast : ℤ) - s.plan.newFirst + 1) % 2 ^ 64 :=
  uint64_cast _

lemma move_size : (s.move first).size = s.size := by
  have hsize := s.size_cast
  have hlast := uint64_cast (first + s.size - 1)
  have hmoved := uint64_cast (uint64 (first + s.size - 1) - first + 1)
  change uint64 (uint64 (first + s.size - 1) - first + 1) = s.size
  omega

@[simp] lemma put_size : (s.put first).size = s.size := by
  unfold put
  split
  · exact s.move_size first
  · rfl

/-- The last sector of a partition that was put somewhere. -/
lemma put_newLast (h : s.plan.newLast < 2 ^ 64) :
    (s.put first).plan.newLast = uint64 (first + s.size - 1) := by
  unfold put
  split_ifs with hfirst
  · rfl
  · have hsize := s.size_cast
    have hlast := uint64_cast (first + s.size - 1)
    omega

lemma growTo_newLast (last : ℕ) : (s.growTo last).plan.newLast = max s.plan.newLast last := by
  unfold growTo
  split
  · exact (max_eq_right (Nat.le_of_lt ‹_›)).symm
  · exact (max_eq_left (Nat.not_lt.1 ‹_›)).symm

/-- Growth changes the end only. -/
lemma growTo_keeps (last : ℕ) : (s.growTo last).part = s.part ∧
    (s.growTo last).plan.newFirst = s.plan.newFirst ∧
    (s.growTo last).plan.oldFirst = s.plan.oldFirst ∧
    (s.growTo last).plan.oldLast = s.plan.oldLast ∧
    (s.growTo last).plan.shrink = s.plan.shrink ∧ (s.growTo last).plan.moved = s.plan.moved := by
  unfold growTo
  split <;> simp

end Slot

/-- The first and the last sectors of partitions. -/
def places (slots : List Slot) : List (ℕ × ℕ) :=
  slots.map fun s => (s.plan.newFirst, s.plan.newLast)

lemma places_cons {s t : Slot} {xs ys : List Slot} (hfirst : s.plan.newFirst = t.plan.newFirst)
    (hlast : s.plan.newLast = t.plan.newLast) (h : places xs = places ys) :
    places (s :: xs) = places (t :: ys) :=
  congrArg₂ List.cons (Prod.ext hfirst hlast) h

/-- Extents that have sectors, one behind the other, up to `stop`. -/
def Clear (stop : ℕ) (extents : List (ℕ × ℕ)) : Prop :=
  extents.Pairwise (fun e f => e.2 < f.1) ∧ ∀ e ∈ extents, e.1 ≤ e.2 ∧ e.2 ≤ stop

instance (stop : ℕ) (extents : List (ℕ × ℕ)) : Decidable (Clear stop extents) :=
  inferInstanceAs (Decidable (_ ∧ _))

lemma tailEnd_eq (slots : List Slot) :
    tailEnd slots = ((places slots).getLast?.map Prod.snd).getD 0 := by
  simp [tailEnd, places, List.getLast?_map, Function.comp_def]

lemma tailEnd_le {stop : ℕ} {slots : List Slot} (h : Clear stop (places slots)) :
    tailEnd slots ≤ stop := by
  rw [tailEnd_eq]
  cases hlast : (places slots).getLast? with
  | none => exact Nat.zero_le _
  | some e => exact (h.2 e (List.mem_of_getLast? hlast)).2

/-- It is enough that the next extent begins behind the first. -/
lemma clear_cons_iff {stop : ℕ} {s : Slot} {slots : List Slot} :
    Clear stop (places (s :: slots)) ↔ (s.plan.newFirst ≤ s.plan.newLast ∧ s.plan.newLast ≤ stop) ∧
      (∀ t ∈ slots.head?, s.plan.newLast < t.plan.newFirst) ∧ Clear stop (places slots) := by
  simp only [Clear, places, List.map_cons, List.pairwise_cons, List.forall_mem_cons]
  constructor
  · rintro ⟨⟨hbehind, hsorted⟩, hs, hall⟩
    refine ⟨hs, fun t ht => ?_, hsorted, hall⟩
    exact hbehind _ (List.mem_map_of_mem (List.mem_of_head? ht))
  · rintro ⟨hs, hnext, hsorted, hall⟩
    refine ⟨⟨fun e he => ?_, hsorted⟩, hs, hall⟩
    cases slots with
    | nil => cases he
    | cons t slots =>
      have hfirst := hnext t rfl
      rcases List.mem_cons.1 he with rfl | he
      · exact hfirst
      · have hbetween := (hall _ (.head _)).1
        have := (List.pairwise_cons.1 hsorted).1 e he
        simp only at hbetween this
        omega

/-- What the last check lets pass. -/
lemma lastCheck_eq_nil_iff {newLastUsable : ℕ} {prev : Option Slot} {slots : List Slot} :
    lastCheck newLastUsable prev slots = [] ↔
      (∀ q ∈ prev, ∀ s ∈ slots.head?, q.plan.newLast < s.plan.newFirst) ∧
        Clear newLastUsable (places slots) := by
  induction slots generalizing prev with
  | nil => simp [lastCheck, Clear, places]
  | cons s slots ih =>
    rw [clear_cons_iff]
    cases prev <;> simp [lastCheck, ih] <;> tauto

lemma splitLastData_eq {l : Layout} {slots before trailing : List Slot} {d : Slot}
    (h : splitLastData l slots = some (before, d, trailing)) : slots = before ++ d :: trailing := by
  unfold splitLastData at h
  rw [List.span_eq_takeWhile_dropWhile] at h
  split at h
  · cases h
  · rename_i hspan
    cases h
    have hall := @List.takeWhile_append_dropWhile _ (fun s => !isData l s.part) slots.reverse
    rw [(Prod.mk.inj hspan).1, (Prod.mk.inj hspan).2] at hall
    simpa using congrArg List.reverse hall.symm

/-- What growth does: nothing, or the data partition grows up to what is packed at the end. -/
lemma growLast_eq {l : Layout} {opts : FitOptions} {align newLastUsable : ℕ}
    {before trailing : List Slot} {d : Slot} :
    (growLast l opts align newLastUsable before d trailing).1 =
      if isLogical l d.part ∨ (trailing ≠ [] ∧ !opts.moveRecoveryToEnd) then before ++ d :: trailing
      else
        match packAtEnd l align newLastUsable trailing with
        | .error _ => before ++ d :: trailing
        | .ok (stop, packed) => before ++ d.growTo stop :: packed := by
  unfold growLast
  simp only
  by_cases hlogical : isLogical l d.part
  · simp [hlogical]
  by_cases hlast : trailing = []
  · simp [hlogical, hlast, packAtEnd]
  by_cases hmove : opts.moveRecoveryToEnd = true
  · simp only [hlogical, hlast, hmove, if_false, Bool.not_true, Bool.false_eq_true, and_false,
      or_self]
    split <;> rfl
  · simp [hlogical, hlast, hmove]

lemma realign_fst (l : Layout) (align newLastUsable : ℕ) (slots : List Slot) :
    (realign l align newLastUsable slots).1 =
      if newLastUsable < tailEnd (realigned l align slots) then
        (realigned l align slots).map Slot.fallBack
      else realigned l align slots := by
  unfold realign
  simp only
  split <;> rfl

/-- An applicable plan places partitions, and so do other options. -/
lemma planFit_placed {l : Layout} {tg : TargetGeometry} {opts : FitOptions} {plan : FitPlan}
    (h : planFit l tg opts = .ok plan) (happ : plan.Applicable) :
    (∀ opts', planFit l tg opts' = .ok (planSlots l tg opts')) ∧
      ¬ (l.scheme = .gpt ∧ tg.size.toNat / l.sectorSize < uint64 (entrySectors l + 3)) := by
  unfold planFit at h ⊢
  simp only at h ⊢
  by_cases hlayout : l.sectorSize = 0 ∨ l.partitions = []
  · rw [if_pos hlayout] at h
    cases h
  by_cases htarget : targetRefusals l tg ≠ []
  · rw [if_neg hlayout, if_pos htarget] at h
    cases h
    exact absurd happ htarget
  by_cases hsmall : l.scheme = .gpt ∧ tg.size.toNat / l.sectorSize < uint64 (entrySectors l + 3)
  · rw [if_neg hlayout, if_neg htarget, if_pos hsmall] at h
    cases h
    cases happ
  · simp only [if_neg hlayout, if_neg htarget, if_neg hsmall]
    exact ⟨fun _ => trivial, hsmall⟩

/-- The last usable sector of a target that has the size of a file. -/
lemma lastUsable_lt {l : Layout} {tg : TargetGeometry} (htg : tg.size < 2 ^ 63)
    (h : ¬ (l.scheme = .gpt ∧ tg.size.toNat / l.sectorSize < uint64 (entrySectors l + 3))) :
    lastUsable l tg + 1 < 2 ^ 64 := by
  have hsectors := Nat.div_le_self tg.size.toNat l.sectorSize
  have hentries : entrySectors l < 2 ^ 64 := (Nat.div_le_self _ _).trans_lt (uint64_lt _)
  have hthree := uint64_cast (entrySectors l + 3)
  have hlast := uint64_cast (tg.size.toNat / l.sectorSize - 1 - entrySectors l - 1)
  unfold lastUsable
  simp only
  split_ifs with hgpt
  · rw [not_and, not_lt] at h
    have := h hgpt
    push_cast at hlast ⊢
    omega
  · omega

/-- The partitions of a plan of which the sizes were not refused. -/
def finalSlots (l : Layout) (tg : TargetGeometry) (opts : FitOptions) : List Slot :=
  let slots := (resized l tg opts).1
  if opts.realign then (realign l (alignment l tg) (lastUsable l tg) slots).1 else slots

variable {l : Layout} {tg : TargetGeometry} {opts : FitOptions}

/-- **Plans that may be applied**: no size is refused, and the partitions are clear. -/
lemma applicable_planSlots : (planSlots l tg opts).Applicable ↔
    (resized l tg opts).2.2 = [] ∧ Clear (lastUsable l tg) (places (finalSlots l tg opts)) := by
  simp only [FitPlan.Applicable, planSlots, List.append_eq_nil_iff]
  refine and_congr_right fun h => ?_
  simp only [h, and_true, lastCheck_eq_nil_iff, finalSlots, Option.not_mem_none, IsEmpty.forall_iff,
    implies_true, true_and]
  split <;> rfl

lemma partitions_planSlots (h : (resized l tg opts).2.2 = []) :
    (planSlots l tg opts).partitions = (finalSlots l tg opts).map Slot.plan := by
  simp only [planSlots, finalSlots, h, and_true]
  split <;> rfl

end DiskNexus.DiskLayout
