import DiskNexus.Lib.Crc32

/-!
# GPT layouts

A GPT disk has a boot sector, a header, an array of partition entries, and copies of both at the
end. The parser checks the header and the array by their checksums and the partitions against the
size of the disk. Addresses are 64-bit words that the code converts to signed byte offsets.
-/

namespace DiskNexus.DiskLayout

open Binary Crc32

/-- The `int64` value of an integer. -/
@[irreducible] def int64 (n : ℤ) : ℤ :=
  let bits := (n % 2 ^ 64).toNat
  if bits < 2 ^ 63 then bits else (bits : ℤ) - 2 ^ 64

/-! ## Types -/

/-- `Partition`, with GUIDs as bytes and the name as UTF-16 units. -/
structure Partition where
  index : ℕ
  typeGUID : Bytes
  partGUID : Bytes
  name : List ℕ
  firstLBA : ℕ
  lastLBA : ℕ
  attributes : ℕ
  mbrType : UInt8
  bootable : Bool
  deriving DecidableEq

/-- `Partition.Offset`. -/
def Partition.offset (p : Partition) (sectorSize : ℕ) : ℤ := int64 (int64 p.firstLBA * sectorSize)

/-- `Partition.Length`. -/
def Partition.length (p : Partition) (sectorSize : ℕ) : ℤ :=
  int64 (int64 ((p.lastLBA : ℤ) - p.firstLBA + 1) * sectorSize)

/-- `Range`. -/
structure Range where
  offset : ℤ
  length : ℤ
  deriving DecidableEq

/-- The scheme of a partition table. -/
inductive Scheme
  | gpt
  | mbr
  deriving DecidableEq

/-- `DiskLayout`. -/
structure Layout where
  scheme : Scheme
  sectorSize : ℕ
  diskSize : ℤ
  diskGUID : Bytes
  firstUsableLBA : ℕ
  lastUsableLBA : ℕ
  alternateLBA : ℕ
  partitions : List Partition
  auxRegions : List Range
  primaryRegion : Range
  backupRegion : Range
  deriving DecidableEq

/-! ## The parser -/

/-- `ReadAt` of `n` bytes; fewer bytes are an error. -/
def readAt (disk : Bytes) (off : ℤ) (n : ℕ) : Option Bytes :=
  if off < 0 then none
  else if disk.length < off.toNat + n then none
  else some ((disk.drop off.toNat).take n)

/-- `gptSignature`. -/
def gptSignature : Bytes := [69, 70, 73, 32, 80, 65, 82, 84]

/-- `gptHeaderSize`. -/
def gptHeaderSize : ℕ := 92

/-- `maxEntryBytes`. -/
def maxEntryBytes : ℤ := 4 * 2 ^ 20

/-- A sector with the boot signature. -/
def HasBootSignature (sector : Bytes) : Prop := sector.getD 510 0 = 0x55 ∧ sector.getD 511 0 = 0xAA

instance (sector : Bytes) : Decidable (HasBootSignature sector) :=
  inferInstanceAs (Decidable (_ ∧ _))

/-- The fields of a GPT header. -/
structure Header where
  headerSize : ℕ
  declaredCRC : ℕ
  myLBA : ℕ
  alternateLBA : ℕ
  firstUsableLBA : ℕ
  lastUsableLBA : ℕ
  diskGUID : Bytes
  entryLBA : ℕ
  entryCount : ℕ
  entrySize : ℕ
  entriesCRC : ℕ
  deriving DecidableEq

/-- The fields of the header in a sector. -/
def headerFields (hdr : Bytes) : Header where
  headerSize := fieldAt hdr 12 4
  declaredCRC := fieldAt hdr 16 4
  myLBA := fieldAt hdr 24 8
  alternateLBA := fieldAt hdr 32 8
  firstUsableLBA := fieldAt hdr 40 8
  lastUsableLBA := fieldAt hdr 48 8
  diskGUID := (hdr.drop 56).take 16
  entryLBA := fieldAt hdr 72 8
  entryCount := fieldAt hdr 80 4
  entrySize := fieldAt hdr 84 4
  entriesCRC := fieldAt hdr 88 4

/-- The size of the entry array. -/
def Header.entryBytes (h : Header) : ℤ := int64 (h.entryCount * h.entrySize)

/-- The offset of the entry array. -/
def Header.entryOffset (h : Header) (sectorSize : ℕ) : ℤ := int64 (int64 h.entryLBA * sectorSize)

/-- A header with its checksum field zeroed. -/
def zeroCRC (hdr : Bytes) : Bytes := hdr.take 16 ++ (List.replicate 4 0 ++ hdr.drop 20)

/-- The checksum over `HeaderSize` bytes of the header in a sector. -/
def headerCRC (hdr : Bytes) : ℕ :=
  (checksumIEEE (zeroCRC (hdr.take (headerFields hdr).headerSize))).toNat

/-- `decodeUTF16Name`, the units of the name. -/
def decodeUTF16Name : Bytes → List ℕ
  | a :: b :: rest =>
    if ofLE [a, b] = 0 then [] else ofLE [a, b] :: decodeUTF16Name rest
  | _ => []

/-- The slot number `i` of an entry array. -/
def slot (entries : Bytes) (entrySize i : ℕ) : Bytes :=
  (entries.drop (i * entrySize)).take entrySize

/-- A slot is in use: its type is not zero. -/
def InUse (e : Bytes) : Prop := e.take 16 ≠ List.replicate 16 0

instance (e : Bytes) : Decidable (InUse e) := inferInstanceAs (Decidable (_ ≠ _))

/-- The partition of a slot. -/
def partitionOf (i : ℕ) (e : Bytes) : Partition where
  index := i
  typeGUID := e.take 16
  partGUID := (e.drop 16).take 16
  name := decodeUTF16Name ((e.drop 56).take 72)
  firstLBA := fieldAt e 32 8
  lastLBA := fieldAt e 40 8
  attributes := fieldAt e 48 8
  mbrType := 0
  bootable := false

/-- The loop over the entry array, from slot `i` on. -/
def parseEntries (entries : Bytes) (entrySize sectorSize : ℕ) (diskSize : ℤ) :
    ℕ → ℕ → Except String (List Partition)
  | _, 0 => .ok []
  | i, n + 1 =>
    let e := slot entries entrySize i
    if ¬ InUse e then parseEntries entries entrySize sectorSize diskSize (i + 1) n
    else
      let p := partitionOf i e
      let last := p.lastLBA
      let first := p.firstLBA
      let stop := int64 (p.offset sectorSize + p.length sectorSize)
      if last < first then .error s!"partition {i}: LastLBA {last} < FirstLBA {first}"
      else if diskSize < stop then
        .error s!"partition {i} extends past end of disk ({stop} > {diskSize})"
      else (parseEntries entries entrySize sectorSize diskSize (i + 1) n).map (p :: ·)

/-- The layout that a header describes, with the given partitions. -/
def layoutOf (diskSize : ℤ) (sectorSize : ℕ) (h : Header) (partitions : List Partition) :
    Layout where
  scheme := .gpt
  sectorSize := sectorSize
  diskSize := diskSize
  diskGUID := h.diskGUID
  firstUsableLBA := h.firstUsableLBA
  lastUsableLBA := h.lastUsableLBA
  alternateLBA := h.alternateLBA
  partitions := partitions
  auxRegions := []
  primaryRegion := ⟨0, int64 (h.entryOffset sectorSize + h.entryBytes)⟩
  backupRegion :=
    let alternate := int64 (int64 h.alternateLBA * sectorSize)
    let backupStart := int64 (alternate - h.entryBytes)
    ⟨backupStart, int64 (int64 (alternate + sectorSize) - backupStart)⟩

/-- `ParseWithSector`, from the header on. -/
def parseHeader (disk : Bytes) (diskSize : ℤ) (sectorSize : ℕ) (hdr : Bytes) :
    Except String Layout :=
  let h := headerFields hdr
  let headerSize := h.headerSize
  let myLBA := h.myLBA
  let entrySize := h.entrySize
  let entryBytes := h.entryBytes
  if hdr.take 8 ≠ gptSignature then .error s!"no GPT signature at LBA1 (sector size {sectorSize})"
  else if headerSize < gptHeaderSize ∨ sectorSize < headerSize then
    .error s!"implausible GPT header size {headerSize}"
  else if headerCRC hdr ≠ h.declaredCRC then .error "GPT header CRC mismatch"
  else if myLBA ≠ 1 then .error s!"primary GPT header claims MyLBA={myLBA}, want 1"
  else if entrySize < 128 ∨ entrySize % 8 ≠ 0 then
    .error s!"implausible partition entry size {entrySize}"
  else if entryBytes ≤ 0 ∨ maxEntryBytes < entryBytes then
    .error s!"implausible partition entry array size {entryBytes}"
  else
    match readAt disk (h.entryOffset sectorSize) entryBytes.toNat with
    | none => .error "reading partition entries"
    | some entries =>
      if (checksumIEEE entries).toNat ≠ h.entriesCRC then
        .error "GPT partition entry array CRC mismatch"
      else
        match parseEntries entries entrySize sectorSize diskSize 0 h.entryCount with
        | .error e => .error e
        | .ok partitions =>
          let l := layoutOf diskSize sectorSize h partitions
          let off := l.backupRegion.offset
          let len := l.backupRegion.length
          if off < 0 ∨ diskSize < int64 (off + len) then
            .error s!"backup GPT region [{off},+{len}) out of disk bounds {diskSize}"
          else .ok l

/-- `ParseWithSector`. -/
def parseWithSector (disk : Bytes) (diskSize : ℤ) (sectorSize : ℕ) : Except String Layout :=
  if sectorSize < 512 ∨ 4096 < sectorSize ∨ sectorSize % 512 ≠ 0 then
    .error s!"unsupported sector size {sectorSize}"
  else if diskSize < (sectorSize : ℤ) * 3 then
    .error s!"disk too small ({diskSize} bytes) for GPT at sector size {sectorSize}"
  else
    match readAt disk 0 sectorSize with
    | none => .error "reading LBA0"
    | some mbr =>
      if ¬ HasBootSignature mbr then
        .error "no MBR boot signature at LBA0 (not a partitioned disk)"
      else
        match readAt disk sectorSize sectorSize with
        | none => .error "reading GPT header"
        | some hdr => parseHeader disk diskSize sectorSize hdr

/-! ## Disks with a GPT -/

/-- The sector of the primary header. -/
def headerSector (disk : Bytes) (sectorSize : ℕ) : Bytes := (disk.drop sectorSize).take sectorSize

/-- The fields of the primary header. -/
def primaryHeader (disk : Bytes) (sectorSize : ℕ) : Header :=
  headerFields (headerSector disk sectorSize)

/-- The entry array that a header points to. -/
def entryArray (disk : Bytes) (sectorSize : ℕ) (h : Header) : Bytes :=
  (disk.drop (h.entryOffset sectorSize).toNat).take h.entryBytes.toNat

/-- The partitions in the slots of an entry array, from slot `i` on. -/
def partitionsFrom (entries : Bytes) (entrySize : ℕ) : ℕ → ℕ → List Partition
  | _, 0 => []
  | i, n + 1 =>
    if InUse (slot entries entrySize i) then
      partitionOf i (slot entries entrySize i) :: partitionsFrom entries entrySize (i + 1) n
    else partitionsFrom entries entrySize (i + 1) n

/-- Slots are numbered in order. -/
lemma partitionsFrom_index (entries : Bytes) (entrySize i n : ℕ) :
    (∀ p ∈ partitionsFrom entries entrySize i n, i ≤ p.index) ∧
      ((partitionsFrom entries entrySize i n).map Partition.index).Nodup := by
  induction n generalizing i with
  | zero => exact ⟨fun p hp => (by cases hp), List.nodup_nil⟩
  | succ n ih =>
    obtain ⟨hle, hnodup⟩ := ih (i + 1)
    rw [partitionsFrom]
    split
    · refine ⟨List.forall_mem_cons.2 ⟨Nat.le_refl i, fun p hp => by have := hle p hp; omega⟩, ?_⟩
      rw [List.map_cons, List.nodup_cons]
      refine ⟨fun hmem => ?_, hnodup⟩
      obtain ⟨p, hp, hi⟩ := List.mem_map.1 hmem
      have hlt := hle p hp
      change p.index = i at hi
      omega
    · exact ⟨fun p hp => by have := hle p hp; omega, hnodup⟩

/-- The partitions of a disk with a GPT. -/
def gptPartitions (disk : Bytes) (sectorSize : ℕ) : List Partition :=
  let h := primaryHeader disk sectorSize
  partitionsFrom (entryArray disk sectorSize h) h.entrySize 0 h.entryCount

/-- The layout of a disk with a GPT. -/
def gptLayout (disk : Bytes) (diskSize : ℤ) (sectorSize : ℕ) : Layout :=
  layoutOf diskSize sectorSize (primaryHeader disk sectorSize) (gptPartitions disk sectorSize)

/-- A partition passes the checks of the parser. -/
def PassesBounds (diskSize : ℤ) (sectorSize : ℕ) (p : Partition) : Prop :=
  p.firstLBA ≤ p.lastLBA ∧ int64 (p.offset sectorSize + p.length sectorSize) ≤ diskSize

/-- A sector holds a header of a sector size that is sealed by its checksum. -/
structure SealedHeader (sectorSize : ℕ) (hdr : Bytes) : Prop where
  signature : hdr.take 8 = gptSignature
  size : gptHeaderSize ≤ (headerFields hdr).headerSize ∧ (headerFields hdr).headerSize ≤ sectorSize
  crc : headerCRC hdr = (headerFields hdr).declaredCRC

/-- A disk with a GPT of the given sector size. -/
structure ValidGPT (disk : Bytes) (diskSize : ℤ) (sectorSize : ℕ) : Prop where
  sector : 512 ≤ sectorSize ∧ sectorSize ≤ 4096 ∧ sectorSize % 512 = 0
  size : (sectorSize : ℤ) * 3 ≤ diskSize
  length : 2 * sectorSize ≤ disk.length
  boot : HasBootSignature disk
  header : SealedHeader sectorSize (headerSector disk sectorSize)
  myLBA : (primaryHeader disk sectorSize).myLBA = 1
  entrySize : 128 ≤ (primaryHeader disk sectorSize).entrySize ∧
    (primaryHeader disk sectorSize).entrySize % 8 = 0
  entryBytes : 0 < (primaryHeader disk sectorSize).entryBytes ∧
    (primaryHeader disk sectorSize).entryBytes ≤ maxEntryBytes
  array : 0 ≤ (primaryHeader disk sectorSize).entryOffset sectorSize ∧
    (primaryHeader disk sectorSize).entryOffset sectorSize +
      (primaryHeader disk sectorSize).entryBytes ≤ disk.length
  arrayCRC : (checksumIEEE (entryArray disk sectorSize (primaryHeader disk sectorSize))).toNat =
    (primaryHeader disk sectorSize).entriesCRC
  partitions : ∀ p ∈ gptPartitions disk sectorSize, PassesBounds diskSize sectorSize p
  backup : 0 ≤ (gptLayout disk diskSize sectorSize).backupRegion.offset ∧
    int64 ((gptLayout disk diskSize sectorSize).backupRegion.offset +
      (gptLayout disk diskSize sectorSize).backupRegion.length) ≤ diskSize

/-! ## The parser accepts the disks with a GPT -/

variable {disk : Bytes} {n sectorSize : ℕ} {diskSize : ℤ}

lemma readAt_eq_some {off : ℤ} {bs : Bytes} :
    readAt disk off n = some bs ↔
      (0 ≤ off ∧ off + n ≤ disk.length) ∧ bs = (disk.drop off.toNat).take n := by
  unfold readAt
  split
  · simp only [reduceCtorEq, false_iff]
    omega
  · split
    · simp only [reduceCtorEq, false_iff]
      omega
    · simp only [Option.some.injEq]
      constructor
      · rintro rfl
        exact ⟨⟨by omega, by omega⟩, rfl⟩
      · rintro ⟨-, rfl⟩
        rfl

/-- The loop over the array gives the partitions in it, if they pass. -/
lemma parseEntries_eq_ok_iff {entries : Bytes} {entrySize : ℕ} {i : ℕ} {ps : List Partition} :
    parseEntries entries entrySize sectorSize diskSize i n = .ok ps ↔
      (∀ p ∈ partitionsFrom entries entrySize i n, PassesBounds diskSize sectorSize p) ∧
        ps = partitionsFrom entries entrySize i n := by
  induction n generalizing i ps with
  | zero => simp [parseEntries, partitionsFrom, eq_comm]
  | succ n ih =>
    unfold parseEntries partitionsFrom
    by_cases huse : InUse (slot entries entrySize i)
    · simp only [huse, not_true_eq_false, if_false, if_true, ite_error_eq_ok, not_lt,
        List.forall_mem_cons]
      rw [← and_assoc, and_assoc (a := PassesBounds _ _ _)]
      refine and_congr_right fun _ => ?_
      cases hrest : parseEntries entries entrySize sectorSize diskSize (i + 1) n with
      | error e =>
        simp only [Except.map, reduceCtorEq, false_iff, not_and]
        intro hall
        have := hrest.symm.trans (ih.2 ⟨hall, rfl⟩)
        cases this
      | ok rest =>
        obtain ⟨hall, rfl⟩ := ih.1 hrest
        simp only [Except.map, Except.ok.injEq]
        exact ⟨fun h => ⟨hall, h.symm⟩, fun h => h.2.symm⟩
    · simp only [huse, not_false_eq_true, if_true, if_false]
      exact ih

/-- A prefix of a disk that holds its boot sector has the same signature. -/
lemma hasBootSignature_take (h : 512 ≤ n) :
    HasBootSignature (disk.take n) ↔ HasBootSignature disk := by
  unfold HasBootSignature
  simp only [List.getD_eq_getElem?_getD]
  rw [List.getElem?_take_of_lt (by omega), List.getElem?_take_of_lt (by omega)]

/-- The part of the parser behind the header sector. -/
lemma parseHeader_eq_ok_iff {hdr : Bytes} {l : Layout} :
    parseHeader disk diskSize sectorSize hdr = .ok l ↔
      SealedHeader sectorSize hdr ∧ (headerFields hdr).myLBA = 1 ∧
      (128 ≤ (headerFields hdr).entrySize ∧ (headerFields hdr).entrySize % 8 = 0) ∧
      (0 < (headerFields hdr).entryBytes ∧ (headerFields hdr).entryBytes ≤ maxEntryBytes) ∧
      ∃ entries, readAt disk ((headerFields hdr).entryOffset sectorSize)
          (headerFields hdr).entryBytes.toNat = some entries ∧
        (checksumIEEE entries).toNat = (headerFields hdr).entriesCRC ∧
        ∃ ps, parseEntries entries (headerFields hdr).entrySize sectorSize diskSize 0
            (headerFields hdr).entryCount = .ok ps ∧
          (0 ≤ (layoutOf diskSize sectorSize (headerFields hdr) ps).backupRegion.offset ∧
            int64 ((layoutOf diskSize sectorSize (headerFields hdr) ps).backupRegion.offset +
              (layoutOf diskSize sectorSize (headerFields hdr) ps).backupRegion.length)
                ≤ diskSize) ∧
          l = layoutOf diskSize sectorSize (headerFields hdr) ps := by
  unfold parseHeader
  simp only [ite_error_eq_ok, not_or, not_lt, not_le, not_not]
  constructor
  · rintro ⟨hsig, hsize, hcrc, hmy, hes, heb, h⟩
    refine ⟨⟨hsig, hsize, hcrc⟩, hmy, hes, heb, ?_⟩
    split at h
    · cases h
    next entries hread =>
      rw [ite_error_eq_ok, not_not] at h
      obtain ⟨hacrc, h⟩ := h
      refine ⟨entries, hread, hacrc, ?_⟩
      split at h
      · cases h
      next ps hps =>
        simp only [ite_error_eq_ok, not_or, not_lt, Except.ok.injEq] at h
        exact ⟨ps, hps, h.1, h.2.symm⟩
  · rintro ⟨⟨hsig, hsize, hcrc⟩, hmy, hes, heb, entries, hread, hacrc, ps, hps, hback, rfl⟩
    refine ⟨hsig, hsize, hcrc, hmy, hes, heb, ?_⟩
    rw [hread]
    simp only [ite_error_eq_ok, hps, not_or, not_lt, not_not]
    exact ⟨hacrc, hback, trivial⟩

lemma readAt_zero {bs : Bytes} :
    readAt disk 0 n = some bs ↔ n ≤ disk.length ∧ bs = disk.take n := by
  rw [readAt_eq_some, Int.toNat_zero, List.drop_zero]
  refine and_congr ?_ Iff.rfl
  omega

lemma readAt_header {hdr : Bytes} :
    readAt disk sectorSize sectorSize = some hdr ↔
      2 * sectorSize ≤ disk.length ∧ hdr = headerSector disk sectorSize := by
  rw [readAt_eq_some]
  refine and_congr ?_ Iff.rfl
  omega

lemma readAt_entries {entries : Bytes} {h : Header} (hpos : 0 < h.entryBytes) :
    readAt disk (h.entryOffset sectorSize) h.entryBytes.toNat = some entries ↔
      (0 ≤ h.entryOffset sectorSize ∧ h.entryOffset sectorSize + h.entryBytes ≤ disk.length) ∧
        entries = entryArray disk sectorSize h := by
  rw [readAt_eq_some, Int.toNat_of_nonneg hpos.le]
  rfl

/-- `ParseWithSector` accepts exactly the disks with a GPT. -/
theorem parseWithSector_eq_ok_iff {l : Layout} :
    parseWithSector disk diskSize sectorSize = .ok l ↔
      ValidGPT disk diskSize sectorSize ∧ l = gptLayout disk diskSize sectorSize := by
  unfold parseWithSector
  simp only [ite_error_eq_ok, not_or, not_lt, not_not]
  constructor
  · rintro ⟨hsector, hsize, h⟩
    split at h
    · cases h
    next mbr hmbr =>
      obtain ⟨-, rfl⟩ := readAt_zero.1 hmbr
      rw [ite_error_eq_ok, not_not] at h
      obtain ⟨hboot, h⟩ := h
      split at h
      · cases h
      next hdr hhdr =>
        obtain ⟨hlen, rfl⟩ := readAt_header.1 hhdr
        obtain ⟨hsealed, hmy, hes, heb, entries, hread, hacrc, ps, hps, hback, rfl⟩ :=
          parseHeader_eq_ok_iff.1 h
        obtain ⟨harray, hentries⟩ := (readAt_entries heb.1).1 hread
        rw [hentries] at hacrc hps
        obtain ⟨hpass, rfl⟩ := parseEntries_eq_ok_iff.1 hps
        exact ⟨⟨hsector, hsize, hlen, (hasBootSignature_take hsector.1).1 hboot, hsealed, hmy,
          hes, heb, harray, hacrc, hpass, hback⟩, rfl⟩
  · rintro ⟨hv, rfl⟩
    refine ⟨hv.sector, hv.size, ?_⟩
    have hlen := hv.length
    rw [readAt_zero.2 ⟨by omega, rfl⟩]
    simp only [ite_error_eq_ok, not_not]
    refine ⟨(hasBootSignature_take hv.sector.1).2 hv.boot, ?_⟩
    rw [readAt_header.2 ⟨hlen, rfl⟩]
    exact parseHeader_eq_ok_iff.2 ⟨hv.header, hv.myLBA, hv.entrySize, hv.entryBytes, _,
      (readAt_entries hv.entryBytes.1).2 ⟨hv.array, rfl⟩, hv.arrayCRC, _,
      parseEntries_eq_ok_iff.2 ⟨hv.partitions, rfl⟩, hv.backup, rfl⟩

/-! ## Addresses near the word boundary -/

lemma int64_range (n : ℤ) : -2 ^ 63 ≤ int64 n ∧ int64 n < 2 ^ 63 := by
  unfold int64
  simp only
  split <;> omega

/-- Only a multiple of the word range is lost. -/
lemma int64_shift (n : ℤ) : ∃ k : ℤ, int64 n = n + 2 ^ 64 * k := by
  unfold int64
  simp only
  split
  · exact ⟨-(n / 2 ^ 64), by omega⟩
  · exact ⟨-(n / 2 ^ 64) - 1, by omega⟩

lemma int64_eq {n : ℤ} (h : -2 ^ 63 ≤ n ∧ n < 2 ^ 63) : int64 n = n := by
  obtain ⟨k, hk⟩ := int64_shift n
  have := int64_range n
  omega

lemma int64_add_mul (n k : ℤ) : int64 (n + 2 ^ 64 * k) = int64 n := by
  unfold int64
  rw [Int.add_mul_emod_self_left]

/-- The end of a partition as the parser computes it. -/
lemma Partition.int64_stop (p : Partition) (sectorSize : ℕ) :
    int64 (p.offset sectorSize + p.length sectorSize) =
      int64 ((p.lastLBA + 1) * sectorSize : ℕ) := by
  unfold Partition.offset Partition.length
  obtain ⟨a, ha⟩ := int64_shift p.firstLBA
  obtain ⟨b, hb⟩ := int64_shift ((p.lastLBA : ℤ) - p.firstLBA + 1)
  obtain ⟨c, hc⟩ := int64_shift (int64 p.firstLBA * sectorSize)
  obtain ⟨d, hd⟩ := int64_shift (int64 ((p.lastLBA : ℤ) - p.firstLBA + 1) * sectorSize)
  have hsum : (p.firstLBA + 2 ^ 64 * a) * sectorSize + 2 ^ 64 * c +
      ((p.lastLBA - p.firstLBA + 1 + 2 ^ 64 * b) * sectorSize + 2 ^ 64 * d) =
        ((p.lastLBA + 1) * sectorSize : ℕ) +
          2 ^ 64 * (a * sectorSize + b * sectorSize + c + d) := by
    push_cast
    ring
  rw [hc, hd, ha, hb, hsum, int64_add_mul]

/-- The region lies on a disk of the given size. -/
def Range.Within (r : Range) (size : ℤ) : Prop :=
  0 ≤ r.offset ∧ 0 ≤ r.length ∧ r.offset + r.length ≤ size

instance (r : Range) (size : ℤ) : Decidable (r.Within size) :=
  inferInstanceAs (Decidable (_ ∧ _ ∧ _))

/-- The partitions and the regions of a layout lie on the disk. -/
structure OnDisk (l : Layout) : Prop where
  ordered : ∀ p ∈ l.partitions, p.firstLBA ≤ p.lastLBA
  within : ∀ p ∈ l.partitions, (((p.lastLBA + 1) * l.sectorSize : ℕ) : ℤ) ≤ l.diskSize
  primary : l.primaryRegion.Within l.diskSize
  backup : l.backupRegion.Within l.diskSize
  aux : ∀ r ∈ l.auxRegions, r.Within l.diskSize

/-- The offset of the backup header. -/
def Header.alternateOffset (h : Header) (sectorSize : ℕ) : ℤ :=
  int64 (int64 h.alternateLBA * sectorSize)

/-- No address overflows an offset, and the entry array lies on the disk. -/
structure GptInBounds (disk : Bytes) (diskSize : ℤ) (sectorSize : ℕ) : Prop where
  partitions : ∀ p ∈ gptPartitions disk sectorSize, (p.lastLBA + 1) * sectorSize < 2 ^ 63
  array : (primaryHeader disk sectorSize).entryOffset sectorSize +
    (primaryHeader disk sectorSize).entryBytes ≤ diskSize
  alternate : 0 ≤ (primaryHeader disk sectorSize).alternateOffset sectorSize ∧
    (primaryHeader disk sectorSize).alternateOffset sectorSize + sectorSize < 2 ^ 63

/-- When the backup region of a parsed layout lies on the disk. -/
lemma backupRegion_within_iff {diskSize : ℤ} {sectorSize : ℕ} {h : Header} {ps : List Partition}
    (hsize : diskSize < 2 ^ 63) (hsector : 512 ≤ sectorSize ∧ sectorSize ≤ 4096)
    (hbytes : 0 < h.entryBytes ∧ h.entryBytes ≤ maxEntryBytes)
    (hoff : 0 ≤ (layoutOf diskSize sectorSize h ps).backupRegion.offset)
    (hstop : int64 ((layoutOf diskSize sectorSize h ps).backupRegion.offset +
      (layoutOf diskSize sectorSize h ps).backupRegion.length) ≤ diskSize) :
    (layoutOf diskSize sectorSize h ps).backupRegion.Within diskSize ↔
      0 ≤ h.alternateOffset sectorSize ∧ h.alternateOffset sectorSize + sectorSize < 2 ^ 63 := by
  change 0 ≤ int64 (h.alternateOffset sectorSize - h.entryBytes) at hoff
  change int64 (int64 (h.alternateOffset sectorSize - h.entryBytes) +
    int64 (int64 (h.alternateOffset sectorSize + sectorSize) -
      int64 (h.alternateOffset sectorSize - h.entryBytes))) ≤ diskSize at hstop
  change (0 ≤ int64 (h.alternateOffset sectorSize - h.entryBytes) ∧
    0 ≤ int64 (int64 (h.alternateOffset sectorSize + sectorSize) -
      int64 (h.alternateOffset sectorSize - h.entryBytes)) ∧
    int64 (h.alternateOffset sectorSize - h.entryBytes) +
      int64 (int64 (h.alternateOffset sectorSize + sectorSize) -
        int64 (h.alternateOffset sectorSize - h.entryBytes)) ≤ diskSize) ↔ _
  have hA := int64_range (int64 h.alternateLBA * sectorSize)
  change -2 ^ 63 ≤ h.alternateOffset sectorSize ∧ h.alternateOffset sectorSize < 2 ^ 63 at hA
  generalize h.alternateOffset sectorSize = A at *
  unfold maxEntryBytes at hbytes
  generalize h.entryBytes = eb at *
  obtain ⟨j, hj⟩ := int64_shift (A - eb)
  obtain ⟨k, hk⟩ := int64_shift (A + sectorSize)
  have hjr := int64_range (A - eb)
  have hlen : int64 (int64 (A + sectorSize) - int64 (A - eb)) = sectorSize + eb := by
    rw [hk, hj, show A + sectorSize + 2 ^ 64 * k - (A - eb + 2 ^ 64 * j) =
      sectorSize + eb + 2 ^ 64 * (k - j) by ring, int64_add_mul]
    exact int64_eq (by omega)
  rw [hlen] at hstop ⊢
  obtain ⟨m, hm⟩ := int64_shift (int64 (A - eb) + (sectorSize + eb))
  have hmr := int64_range (int64 (A - eb) + (sectorSize + eb))
  omega

lemma primaryRegion_within_iff {h : Header} {ps : List Partition} (hsize : diskSize < 2 ^ 63)
    (hoff : 0 ≤ h.entryOffset sectorSize)
    (hbytes : 0 < h.entryBytes ∧ h.entryBytes ≤ maxEntryBytes) :
    (layoutOf diskSize sectorSize h ps).primaryRegion.Within diskSize ↔
      h.entryOffset sectorSize + h.entryBytes ≤ diskSize := by
  change (0 ≤ (0 : ℤ) ∧ 0 ≤ int64 (h.entryOffset sectorSize + h.entryBytes) ∧
    0 + int64 (h.entryOffset sectorSize + h.entryBytes) ≤ diskSize) ↔ _
  have hE : h.entryOffset sectorSize < 2 ^ 63 := (int64_range _).2
  unfold maxEntryBytes at hbytes
  obtain ⟨k, hk⟩ := int64_shift (h.entryOffset sectorSize + h.entryBytes)
  have hkr := int64_range (h.entryOffset sectorSize + h.entryBytes)
  omega

/-- A parsed GPT lies on the disk exactly if no address overflows. -/
theorem gptLayout_onDisk_iff (hv : ValidGPT disk diskSize sectorSize) (hsize : diskSize < 2 ^ 63) :
    OnDisk (gptLayout disk diskSize sectorSize) ↔ GptInBounds disk diskSize sectorSize := by
  have hback := @backupRegion_within_iff _ _ _ (gptPartitions disk sectorSize) hsize
    ⟨hv.sector.1, hv.sector.2.1⟩ hv.entryBytes hv.backup.1 hv.backup.2
  constructor
  · intro h
    refine ⟨fun p hp => ?_, ?_, hback.1 h.backup⟩
    · have := h.within p hp
      change (((p.lastLBA + 1) * sectorSize : ℕ) : ℤ) ≤ diskSize at this
      omega
    · exact (primaryRegion_within_iff hsize hv.array.1 hv.entryBytes).1 h.primary
  · intro h
    refine ⟨fun p hp => (hv.partitions p hp).1, fun p hp => ?_, ?_, hback.2 h.alternate,
      fun r hr => absurd hr (List.not_mem_nil)⟩
    · have hpass := (hv.partitions p hp).2
      have hlt := h.partitions p hp
      rw [p.int64_stop, int64_eq (by omega)] at hpass
      exact hpass
    · exact (primaryRegion_within_iff hsize hv.array.1 hv.entryBytes).2 h.array

end DiskNexus.DiskLayout
