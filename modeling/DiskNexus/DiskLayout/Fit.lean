import DiskNexus.DiskLayout.Mbr

/-!
# Fitting a layout onto another drive: logical partitions

`PlanFit` takes a partition for a logical one by its number: the primaries come first, and their
number is that of the partitions that start before the first sector of the chain.
-/

namespace DiskNexus.DiskLayout

open Binary

/-- `auxStart`. -/
def auxStart (l : Layout) : ℕ :=
  let first := l.auxRegions.foldl
    (fun first r => if first < 0 ∨ r.offset < first then r.offset else first) (-1)
  if first < 0 then 2 ^ 64 - 1 else first.toNat / l.sectorSize

/-- `mbrPrimarySlots`. -/
def mbrPrimarySlots (l : Layout) : ℕ :=
  l.partitions.countP fun p => l.auxRegions = [] ∨ p.firstLBA < auxStart l

/-- The closure `isLogical` of `PlanFit`. -/
def isLogical (l : Layout) (p : Partition) : Prop := l.scheme = .mbr ∧ mbrPrimarySlots l ≤ p.index

/-- The chain does not go below the sector its links are relative to. -/
lemma le_of_mem_ebrChain {disk : Bytes} {sectorSize extStart n lba x : ℕ} (hlba : extStart ≤ lba)
    (hx : x ∈ ebrChain disk sectorSize extStart n lba) : extStart ≤ x := by
  induction n generalizing lba with
  | zero => cases hx
  | succ n ih =>
    rcases List.mem_cons.1 hx with rfl | hx
    · exact hlba
    · split at hx
      · exact ih (Nat.le_add_right _ _) hx
      · cases hx

/-- The first sector of all is the start of the chain. -/
lemma auxStart_eq {l : Layout} {lba : ℕ} {ebrs : List ℕ} (hsize : 0 < l.sectorSize)
    (haux : l.auxRegions = (lba :: ebrs).map fun lba => ⟨(lba * l.sectorSize : ℕ), l.sectorSize⟩)
    (hmin : ∀ x ∈ ebrs, lba ≤ x) : auxStart l = lba := by
  have hstay : ∀ (xs : List ℕ), (∀ x ∈ xs, lba ≤ x) →
      (xs.map fun lba => (⟨(lba * l.sectorSize : ℕ), l.sectorSize⟩ : Range)).foldl
        (fun first r => if first < 0 ∨ r.offset < first then r.offset else first)
        ((lba * l.sectorSize : ℕ) : ℤ) = (lba * l.sectorSize : ℕ) := by
    intro xs hxs
    induction xs with
    | nil => rfl
    | cons x xs ih =>
      obtain ⟨hx, hxs⟩ := List.forall_mem_cons.1 hxs
      have hle : lba * l.sectorSize ≤ x * l.sectorSize := Nat.mul_le_mul_right _ hx
      rw [List.map_cons, List.foldl_cons, if_neg (by simp only; omega)]
      exact ih hxs
  have hfirst : l.auxRegions.foldl
      (fun first r => if first < 0 ∨ r.offset < first then r.offset else first) (-1) =
        (lba * l.sectorSize : ℕ) := by
    rw [haux, List.map_cons, List.foldl_cons]
    exact hstay ebrs hmin
  rw [auxStart, hfirst, if_neg (by omega), Int.toNat_natCast, Nat.mul_div_cancel _ hsize]

lemma countP_numbered (q : ℕ → Bool) (index : ℕ) (xs : List (ℕ × MbrEntry)) :
    (numbered index xs).countP (fun p => q p.firstLBA) =
      xs.countP fun x => q (x.1 + x.2.startLBA) := by
  induction xs generalizing index with
  | nil => rfl
  | cons x xs ih =>
    rw [numbered, List.countP_cons, List.countP_cons, ih]
    rfl

/-- The planner counts the primaries that start before the extended partition. -/
lemma mbrPrimarySlots_eq {disk : Bytes} {diskSize : ℤ} {sectorSize : ℕ} {es : List MbrEntry}
    {l : Layout} (hsize : 0 < sectorSize) (h : MbrParsed disk diskSize sectorSize es l) :
    mbrPrimarySlots l =
      (primaries es).countP fun e => ∀ x ∈ extendeds es, e.startLBA < x.startLBA := by
  have hparts : l.partitions = numbered 0 (mbrSlots disk sectorSize es) := by rw [h.layout]; rfl
  have hss : l.sectorSize = sectorSize := by rw [h.layout]; rfl
  have haux : l.auxRegions = (mbrChain disk sectorSize es).map fun lba =>
      ⟨(lba * l.sectorSize : ℕ), l.sectorSize⟩ := by rw [h.layout]; rfl
  rw [mbrPrimarySlots, hparts, countP_numbered fun first => l.auxRegions = [] ∨ first < auxStart l,
    mbrSlots, List.countP_append, List.countP_map]
  rcases hext : extendeds es with _ | ⟨x, _ | ⟨y, more⟩⟩
  · have hchain : mbrChain disk sectorSize es = [] := by rw [mbrChain, hext, List.flatMap_nil]
    simp [haux, hchain, logicals]
  · have hchain : mbrChain disk sectorSize es =
        ebrChain disk sectorSize x.startLBA maxLogicals x.startLBA := by
      rw [mbrChain, hext, List.flatMap_singleton]
    have hmin : ∀ lba ∈ mbrChain disk sectorSize es, x.startLBA ≤ lba := by
      rw [hchain]
      exact fun lba => le_of_mem_ebrChain le_rfl
    obtain ⟨rest, hrest⟩ : ∃ rest, mbrChain disk sectorSize es = x.startLBA :: rest :=
      ⟨_, hchain.trans rfl⟩
    have hstart : auxStart l = x.startLBA :=
      auxStart_eq (hss ▸ hsize) (hrest ▸ haux) fun y hy =>
        hmin y (hrest ▸ .tail _ hy)
    have hsome : l.auxRegions ≠ [] := by simp [haux, hrest]
    -- a logical partition lies behind its sector, and so behind the start of the chain
    have hlogical : (logicals disk sectorSize (mbrChain disk sectorSize es)).countP
        (fun y => l.auxRegions = [] ∨ y.1 + y.2.startLBA < auxStart l) = 0 := by
      refine List.countP_eq_zero.2 fun y hy => ?_
      obtain ⟨lba, hlba, rfl⟩ := List.mem_map.1 (List.mem_filter.1 hy).1
      have := hmin lba hlba
      simp only [hsome, hstart, false_or, decide_eq_true_eq]
      omega
    rw [hlogical, Nat.add_zero, hstart]
    refine List.countP_congr fun e _ => ?_
    simp [hsome]
  · have hone := h.one
    rw [hext] at hone
    simp at hone

/-- **Primaries and logicals are told apart** exactly if all primaries start before the extended
partition. -/
theorem mbrPrimarySlots_eq_iff {disk : Bytes} {diskSize : ℤ} {sectorSize : ℕ} {sector : Bytes}
    {l : Layout} (hsize : 0 < sectorSize) (h : parseMBR disk diskSize sectorSize sector = .ok l) :
    (mbrPrimarySlots l = (primaries (readMBREntries sector)).length ∧
      ∀ i p, l.partitions[i]? = some p →
        (isLogical l p ↔ (primaries (readMBREntries sector)).length ≤ i)) ↔
      ∀ e ∈ primaries (readMBREntries sector), ∀ x ∈ extendeds (readMBREntries sector),
        e.startLBA < x.startLBA := by
  have hparsed := parseMBR_ok h
  have hcount : mbrPrimarySlots l = (primaries (readMBREntries sector)).length ↔
      ∀ e ∈ primaries (readMBREntries sector), ∀ x ∈ extendeds (readMBREntries sector),
        e.startLBA < x.startLBA := by
    rw [mbrPrimarySlots_eq hsize hparsed, List.countP_eq_length]
    simp only [decide_eq_true_eq]
  rw [← hcount, and_iff_left_iff_imp]
  intro heq i p hp
  have hindex : p.index = i := by
    have hmap : (l.partitions.map Partition.index)[i]? = some p.index := by
      rw [List.getElem?_map, hp]
      rfl
    rw [hparsed.layout] at hmap
    change ((numbered 0 _).map Partition.index)[i]? = some p.index at hmap
    rw [map_index_numbered, List.getElem?_eq_some_iff] at hmap
    obtain ⟨_, hmap⟩ := hmap
    simpa using hmap.symm
  have hscheme : l.scheme = .mbr := by rw [hparsed.layout]; rfl
  rw [isLogical, heq, hindex, and_iff_right hscheme]

/-- A boot sector, or that of a logical partition; a slot is a type, a start and a length. -/
def bootSector (slots : List (UInt8 × ℕ × ℕ)) : Bytes :=
  List.replicate 446 0 ++ ((slots.flatMap fun s =>
      [0, 0, 0, 0, s.1, 0, 0, 0] ++ (le 4 s.2.1 ++ le 4 s.2.2)) ++
    (List.replicate (16 * (4 - slots.length)) 0 ++ [0x55, 0xAA]))

/-- A primary partition, and one in an extended partition behind it. -/
def extendedDisk : Bytes :=
  bootSector [(7, 1, 1), (5, 2, 2)] ++ (List.replicate 512 0 ++
    (bootSector [(7, 1, 1)] ++ List.replicate 512 0))

theorem mbrPrimarySlots_eq_iff_extended :
    ∃ l, parseMBR extendedDisk 2048 512 (extendedDisk.take 512) = .ok l ∧ l.partitions.length = 2 ∧
      mbrPrimarySlots l = 1 ∧ ∀ i p, l.partitions[i]? = some p → (isLogical l p ↔ 1 ≤ i) := by
  have hprimaries : (primaries (readMBREntries (extendedDisk.take 512))).length = 1 := by
    decide +kernel
  obtain ⟨l, hparse, hlen⟩ :
      ∃ l, parseMBR extendedDisk 2048 512 (extendedDisk.take 512) = .ok l ∧
        l.partitions.length = 2 :=
    ⟨mbrLayout 2048 512 1 [partitionAt 0 0 ⟨false, 0x07, 1, 1⟩, partitionAt 1 2 ⟨false, 0x07, 1, 1⟩]
      [⟨1024, 512⟩], by decide +kernel⟩
  refine ⟨l, hparse, hlen, ?_⟩
  rw [← hprimaries]
  exact (mbrPrimarySlots_eq_iff (by decide) hparse).2 (by decide +kernel)

/-- An extended partition without a logical one, and a primary partition behind it. -/
def behindExtended : Bytes :=
  bootSector [(5, 1, 1), (7, 2, 1)] ++ (bootSector [] ++ List.replicate 512 0)

/-- The planner takes the primary partition for a logical one. -/
theorem mbrPrimarySlots_behindExtended :
    ∃ l, parseMBR behindExtended 1536 512 (behindExtended.take 512) = .ok l ∧
      (primaries (readMBREntries (behindExtended.take 512))).length = 1 ∧ mbrPrimarySlots l = 0 :=
  ⟨mbrLayout 1536 512 1 [partitionAt 0 0 ⟨false, 0x07, 2, 1⟩] [⟨512, 512⟩], by decide +kernel⟩

end DiskNexus.DiskLayout
