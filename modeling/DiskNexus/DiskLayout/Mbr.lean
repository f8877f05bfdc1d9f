import DiskNexus.DiskLayout.Gpt

/-!
# MBR layouts, and the parser of a disk

The boot sector of an MBR disk has four slots. One may be an extended partition, whose logical
partitions hang on a chain of sectors (EBRs). A disk is probed for a GPT with either sector size and
then for an MBR, whose addresses overflow no offset.

## Main results

`parseMBR_ok`, `parse_onDisk_iff`
-/

namespace DiskNexus.DiskLayout

open Binary Crc32

/-! ## The boot sector -/

/-- `mbrEntry`. -/
structure MbrEntry where
  bootable : Bool
  typ : UInt8
  startLBA : ℕ
  sectors : ℕ
  deriving DecidableEq

/-- `mbrEntryBase`. -/
def mbrEntryBase : ℕ := 0x1BE

/-- `mbrTypeGPTProt`. -/
def mbrTypeGPTProt : UInt8 := 0xEE

/-- The slot number `i` of a boot sector. -/
def mbrEntry (sector : Bytes) (i : ℕ) : MbrEntry :=
  let e := (sector.drop (mbrEntryBase + i * 16)).take 16
  { bootable := e.getD 0 0 = 0x80
    typ := e.getD 4 0
    startLBA := fieldAt e 8 4
    sectors := fieldAt e 12 4 }

/-- `readMBREntries`. -/
def readMBREntries (sector : Bytes) : List MbrEntry := (List.range 4).map (mbrEntry sector)

/-- A slot is in use: neither its type nor its size is zero. -/
def MbrEntry.Used (e : MbrEntry) : Prop := e.typ ≠ 0 ∧ e.sectors ≠ 0

instance (e : MbrEntry) : Decidable e.Used := inferInstanceAs (Decidable (_ ∧ _))

/-- `isExtended`. -/
def isExtended (t : UInt8) : Bool := t = 0x05 ∨ t = 0x0F

/-- The partition of a slot of a sector at `base`. -/
def partitionAt (index base : ℕ) (e : MbrEntry) : Partition where
  index := index
  typeGUID := []
  partGUID := []
  name := []
  firstLBA := base + e.startLBA
  lastLBA := base + e.startLBA + e.sectors - 1
  attributes := 0
  mbrType := e.typ
  bootable := e.bootable

/-- The variables of the loop over the boot sector. -/
structure Scan where
  firstPartLBA : ℕ
  slot : ℕ
  partitions : List Partition
  extended : Option MbrEntry

/-- The first sector of a partition so far, with one more slot. -/
def lower (firstPartLBA : ℕ) (e : MbrEntry) : ℕ :=
  if firstPartLBA = 0 ∨ e.startLBA < firstPartLBA then e.startLBA else firstPartLBA

/-- The loop over the slots of the boot sector. -/
def scanEntries : List MbrEntry → Scan → Except String Scan
  | [], s => .ok s
  | e :: es, s =>
    if ¬ e.Used then scanEntries es s
    else if isExtended e.typ then
      match s.extended with
      | some _ => .error "MBR has multiple extended partitions"
      | none =>
        scanEntries es { s with firstPartLBA := lower s.firstPartLBA e, extended := some e }
    else
      scanEntries es
        { s with
          firstPartLBA := lower s.firstPartLBA e
          slot := s.slot + 1
          partitions := s.partitions ++ [partitionAt s.slot 0 e] }

/-! ## The chain -/

/-- `maxLogicals`. -/
def maxLogicals : ℕ := 128

/-- `walkEBRChain`, with the number of sectors it may still visit. -/
def walkEBRChain (disk : Bytes) (sectorSize extStart : ℕ) (diskSize : ℤ) :
    ℕ → ℕ → ℕ → Except String (List Partition × List Range)
  | 0, _, _ => .error s!"EBR chain exceeds {maxLogicals} logicals (loop?)"
  | n + 1, ebrLBA, slot =>
    let off : ℤ := (ebrLBA * sectorSize : ℕ)
    if diskSize ≤ off then .error s!"EBR at LBA {ebrLBA} beyond disk end"
    else
      match readAt disk off sectorSize with
      | none => .error s!"reading EBR at LBA {ebrLBA}"
      | some buf =>
        if ¬ HasBootSignature buf then .error s!"EBR at LBA {ebrLBA} lacks boot signature"
        else
          let logical := mbrEntry buf 0
          let link := mbrEntry buf 1
          let here := if logical.Used then [partitionAt slot ebrLBA logical] else []
          if ¬ link.Used then .ok (here, [⟨off, sectorSize⟩])
          else
            match walkEBRChain disk sectorSize extStart diskSize n (extStart + link.startLBA)
              (slot + here.length) with
            | .error e => .error e
            | .ok (out, ebrs) => .ok (here ++ out, ⟨off, sectorSize⟩ :: ebrs)

/-- The layout of an MBR disk. -/
def mbrLayout (diskSize : ℤ) (sectorSize firstPartLBA : ℕ) (partitions : List Partition)
    (auxRegions : List Range) : Layout where
  scheme := .mbr
  sectorSize := sectorSize
  diskSize := diskSize
  diskGUID := []
  firstUsableLBA := 0
  lastUsableLBA := 0
  alternateLBA := 0
  partitions := partitions
  auxRegions := auxRegions
  primaryRegion := ⟨0, (firstPartLBA * sectorSize : ℕ)⟩
  backupRegion := ⟨0, 0⟩

/-- `parseMBR`. -/
def parseMBR (disk : Bytes) (diskSize : ℤ) (sectorSize : ℕ) (sector : Bytes) :
    Except String Layout :=
  match scanEntries (readMBREntries sector) ⟨0, 0, [], none⟩ with
  | .error e => .error e
  | .ok s =>
    match s.extended with
    | none =>
      if s.partitions = [] then .error "MBR carries no partitions"
      else .ok (mbrLayout diskSize sectorSize s.firstPartLBA s.partitions [])
    | some e =>
      match walkEBRChain disk sectorSize e.startLBA diskSize maxLogicals e.startLBA s.slot with
      | .error e => .error e
      | .ok (logicals, ebrs) =>
        .ok (mbrLayout diskSize sectorSize s.firstPartLBA (s.partitions ++ logicals) ebrs)

/-- `Parse`. -/
def parse (disk : Bytes) (diskSize : ℤ) : Except String Layout :=
  match parseWithSector disk diskSize 512, parseWithSector disk diskSize 4096 with
  | .ok l, _ => .ok l
  | .error _, .ok l => .ok l
  | .error firstErr, .error _ =>
    match readAt disk 0 512 with
    | none => .error firstErr
    | some sector =>
      if ¬ HasBootSignature sector then .error firstErr
      else
        let entries := readMBREntries sector
        let protective := entries.any fun e => e.typ = mbrTypeGPTProt
        let real := entries.any fun e => e.typ ≠ mbrTypeGPTProt ∧ e.Used
        if protective ∧ ¬ real then
          .error ("corrupt GPT: protective MBR present but no valid GPT header at either sector " ++
            s!"size ({firstErr})")
        else if real then parseMBR disk diskSize 512 sector
        else .error firstErr

/-! ## What a parsed MBR consists of -/

/-- The slots with a partition of their own. -/
def primaries (es : List MbrEntry) : List MbrEntry :=
  es.filter fun e => e.Used ∧ ¬ isExtended e.typ

/-- The slots with an extended partition. -/
def extendeds (es : List MbrEntry) : List MbrEntry :=
  es.filter fun e => e.Used ∧ isExtended e.typ

/-- The partitions of slots of sectors, numbered from `index` on. -/
def numbered (index : ℕ) : List (ℕ × MbrEntry) → List Partition
  | [] => []
  | (base, e) :: es => partitionAt index base e :: numbered (index + 1) es

lemma numbered_append (index : ℕ) (xs ys : List (ℕ × MbrEntry)) :
    numbered index (xs ++ ys) = numbered index xs ++ numbered (index + xs.length) ys := by
  induction xs generalizing index with
  | nil => simp [numbered]
  | cons x xs ih =>
    simp only [List.cons_append, numbered, ih, List.length_cons]
    rw [Nat.add_right_comm, Nat.add_assoc]

lemma map_index_numbered (index : ℕ) (xs : List (ℕ × MbrEntry)) :
    (numbered index xs).map Partition.index = List.range' index xs.length := by
  induction xs generalizing index with
  | nil => rfl
  | cons x xs ih =>
    rw [numbered, List.map_cons, ih, List.length_cons, List.range'_succ]
    rfl

lemma forall_mem_numbered {P : ℕ → ℕ → Prop} {index : ℕ} {xs : List (ℕ × MbrEntry)} :
    (∀ p ∈ numbered index xs, P p.firstLBA p.lastLBA) ↔
      ∀ x ∈ xs, P (x.1 + x.2.startLBA) (x.1 + x.2.startLBA + x.2.sectors - 1) := by
  induction xs generalizing index with
  | nil => simp [numbered]
  | cons x xs ih =>
    simp only [numbered, List.forall_mem_cons, ih]
    rfl

/-- What the loop over the slots gives. -/
structure Scanned (es : List MbrEntry) (s s' : Scan) : Prop where
  slot : s'.slot = s.slot + (primaries es).length
  partitions : s'.partitions =
    s.partitions ++ numbered s.slot ((primaries es).map fun e => (0, e))
  extended : s'.extended.toList = s.extended.toList ++ extendeds es
  first : s'.firstPartLBA = (es.filter fun e => e.Used).foldl lower s.firstPartLBA

lemma primaries_cons (e : MbrEntry) (es : List MbrEntry) :
    primaries (e :: es) =
      if e.Used ∧ ¬ isExtended e.typ then e :: primaries es else primaries es := by
  simp [primaries, List.filter_cons]

lemma extendeds_cons (e : MbrEntry) (es : List MbrEntry) :
    extendeds (e :: es) = if e.Used ∧ isExtended e.typ then e :: extendeds es
      else extendeds es := by
  simp [extendeds, List.filter_cons]

variable {es : List MbrEntry} {disk : Bytes} {sectorSize : ℕ} {diskSize : ℤ} {l : Layout}

lemma scanEntries_ok {s s' : Scan} (h : scanEntries es s = .ok s') :
    Scanned es s s' := by
  fun_induction scanEntries es s with
  | case1 s =>
    cases h
    exact ⟨rfl, by simp [primaries, numbered], by simp [extendeds], rfl⟩
  | case2 e es s hused ih =>
    obtain ⟨h1, h2, h3, h4⟩ := ih h
    exact ⟨by simpa [primaries_cons, hused] using h1, by simpa [primaries_cons, hused] using h2,
      by simpa [extendeds_cons, hused] using h3, by simpa [hused] using h4⟩
  | case3 e es s hused hext x hx => cases h
  | case4 e es s hused hext hnone ih =>
    obtain ⟨h1, h2, h3, h4⟩ := ih h
    rw [not_not] at hused
    exact ⟨by simpa [primaries_cons, hused, hext] using h1,
      by simpa [primaries_cons, hused, hext] using h2,
      by simpa [extendeds_cons, hused, hext, hnone] using h3, by simpa [hused] using h4⟩
  | case5 e es s hused hext ih =>
    obtain ⟨h1, h2, h3, h4⟩ := ih h
    rw [not_not] at hused
    refine ⟨?_, ?_, by simpa [extendeds_cons, hused, hext] using h3, by simpa [hused] using h4⟩
    · rw [h1, primaries_cons, if_pos ⟨hused, hext⟩, List.length_cons, Nat.add_right_comm]
      rfl
    · rw [h2, primaries_cons, if_pos ⟨hused, hext⟩, List.map_cons, numbered, List.append_assoc]
      rfl

/-- A sector of a disk. -/
def sectorAt (disk : Bytes) (sectorSize lba : ℕ) : Bytes :=
  (disk.drop (lba * sectorSize)).take sectorSize

/-- The sectors of the chain of EBRs, from one of them on. -/
def ebrChain (disk : Bytes) (sectorSize extStart : ℕ) : ℕ → ℕ → List ℕ
  | 0, _ => []
  | n + 1, lba =>
    let link := mbrEntry (sectorAt disk sectorSize lba) 1
    lba :: if link.Used then ebrChain disk sectorSize extStart n (extStart + link.startLBA) else []

/-- The logical partitions of EBRs. -/
def logicals (disk : Bytes) (sectorSize : ℕ) (ebrs : List ℕ) : List (ℕ × MbrEntry) :=
  (ebrs.map fun lba => (lba, mbrEntry (sectorAt disk sectorSize lba) 0)).filter fun x => x.2.Used

/-- A chain that was walked to its end. -/
structure Walked (disk : Bytes) (sectorSize : ℕ) (diskSize : ℤ) (slot : ℕ) (ebrs : List ℕ)
    (out : List Partition) (regions : List Range) : Prop where
  out : out = numbered slot (logicals disk sectorSize ebrs)
  regions : regions = ebrs.map fun lba => ⟨(lba * sectorSize : ℕ), sectorSize⟩
  starts : ∀ lba ∈ ebrs, ((lba * sectorSize : ℕ) : ℤ) < diskSize
  held : ∀ lba ∈ ebrs, lba * sectorSize + sectorSize ≤ disk.length

lemma walkEBRChain_ok {extStart : ℕ} {n lba slot : ℕ} {out : List Partition} {regions : List Range}
    (h : walkEBRChain disk sectorSize extStart diskSize n lba slot = .ok (out, regions)) :
    Walked disk sectorSize diskSize slot (ebrChain disk sectorSize extStart n lba) out regions := by
  induction n generalizing lba slot out regions with
  | zero => cases h
  | succ n ih =>
    unfold walkEBRChain at h
    simp only [ite_error_eq_ok, not_le] at h
    obtain ⟨hstart, h⟩ := h
    split at h
    · cases h
    next buf hbuf =>
      obtain ⟨⟨-, hlen⟩, hbuf⟩ := readAt_eq_some.1 hbuf
      have hsector : buf = sectorAt disk sectorSize lba := by
        rw [hbuf, Int.toNat_natCast]
        rfl
      rw [ite_error_eq_ok, not_not, hsector] at h
      obtain ⟨-, h⟩ := h
      have hheld : lba * sectorSize + sectorSize ≤ disk.length := by exact_mod_cast hlen
      -- the logical partition of this sector, before those of the sectors behind it
      have hhere : ∀ rest : List ℕ, numbered slot (logicals disk sectorSize (lba :: rest)) =
          (if (mbrEntry (sectorAt disk sectorSize lba) 0).Used then
            [partitionAt slot lba (mbrEntry (sectorAt disk sectorSize lba) 0)] else []) ++
          numbered (slot + (if (mbrEntry (sectorAt disk sectorSize lba) 0).Used then
            [partitionAt slot lba (mbrEntry (sectorAt disk sectorSize lba) 0)] else []).length)
            (logicals disk sectorSize rest) := by
        intro rest
        by_cases hused : (mbrEntry (sectorAt disk sectorSize lba) 0).Used
        · simp [logicals, hused, numbered]
        · simp [logicals, hused]
      by_cases hlink : (mbrEntry (sectorAt disk sectorSize lba) 1).Used
      · rw [if_neg (not_not.2 hlink)] at h
        split at h
        · cases h
        next out' regions' hwalk =>
          obtain ⟨rfl, rfl, hstarts, hhelds⟩ := ih hwalk
          cases h
          simp only [ebrChain, if_pos hlink]
          exact ⟨(hhere _).symm, rfl, List.forall_mem_cons.2 ⟨hstart, hstarts⟩,
            List.forall_mem_cons.2 ⟨hheld, hhelds⟩⟩
      · rw [if_pos hlink] at h
        cases h
        simp only [ebrChain, if_neg hlink]
        refine ⟨?_, rfl, by simpa using hstart, by simpa using hheld⟩
        rw [hhere]
        simp [logicals, numbered]

/-- The sectors of the chain that a boot sector leads to. -/
def mbrChain (disk : Bytes) (sectorSize : ℕ) (es : List MbrEntry) : List ℕ :=
  (extendeds es).flatMap fun e => ebrChain disk sectorSize e.startLBA maxLogicals e.startLBA

/-- The first sector of a partition. -/
def mbrFirst (es : List MbrEntry) : ℕ := (es.filter fun e => e.Used).foldl lower 0

/-- The slots with a partition, and what their addresses are relative to. -/
def mbrSlots (disk : Bytes) (sectorSize : ℕ) (es : List MbrEntry) : List (ℕ × MbrEntry) :=
  (primaries es).map (fun e => (0, e)) ++ logicals disk sectorSize (mbrChain disk sectorSize es)

/-- What the parser gives for the slots of a boot sector. -/
structure MbrParsed (disk : Bytes) (diskSize : ℤ) (sectorSize : ℕ) (es : List MbrEntry)
    (l : Layout) : Prop where
  layout : l = mbrLayout diskSize sectorSize (mbrFirst es)
    (numbered 0 (mbrSlots disk sectorSize es))
    ((mbrChain disk sectorSize es).map fun lba => ⟨(lba * sectorSize : ℕ), sectorSize⟩)
  some : primaries es ≠ [] ∨ extendeds es ≠ []
  one : (extendeds es).length ≤ 1
  starts : ∀ lba ∈ mbrChain disk sectorSize es, ((lba * sectorSize : ℕ) : ℤ) < diskSize
  held : ∀ lba ∈ mbrChain disk sectorSize es, lba * sectorSize + sectorSize ≤ disk.length

/-- What a parsed MBR consists of. -/
theorem parseMBR_ok {sector : Bytes} (h : parseMBR disk diskSize sectorSize sector = .ok l) :
    MbrParsed disk diskSize sectorSize (readMBREntries sector) l := by
  unfold parseMBR at h
  generalize readMBREntries sector = es at h ⊢
  split at h
  · cases h
  next s hscan =>
    obtain ⟨hslot, hparts, hext, hfirst⟩ := scanEntries_ok hscan
    simp only [List.nil_append, Option.toList_none, Nat.zero_add] at hslot hparts hext hfirst
    split at h
    next hnone =>
      rw [ite_error_eq_ok] at h
      obtain ⟨hne, h⟩ := h
      cases h
      rw [hnone, Option.toList_none] at hext
      have hchain : mbrChain disk sectorSize es = [] := by
        rw [mbrChain, ← hext, List.flatMap_nil]
      refine ⟨?_, .inl fun hp => hne (by rw [hparts, hp]; rfl), by simp [← hext], ?_, ?_⟩
      · rw [hparts, hfirst, mbrSlots, hchain]
        simp [logicals, mbrFirst]
      · simp [hchain]
      · simp [hchain]
    next e hsome =>
      split at h
      · cases h
      next out regions hwalk =>
        cases h
        obtain ⟨rfl, rfl, hstarts, hheld⟩ := walkEBRChain_ok hwalk
        rw [hsome, Option.toList_some] at hext
        have hchain : mbrChain disk sectorSize es =
            ebrChain disk sectorSize e.startLBA maxLogicals e.startLBA := by
          rw [mbrChain, ← hext, List.flatMap_singleton]
        refine ⟨?_, .inr (by simp [← hext]), by simp [← hext], ?_, ?_⟩
        · rw [hparts, hfirst, hslot, mbrSlots, numbered_append, hchain, List.length_map,
            Nat.zero_add]
          rfl
        · rwa [hchain]
        · rwa [hchain]

/-! ## When a parsed layout lies on the disk -/

lemma foldl_lower (es : List MbrEntry) (first : ℕ) :
    es.foldl lower first = first ∨ ∃ e ∈ es, es.foldl lower first = e.startLBA := by
  induction es generalizing first with
  | nil => exact .inl rfl
  | cons e es ih =>
    rw [List.foldl_cons]
    obtain h | ⟨e', he', h⟩ := ih (lower first e)
    · rw [h]
      unfold lower
      split
      · exact .inr ⟨e, List.mem_cons_self, rfl⟩
      · exact .inl rfl
    · exact .inr ⟨e', .tail _ he', h⟩

/-- The partitions and the chain of an MBR end on the disk. -/
structure MbrInBounds (disk : Bytes) (diskSize : ℤ) (sectorSize : ℕ) : Prop where
  slots : ∀ x ∈ mbrSlots disk sectorSize (readMBREntries (disk.take 512)),
    (((x.1 + x.2.startLBA + x.2.sectors) * sectorSize : ℕ) : ℤ) ≤ diskSize
  ebrs : ∀ lba ∈ mbrChain disk sectorSize (readMBREntries (disk.take 512)),
    (((lba + 1) * sectorSize : ℕ) : ℤ) ≤ diskSize

lemma used_of_mem_mbrSlots {x : ℕ × MbrEntry} (h : x ∈ mbrSlots disk sectorSize es) : x.2.Used := by
  rw [mbrSlots, List.mem_append] at h
  rcases h with h | h
  · obtain ⟨e, he, rfl⟩ := List.mem_map.1 h
    exact (of_decide_eq_true (List.mem_filter.1 he).2).1
  · exact of_decide_eq_true (List.mem_filter.1 h).2

/-- The boot track ends on the disk if the partitions do. -/
lemma MbrParsed.first_le (h : MbrParsed disk diskSize sectorSize es l)
    (hslots : ∀ x ∈ mbrSlots disk sectorSize es,
      (((x.1 + x.2.startLBA + x.2.sectors) * sectorSize : ℕ) : ℤ) ≤ diskSize) :
    ((mbrFirst es * sectorSize : ℕ) : ℤ) ≤ diskSize := by
  have hprim : ∀ e ∈ primaries es, ((e.startLBA * sectorSize : ℕ) : ℤ) ≤ diskSize := by
    intro e he
    have hx := hslots (0, e) (List.mem_append_left _ (List.mem_map_of_mem he))
    refine le_trans ?_ hx
    exact_mod_cast Nat.mul_le_mul_right _ (by simp only; omega)
  -- the chain starts with the sector of the extended partition
  have hext : ∀ e ∈ extendeds es, ((e.startLBA * sectorSize : ℕ) : ℤ) ≤ diskSize := by
    intro e he
    exact (h.starts e.startLBA (List.mem_flatMap.2 ⟨e, he, .head _⟩)).le
  have hused : ∀ e ∈ es, e.Used → ((e.startLBA * sectorSize : ℕ) : ℤ) ≤ diskSize := by
    intro e he hu
    by_cases hx : isExtended e.typ
    · exact hext e (List.mem_filter.2 ⟨he, by simp [hu, hx]⟩)
    · exact hprim e (List.mem_filter.2 ⟨he, by simp [hu, hx]⟩)
  obtain hzero | ⟨e, he, hfirst⟩ := foldl_lower (es.filter fun e => e.Used) 0
  · have hsize : 0 ≤ diskSize := by
      rcases h.some with hne | hne
      · obtain ⟨e, he⟩ := List.exists_mem_of_ne_nil _ hne
        have := hprim e he
        omega
      · obtain ⟨e, he⟩ := List.exists_mem_of_ne_nil _ hne
        have := hext e he
        omega
    rw [mbrFirst, hzero]
    simpa using hsize
  · rw [mbrFirst, hfirst]
    exact hused e (List.mem_filter.1 he).1 (of_decide_eq_true (List.mem_filter.1 he).2)

lemma slot_stop_of_mem_mbrSlots {x : ℕ × MbrEntry} (h : x ∈ mbrSlots disk sectorSize es) :
    x.1 + x.2.startLBA + x.2.sectors - 1 + 1 = x.1 + x.2.startLBA + x.2.sectors := by
  have := (used_of_mem_mbrSlots h).2
  omega

/-- The partitions lie on the disk exactly if the slots do. -/
lemma MbrParsed.within_iff (h : MbrParsed disk diskSize sectorSize es l) :
    (∀ p ∈ l.partitions, (((p.lastLBA + 1) * l.sectorSize : ℕ) : ℤ) ≤ l.diskSize) ↔
      ∀ x ∈ mbrSlots disk sectorSize es,
        (((x.1 + x.2.startLBA + x.2.sectors) * sectorSize : ℕ) : ℤ) ≤ diskSize := by
  rw [h.layout]
  refine (forall_mem_numbered (P := fun _ last =>
    (((last + 1) * sectorSize : ℕ) : ℤ) ≤ diskSize)).trans ?_
  exact forall₂_congr fun x hx => by rw [slot_stop_of_mem_mbrSlots hx]

/-- A slot does not end before it starts. -/
lemma MbrParsed.ordered (h : MbrParsed disk diskSize sectorSize es l) :
    ∀ p ∈ l.partitions, p.firstLBA ≤ p.lastLBA := by
  rw [h.layout]
  refine (forall_mem_numbered (P := fun first last => first ≤ last)).2 fun x hx => ?_
  have := (used_of_mem_mbrSlots hx).2
  omega

/-- A parsed MBR lies on the disk exactly if its partitions and its chain do. -/
theorem mbrParsed_onDisk_iff
    (h : MbrParsed disk diskSize sectorSize (readMBREntries (disk.take 512)) l) :
    OnDisk l ↔ MbrInBounds disk diskSize sectorSize := by
  constructor
  · intro ho
    refine ⟨h.within_iff.1 ho.within, fun lba hlba => ?_⟩
    have haux := ho.aux ⟨(lba * sectorSize : ℕ), sectorSize⟩
      (by rw [h.layout]; exact List.mem_map_of_mem hlba)
    have hsum := haux.2.2
    rw [h.layout] at hsum
    rw [Nat.add_mul, Nat.one_mul]
    exact_mod_cast hsum
  · intro hb
    have hfirst := h.first_le hb.slots
    refine ⟨h.ordered, h.within_iff.2 hb.slots, ?_, ?_, ?_⟩
    · rw [h.layout]
      exact ⟨le_rfl, Int.natCast_nonneg _, by simpa [mbrLayout] using hfirst⟩
    · rw [h.layout]
      exact ⟨le_rfl, le_rfl, by simp only [mbrLayout]; omega⟩
    · rw [h.layout]
      intro r hr
      obtain ⟨lba, hlba, rfl⟩ := List.mem_map.1 hr
      have := hb.ebrs lba hlba
      rw [Nat.add_mul, Nat.one_mul] at this
      exact ⟨Int.natCast_nonneg _, Int.natCast_nonneg _, by exact_mod_cast this⟩

/-- What `Parse` accepts. -/
theorem parse_ok (h : parse disk diskSize = .ok l) :
    (ValidGPT disk diskSize 512 ∧ l = gptLayout disk diskSize 512) ∨
    (¬ ValidGPT disk diskSize 512 ∧ ValidGPT disk diskSize 4096 ∧
      l = gptLayout disk diskSize 4096) ∨
    (¬ ValidGPT disk diskSize 512 ∧ ¬ ValidGPT disk diskSize 4096 ∧
      MbrParsed disk diskSize 512 (readMBREntries (disk.take 512)) l) := by
  have hnot : ∀ {sectorSize : ℕ} {e : String}, parseWithSector disk diskSize sectorSize = .error e →
      ¬ ValidGPT disk diskSize sectorSize := by
    intro sectorSize e he hv
    have := he.symm.trans (parseWithSector_eq_ok_iff.2 ⟨hv, rfl⟩)
    cases this
  unfold parse at h
  split at h
  next hok =>
    cases h
    exact .inl (parseWithSector_eq_ok_iff.1 hok)
  next herr hok =>
    cases h
    obtain ⟨hv, rfl⟩ := parseWithSector_eq_ok_iff.1 hok
    exact .inr (.inl ⟨hnot herr, hv, rfl⟩)
  next firstErr _ herr herr' =>
    refine .inr (.inr ⟨hnot herr, hnot herr', ?_⟩)
    split at h
    · cases h
    next sector hread =>
      obtain ⟨-, rfl⟩ := readAt_zero.1 hread
      simp only [ite_error_eq_ok] at h
      obtain ⟨-, -, h⟩ := h
      split at h
      · exact parseMBR_ok h
      · cases h

/-- The partitions of a parsed disk have different numbers. -/
lemma parse_index_nodup (h : parse disk diskSize = .ok l) :
    (l.partitions.map Partition.index).Nodup := by
  obtain ⟨-, rfl⟩ | ⟨-, -, rfl⟩ | ⟨-, -, hm⟩ := parse_ok h
  · exact (partitionsFrom_index _ _ _ _).2
  · exact (partitionsFrom_index _ _ _ _).2
  · rw [hm.layout]
    change ((numbered 0 _).map Partition.index).Nodup
    rw [map_index_numbered]
    exact List.nodup_range'

/-- No address of the partition table leads off the disk. -/
def InBounds (disk : Bytes) (diskSize : ℤ) : Prop :=
  (ValidGPT disk diskSize 512 → GptInBounds disk diskSize 512) ∧
  (¬ ValidGPT disk diskSize 512 → ValidGPT disk diskSize 4096 → GptInBounds disk diskSize 4096) ∧
  (¬ ValidGPT disk diskSize 512 → ¬ ValidGPT disk diskSize 4096 → MbrInBounds disk diskSize 512)

/-- A parsed layout lies on the disk exactly if no address of the table leads off it. -/
theorem parse_onDisk_iff {disk : Bytes} {diskSize : ℤ} {l : Layout} (hsize : diskSize < 2 ^ 63)
    (h : parse disk diskSize = .ok l) : OnDisk l ↔ InBounds disk diskSize := by
  unfold InBounds
  obtain ⟨hv, rfl⟩ | ⟨hn, hv, rfl⟩ | ⟨hn, hn', hm⟩ := parse_ok h
  · rw [gptLayout_onDisk_iff hv hsize]
    simp [hv]
  · rw [gptLayout_onDisk_iff hv hsize]
    simp [hn, hv]
  · rw [mbrParsed_onDisk_iff hm]
    simp [hn, hn']

/-- A disk of `n` sectors with one partition, in the first slot. -/
def oneSlotDisk (start sectors n : ℕ) : Bytes :=
  List.replicate 446 0 ++ ([0x80, 0, 0, 0, 0x07, 0, 0, 0] ++ (le 4 start ++ (le 4 sectors ++
    (List.replicate 48 0 ++ ([0x55, 0xAA] ++ List.replicate ((n - 1) * 512) 0)))))

/-- The layout of such a disk. -/
def oneSlotLayout (start sectors n : ℕ) : Layout :=
  mbrLayout (n * 512 : ℕ) 512 start [partitionAt 0 0 ⟨true, 0x07, start, sectors⟩] []

theorem parse_onDisk_iff_oneSlot :
    ((1024 : ℤ) < 2 ^ 63 ∧ parse (oneSlotDisk 1 1 2) 1024 = .ok (oneSlotLayout 1 1 2)) ∧
      (OnDisk (oneSlotLayout 1 1 2) ↔ InBounds (oneSlotDisk 1 1 2) 1024) :=
  have hparse : parse (oneSlotDisk 1 1 2) 1024 = .ok (oneSlotLayout 1 1 2) := by decide +kernel
  ⟨⟨by norm_num, hparse⟩, parse_onDisk_iff (by norm_num) hparse⟩

/-- The slots of an MBR are not checked: one sector with a partition of a thousand is accepted. -/
theorem parse_partition_off_disk :
    parse (oneSlotDisk 1 1000 1) 512 = .ok (oneSlotLayout 1 1000 1) ∧
      ¬ OnDisk (oneSlotLayout 1 1000 1) := by
  refine ⟨by decide +kernel, fun h => ?_⟩
  have := h.within (partitionAt 0 0 ⟨true, 0x07, 1, 1000⟩) (.head _)
  revert this
  decide

end DiskNexus.DiskLayout
