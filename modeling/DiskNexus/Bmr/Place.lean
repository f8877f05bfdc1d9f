import DiskNexus.DiskLayout.Relocate
import DiskNexus.Lib.WriteLog

/-!
# Placing partitions on a target

A disk is restored or cloned through windows of the target, one for each partition. Where a
partition goes is decided by a plan, or else it goes where it was. A target is seen through the
writes it is given.

## Main results

`copyAt_ok`, `writeZeros_ok`
-/

namespace DiskNexus.Bmr

open Binary Sha256 Overwrite DiskLayout WriteLog
open Restore (Failure)

/-- The writes to a target: offsets and bytes. -/
abbrev Writes := List (ℕ × Bytes)

/-- A program that writes to a target. -/
abbrev Run (α : Type) := WriteLog.Run (ℕ × Bytes) Failure α

/-- The message of an error behind another one. -/
def annotate (text : String) : Failure → Failure
  | .error e => .error (text ++ e)
  | .panicked => .panicked

/-- `WriteAt` of the target. -/
def writeAt (data : Bytes) (off : ℤ) : Run Unit :=
  if off < 0 then fail (.error "negative offset") else emit (off.toNat, data)

/-- `partitionTarget`. -/
structure Window where
  base : ℤ
  length : ℤ

/-- Where `partitionTarget.WriteAt` writes. -/
def Window.place (w : Window) (data : Bytes) (off : ℤ) : Except Failure (ℕ × Bytes) :=
  let n := data.length
  let length := w.length
  if off < 0 ∨ length < int64 (off + n) then
    .error (.error s!"write [{off},+{n}) outside partition length {length}")
  else if int64 (w.base + off) < 0 then .error (.error "negative offset")
  else .ok ((int64 (w.base + off)).toNat, data)

/-- `partitionTarget.WriteAt`. -/
def Window.writeAt (w : Window) (data : Bytes) (off : ℤ) : Run Unit := do
  let p ← ofExcept (w.place data off)
  emit p

/-! ## Copying -/

/-- The size of the buffer of a copy. -/
@[irreducible] def bufferSize : ℕ := 2 ^ 20

/-- A piece of a section of a source that starts at `start`. -/
def readPiece (src : Bytes) (start : ℤ) (off n : ℕ) : Except Failure Bytes :=
  match readAt src (start + off) n with
  | none => .error (.error s!"reading at {off}")
  | some data => .ok data

/-- One round of the loop of `copyAt`. -/
def copyPiece (w : Window) (src : Bytes) (start : ℤ) (p : ℕ × ℕ) : Run Bytes := do
  let off := p.1
  let data ← ofExcept (readPiece src start off p.2)
  mapError (annotate s!"writing at {off}: ") (w.writeAt data off)
  pure data

/-- `copyAt` from a section of a source that starts at `start`. -/
def copyAt (w : Window) (src : Bytes) (start length : ℤ) : Run Hash := do
  let data ← collect (copyPiece w src start) (pieces bufferSize length.toNat)
  pure (sum256 data.flatten)

/-- One round of the loop of `writeZeros`. -/
def zeroPiece (w : Window) (p : ℕ × ℕ) : Run Unit := w.writeAt (List.replicate p.2 0) p.1

/-- `writeZeros`. -/
def writeZeros (w : Window) (length : ℤ) : Run Unit :=
  each (zeroPiece w) (pieces bufferSize length.toNat)

/-- `StagedMember`. -/
structure StagedMember where
  reader : Option Bytes
  length : ℤ

/-- `writeStaged`. -/
def writeStaged (w : Window) (st : StagedMember) (length : ℤ) : Run Hash :=
  let staged := st.length
  match st.reader with
  | none =>
    fail (.error s!"staged member holds {staged} bytes, the planned partition is {length}")
  | some bytes =>
    if staged ≠ length then
      fail (.error s!"staged member holds {staged} bytes, the planned partition is {length}")
    else copyAt w bytes 0 length

/-! ## Placements -/

/-- `placement`. -/
structure Placement where
  base : ℤ
  length : ℤ
  oldLength : ℤ
  shrink : Bool
  grow : Bool
  deriving DecidableEq

/-- `placementFor`. -/
def placementFor (l : Layout) (fit : Option FitPlan) (index : ℕ) : Except Failure Placement :=
  match (l.partitions.filter fun p => p.index = index).getLast? with
  | none => .error (.error s!"partition {index} is not in the captured layout")
  | some old =>
    let pl : Placement :=
      ⟨old.offset l.sectorSize, old.length l.sectorSize, old.length l.sectorSize, false, false⟩
    match fit with
    | none => .ok pl
    | some plan =>
      match plan.partition index with
      | none => .error (.error s!"fit plan has no entry for partition {index}")
      | some pp =>
        .ok { pl with
          base := int64 (int64 pp.newFirst * l.sectorSize)
          length := pp.newBytes l.sectorSize
          shrink := pp.shrink
          grow := pp.grow }

/-- The kinds of members of a machine snapshot. -/
inductive MemberKind
  | volume
  | raw
  | skipped
  deriving DecidableEq

/-- `PartitionMember`. -/
structure PartitionMember where
  index : ℕ
  kind : MemberKind
  backupID : String
  deriving DecidableEq

/-- `DiskCapture`. -/
structure DiskCapture where
  layout : Layout
  primaryGPT : Bytes
  backupGPT : Bytes
  auxBytes : List Bytes
  members : List PartitionMember

/-- `bootStructures`. -/
def bootStructures (d : DiskCapture) (fit : Option FitPlan) (targetSize : ℤ) :
    Except Failure BootStructures :=
  match fit with
  | none => relocateGPT d.layout d.primaryGPT d.backupGPT targetSize
  | some plan =>
    let planned := plan.targetSize
    let refusals := String.intercalate " " plan.refusals
    if ¬ plan.Applicable then .error (.error s!"fit plan is not applicable: [{refusals}]")
    else if planned ≠ targetSize then
      .error (.error s!"fit plan was made for a {planned}-byte target, not {targetSize}")
    else applyFit d.layout plan d.primaryGPT d.backupGPT

/-- The auxiliary region number `i`. -/
def writeAux (auxBytes : List Bytes) (r : Range × ℕ) : Run Unit :=
  let i := r.2
  match auxBytes[i]? with
  | none => fail .panicked
  | some b => mapError (annotate s!"writing aux region {i}: ") (writeAt b r.1.offset)

/-- The backup structures, if there are any. -/
def writeBackup (b : BootStructures) : Run Unit :=
  if b.backup = [] then pure ()
  else mapError (annotate "writing backup GPT region: ") (writeAt b.backup b.backupOffset)

/-- The boot structures, behind the partitions. -/
def writeBoot (d : DiskCapture) (fit : Option FitPlan) (targetSize : ℤ) : Run Unit := do
  let b ← ofExcept (bootStructures d fit targetSize)
  mapError (annotate "writing primary boot region: ")
    (writeAt b.primary d.layout.primaryRegion.offset)
  writeBackup b
  each (writeAux d.auxBytes) d.layout.auxRegions.zipIdx

/-! ## What a copy has written -/

/-- An offset of the code. -/
def IsOffset (n : ℤ) : Prop := -2 ^ 63 ≤ n ∧ n < 2 ^ 63

lemma isOffset_int64 (n : ℤ) : IsOffset (int64 n) := int64_range n

variable {w : Window} {data src : Bytes} {off : ℕ} {past ws : Writes} {start length : ℤ}

lemma Window.writeAt_ok (hbase : IsOffset w.base) (hfit : (off : ℤ) + data.length < 2 ^ 63)
    (h : w.writeAt data off past = (.ok (), ws)) :
    ((off : ℤ) + data.length ≤ w.length ∧ 0 ≤ w.base + off) ∧
      ws = [((w.base + off).toNat, data)] := by
  obtain ⟨hlo, hhi⟩ := hbase
  obtain ⟨p, hp, hemit⟩ := ofExcept_bind_ok_iff.1 h
  unfold Window.place at hp
  simp only [ite_error_eq_ok] at hp
  rw [int64_eq (n := (off : ℤ) + data.length) (by omega)] at hp
  obtain ⟨hin, hplace, hp⟩ := hp
  -- a sum that wraps is negative
  obtain ⟨k, hk⟩ := int64_shift (w.base + off)
  have := int64_range (w.base + off)
  obtain rfl : k = 0 := by omega
  cases hp
  cases hemit
  exact ⟨by omega, by rw [hk]; simp⟩

lemma readPiece_ok_iff {n : ℕ} :
    readPiece src start off n = .ok data ↔
      (0 ≤ start + off ∧ start + off + n ≤ src.length) ∧
        data = (src.drop (start + off).toNat).take n := by
  rw [← readAt_eq_some]
  unfold readPiece
  cases readAt src (start + off) n <;> simp

/-- A piece that was copied. -/
lemma copyPiece_ok {q : ℕ × ℕ} (hbase : IsOffset w.base) (hfit : ((q.1 + q.2 : ℕ) : ℤ) < 2 ^ 63)
    (h : copyPiece w src start q past = (.ok data, ws)) :
    (((q.1 : ℤ) + q.2 ≤ w.length ∧ 0 ≤ w.base + q.1) ∧
      0 ≤ start + q.1 ∧ start + q.1 + q.2 ≤ src.length) ∧
    ws = [((w.base + q.1).toNat, (src.drop (start + q.1).toNat).take q.2)] := by
  obtain ⟨piece, hpiece, hcopy⟩ := ofExcept_bind_ok_iff.1 h
  obtain ⟨hin, rfl⟩ := readPiece_ok_iff.1 hpiece
  have hlen : ((src.drop (start + q.1).toNat).take q.2).length = q.2 := by
    rw [List.length_take, List.length_drop]
    omega
  obtain ⟨_, hwrite, -⟩ := bind_pure_ok_iff.1 hcopy
  obtain ⟨hwin, rfl⟩ := Window.writeAt_ok hbase (by rw [hlen]; exact_mod_cast hfit)
    (mapError_ok_iff.1 hwrite)
  rw [hlen] at hwin
  exact ⟨⟨hwin, hin⟩, rfl⟩

lemma bufferSize_pos : 0 < bufferSize := by unfold bufferSize; omega

/-- Facts about all pieces say what they say of the whole range. -/
lemma pieces_bounds {a b : ℤ} {n : ℕ} (hn : 0 < n)
    (h : ∀ q ∈ pieces bufferSize n, 0 ≤ a + q.1 ∧ (q.1 : ℤ) + q.2 ≤ b) : 0 ≤ a ∧ n ≤ b := by
  obtain ⟨q, hq, h1, -⟩ := exists_mem_pieces bufferSize_pos hn
  obtain ⟨q', hq', -, h2⟩ := exists_mem_pieces bufferSize_pos (show n - 1 < n by omega)
  have := (h q hq).1
  have := (h q' hq').2
  omega

lemma pieces_neg (h : length ≤ 0) : pieces bufferSize length.toNat = [] := by
  rw [Int.toNat_eq_zero.2 h]
  exact pieces_zero bufferSize_pos

/-- A copy puts the section of its source at the start of the window. -/
theorem copyAt_ok {hash : Hash} (hbase : IsOffset w.base) (hlength : length < 2 ^ 63)
    (h : copyAt w src start length past = (.ok hash, ws)) :
    (0 < length → (0 ≤ w.base ∧ length ≤ w.length) ∧ 0 ≤ start ∧ start + length ≤ src.length) ∧
      ws = chop bufferSize w.base.toNat ((src.drop start.toNat).take length.toNat) := by
  obtain ⟨data, h1, -⟩ := bind_pure_ok_iff.1 h
  obtain ⟨hps, rfl⟩ := collect_ok (f := copyPiece w src start)
    (fun q hq past data ws hq' => copyPiece_ok hbase
    (by have := mem_pieces bufferSize_pos hq; omega) hq') h1
  rcases le_or_gt length 0 with hneg | hpos
  · rw [pieces_neg hneg, Int.toNat_eq_zero.2 hneg, List.take_zero, chop_nil bufferSize_pos]
    exact ⟨fun h => absurd h (by omega), rfl⟩
  · obtain ⟨hb, hw⟩ := pieces_bounds (b := w.length) (show 0 < length.toNat by omega)
      fun q hq => ⟨(hps q hq).1.2, (hps q hq).1.1⟩
    obtain ⟨hs, hsrc⟩ := pieces_bounds (b := src.length - start) (show 0 < length.toNat by omega)
      fun q hq => ⟨(hps q hq).2.1, by have := (hps q hq).2.2; omega⟩
    refine ⟨fun _ => ⟨⟨hb, by omega⟩, hs, by omega⟩, ?_⟩
    have hlen : ((src.drop start.toNat).take length.toNat).length = length.toNat := by
      rw [List.length_take, List.length_drop]
      omega
    rw [chop, hlen, ← List.map_eq_flatMap]
    refine List.map_congr_left fun q hq => ?_
    have := mem_pieces bufferSize_pos hq
    rw [List.drop_take, List.take_take, List.drop_drop]
    refine Prod.ext (by simp only; omega) ?_
    simp only
    rw [show (start + q.1).toNat = start.toNat + q.1 by omega, min_eq_left (by omega)]

lemma zeroPiece_ok {q : ℕ × ℕ} (hbase : IsOffset w.base) (hfit : ((q.1 + q.2 : ℕ) : ℤ) < 2 ^ 63)
    (h : zeroPiece w q past = (.ok (), ws)) :
    ((q.1 : ℤ) + q.2 ≤ w.length ∧ 0 ≤ w.base + q.1) ∧
      ws = [((w.base + q.1).toNat, List.replicate q.2 0)] := by
  rw [zeroPiece] at h
  have := Window.writeAt_ok hbase (by rw [List.length_replicate]; exact_mod_cast hfit) h
  rwa [List.length_replicate] at this

/-- Zeros that were written. -/
theorem writeZeros_ok (hbase : IsOffset w.base) (hlength : length < 2 ^ 63)
    (h : writeZeros w length past = (.ok (), ws)) :
    (0 < length → 0 ≤ w.base ∧ length ≤ w.length) ∧
      ws = chop bufferSize w.base.toNat (List.replicate length.toNat 0) := by
  rw [writeZeros] at h
  obtain ⟨hps, rfl⟩ := each_ok (f := zeroPiece w) (fun q hq past ws hq' => zeroPiece_ok hbase
    (by have := mem_pieces bufferSize_pos hq; omega) hq') h
  rcases le_or_gt length 0 with hneg | hpos
  · rw [pieces_neg hneg, Int.toNat_eq_zero.2 hneg, List.replicate_zero, chop_nil bufferSize_pos]
    exact ⟨fun h => absurd h (by omega), rfl⟩
  · obtain ⟨hb, hw⟩ := pieces_bounds (b := w.length) (show 0 < length.toNat by omega)
      fun q hq => ⟨(hps q hq).2, (hps q hq).1⟩
    refine ⟨fun _ => ⟨hb, by omega⟩, ?_⟩
    rw [chop, List.length_replicate, ← List.map_eq_flatMap]
    refine List.map_congr_left fun q hq => ?_
    have := mem_pieces bufferSize_pos hq
    rw [List.drop_replicate, List.take_replicate, min_eq_left (by omega),
      show (w.base + q.1).toNat = w.base.toNat + q.1 by omega]

lemma writeAt_ok {off : ℤ} (h : writeAt data off past = (.ok (), ws)) :
    0 ≤ off ∧ ws = [(off.toNat, data)] := by
  rw [writeAt] at h
  split at h
  · cases h
  · cases h
    exact ⟨by omega, rfl⟩

/-- The bytes of an auxiliary region. -/
def auxWrite (auxBytes : List Bytes) (r : Range × ℕ) : Writes :=
  match auxBytes[r.2]? with
  | none => []
  | some b => [(r.1.offset.toNat, b)]

/-- The writes of the boot structures. -/
def bootWrites (d : DiskCapture) (b : BootStructures) : Writes :=
  (d.layout.primaryRegion.offset.toNat, b.primary) ::
    ((if b.backup = [] then [] else [(b.backupOffset.toNat, b.backup)]) ++
      d.layout.auxRegions.zipIdx.flatMap (auxWrite d.auxBytes))

/-- The boot structures that were written. -/
structure BootWritten (d : DiskCapture) (fit : Option FitPlan) (targetSize : ℤ)
    (b : BootStructures) : Prop where
  built : bootStructures d fit targetSize = .ok b
  primary : 0 ≤ d.layout.primaryRegion.offset
  backup : b.backup ≠ [] → 0 ≤ b.backupOffset
  aux : ∀ r ∈ d.layout.auxRegions.zipIdx, r.2 < d.auxBytes.length ∧ 0 ≤ r.1.offset

lemma writeBackup_ok {b : BootStructures} (h : writeBackup b past = (.ok (), ws)) :
    (b.backup ≠ [] → 0 ≤ b.backupOffset) ∧
      ws = if b.backup = [] then [] else [(b.backupOffset.toNat, b.backup)] := by
  rw [writeBackup] at h
  by_cases hnil : b.backup = []
  · rw [if_pos hnil] at h ⊢
    cases h
    exact ⟨fun hne => absurd hnil hne, rfl⟩
  · rw [if_neg hnil] at h ⊢
    obtain ⟨hoff, rfl⟩ := writeAt_ok (mapError_ok_iff.1 h)
    exact ⟨fun _ => hoff, rfl⟩

lemma writeAux_ok {auxBytes : List Bytes} {r : Range × ℕ}
    (h : writeAux auxBytes r past = (.ok (), ws)) :
    (r.2 < auxBytes.length ∧ 0 ≤ r.1.offset) ∧ ws = auxWrite auxBytes r := by
  rw [writeAux] at h
  rw [auxWrite]
  cases hb : auxBytes[r.2]? with
  | none =>
    simp only [hb] at h
    cases h
  | some b =>
    simp only [hb] at h
    obtain ⟨hoff, rfl⟩ := writeAt_ok (mapError_ok_iff.1 h)
    exact ⟨⟨(List.getElem?_eq_some_iff.1 hb).1, hoff⟩, rfl⟩

/-- What the end of a restore or a clone has written. -/
lemma writeBoot_ok {d : DiskCapture} {fit : Option FitPlan} {targetSize : ℤ}
    (h : writeBoot d fit targetSize past = (.ok (), ws)) :
    ∃ b, BootWritten d fit targetSize b ∧ ws = bootWrites d b := by
  obtain ⟨b, hbuilt, h⟩ := ofExcept_bind_ok_iff.1 h
  obtain ⟨_, ws1, ws', hprimary, hrest, rfl⟩ := bind_ok_iff.1 h
  obtain ⟨_, ws2, ws3, hbackup, haux, rfl⟩ := bind_ok_iff.1 hrest
  obtain ⟨hoff, rfl⟩ := writeAt_ok (mapError_ok_iff.1 hprimary)
  obtain ⟨hbackupOff, rfl⟩ := writeBackup_ok hbackup
  obtain ⟨hauxOff, rfl⟩ := each_ok (f := writeAux d.auxBytes)
    (fun r _ past ws hr => writeAux_ok hr) haux
  exact ⟨b, ⟨hbuilt, hoff, hbackupOff, hauxOff⟩, rfl⟩

end DiskNexus.Bmr
