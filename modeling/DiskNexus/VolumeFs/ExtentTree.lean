import DiskNexus.DiskLayout.Gpt
import DiskNexus.Manifest.Catalog
import Mathlib.Data.Fintype.EquivFin
import Mathlib.Order.WellFounded

/-!
# Extent trees of ext4 inodes

`parseExtentTree` follows the index nodes of an extent tree from the header in the inode. It takes
the depth of a child from the child: on a damaged disk an index node may lead back to itself, and
then the descent does not end.
-/

namespace DiskNexus.VolumeFs

open Binary Relation
open DiskLayout (int64 readAt)
open Manifest (VolumeExtent)

/-- A partition: the disk, its block size, and the offset of the partition on the disk. -/
structure Volume where
  disk : Bytes
  blockSize : ℕ
  partOffset : ℤ

namespace Volume

/-- `parseExtentLeaves`: an unwritten extent, of more than 32768 blocks, is left out. -/
def parseExtentLeaves (v : Volume) (data : Bytes) (count : ℕ) : List VolumeExtent :=
  (List.range (min count (data.length / 12))).filterMap fun i =>
    let blockCount := fieldAt data (i * 12 + 4) 2
    let physBlock : ℕ := fieldAt data (i * 12 + 6) 2 * 2 ^ 32 + fieldAt data (i * 12 + 8) 4
    if blockCount > 32768 then none
    else some {
      fileOffset := int64 (fieldAt data (i * 12) 4 * v.blockSize)
      volumeOffset := int64 (v.partOffset + physBlock * v.blockSize)
      length := int64 (blockCount * v.blockSize) }

/-- The blocks that the entries of an index node name. -/
def childBlocks (iBlock : Bytes) : List ℕ :=
  (List.range (min (fieldAt iBlock 2 2) ((iBlock.length - 12) / 12))).map fun i =>
    fieldAt iBlock (12 + i * 12 + 8) 2 * 2 ^ 32 + fieldAt iBlock (12 + i * 12 + 4) 4

/-- The contents of a block, if it can be read. -/
def block (v : Volume) (n : ℕ) : Option Bytes :=
  readAt v.disk (int64 (v.partOffset + n * v.blockSize)) v.blockSize

/-- `parseExtentTree`, for at most `fuel` nodes on a path. -/
def parseExtentTree (v : Volume) : ℕ → Bytes → Option (List VolumeExtent)
  | 0, _ => none
  | fuel + 1, iBlock =>
    if iBlock.length < 12 then some []
    else if fieldAt iBlock 0 2 ≠ 0xF30A then some []
    else if fieldAt iBlock 8 2 = 0 then
      some (v.parseExtentLeaves (iBlock.drop 12) (fieldAt iBlock 2 2))
    else
      -- a child that cannot be read is skipped
      (((childBlocks iBlock).filterMap v.block).mapM (v.parseExtentTree fuel)).map List.flatten

/-- The call returns. -/
def Finishes (v : Volume) (iBlock : Bytes) : Prop :=
  ∃ fuel, (v.parseExtentTree fuel iBlock).isSome

/-- An index node with a child that can be read. -/
def PointsTo (v : Volume) (iBlock child : Bytes) : Prop :=
  12 ≤ iBlock.length ∧ fieldAt iBlock 0 2 = 0xF30A ∧ fieldAt iBlock 8 2 ≠ 0 ∧
    child ∈ (childBlocks iBlock).filterMap v.block

instance (v : Volume) (iBlock child : Bytes) : Decidable (v.PointsTo iBlock child) :=
  inferInstanceAs (Decidable (_ ∧ _))

variable {v : Volume} {iBlock : Bytes}

lemma isSome_mapM {α β : Type} {f : α → Option β} {xs : List α} :
    (xs.mapM f).isSome ↔ ∀ x ∈ xs, (f x).isSome := by
  induction xs with
  | nil => simp
  | cons x xs ih =>
    rw [List.mapM_cons, List.forall_mem_cons, ← ih]
    cases f x <;> cases xs.mapM f <;> simp

/-- One level of the descent: the node is done if its children are. -/
lemma isSome_parseExtentTree {fuel : ℕ} :
    (v.parseExtentTree (fuel + 1) iBlock).isSome ↔
      ∀ child, v.PointsTo iBlock child → (v.parseExtentTree fuel child).isSome := by
  rw [parseExtentTree]
  unfold PointsTo
  split
  · simp; omega
  split
  · simp [*]
  split
  · simp [*]
  rename_i hlen hmagic hdepth
  rw [Option.isSome_map, isSome_mapM]
  simp only [not_lt.1 hlen, not_not.1 hmagic, hdepth, true_and, ne_eq, not_false_eq_true]

lemma isSome_parseExtentTree_mono {m n : ℕ} (hmn : m ≤ n)
    (h : (v.parseExtentTree m iBlock).isSome) : (v.parseExtentTree n iBlock).isSome := by
  induction m generalizing n iBlock with
  | zero => simp [parseExtentTree] at h
  | succ m ih =>
    obtain ⟨n, rfl⟩ := Nat.exists_eq_add_of_le' (show 1 ≤ n by omega)
    rw [isSome_parseExtentTree] at h ⊢
    exact fun child hchild => ih (by omega) (h child hchild)

/-- The descent ends exactly if there is no endless chain of children. -/
lemma finishes_iff_acc : v.Finishes iBlock ↔ Acc (Function.swap v.PointsTo) iBlock := by
  constructor
  · rintro ⟨fuel, h⟩
    induction fuel generalizing iBlock with
    | zero => simp [parseExtentTree] at h
    | succ fuel ih => exact ⟨_, fun child hchild => ih (isSome_parseExtentTree.1 h child hchild)⟩
  · intro h
    induction h with
    | intro node _ ih =>
      choose! fuel hfuel using ih
      refine ⟨(((childBlocks node).filterMap v.block).map fuel).sum + 1,
        isSome_parseExtentTree.2 fun child hchild => ?_⟩
      exact isSome_parseExtentTree_mono
        (List.single_le_sum (by simp) _ (List.mem_map_of_mem hchild.2.2.2)) (hfuel child hchild)

lemma childBlocks_lt {n : ℕ} (h : n ∈ childBlocks iBlock) : n < 2 ^ 48 := by
  obtain ⟨i, -, rfl⟩ := List.mem_map.1 h
  have hlow := fieldAt_lt iBlock (12 + i * 12 + 4) 4
  have hhigh := fieldAt_lt iBlock (12 + i * 12 + 8) 2
  omega

/-- An endless chain of children meets a node twice: there are `2 ^ 48` blocks. -/
lemma exists_cycle {f : ℕ → Bytes} (hf : ∀ n, v.PointsTo (f n) (f (n + 1))) :
    ∃ n, TransGen v.PointsTo (f n) (f n) := by
  choose b hb hblock using fun n => List.mem_filterMap.1 (hf n).2.2.2
  obtain ⟨i, j, hij, heq⟩ := Finite.exists_ne_map_eq_of_infinite
    fun n => (⟨b n, childBlocks_lt (hb n)⟩ : Fin (2 ^ 48))
  wlog hlt : i < j generalizing i j
  · exact this j i hij.symm heq.symm (by omega)
  have hsame : f (j + 1) = f (i + 1) := by
    refine Option.some.inj ((hblock j).symm.trans ?_)
    rw [← Fin.mk.inj heq, hblock i]
  refine ⟨i + 1, ?_⟩
  nth_rewrite 2 [← hsame]
  exact Nat.rel_of_forall_rel_succ_of_lt (TransGen v.PointsTo) (fun n => .single (hf n)) (by omega)

/-- **When `parseExtentTree` ends**: no index node that it meets leads back to itself. -/
theorem parseExtentTree_finishes_iff (v : Volume) (iBlock : Bytes) :
    v.Finishes iBlock ↔ ∀ node, ReflTransGen v.PointsTo iBlock node →
      ¬ TransGen v.PointsTo node node := by
  constructor
  · intro h node hnode hcycle
    have hacc : Acc (Function.swap v.PointsTo) node := by
      clear hcycle
      induction hnode with
      | refl => exact finishes_iff_acc.1 h
      | tail _ hstep ih => exact ih.inv hstep
    exact not_acc_iff_exists_descending_chain.2 ⟨fun _ => node, rfl, fun _ =>
      transGen_swap.2 hcycle⟩ hacc.transGen
  · intro h
    by_contra hno
    rw [finishes_iff_acc, not_acc_iff_exists_descending_chain] at hno
    obtain ⟨f, rfl, hf⟩ := hno
    obtain ⟨n, hcycle⟩ := exists_cycle hf
    refine h (f n) ?_ hcycle
    exact Nat.rel_of_forall_rel_succ_of_le (ReflTransGen v.PointsTo) (fun n => .single (hf n))
      (Nat.zero_le n)

end Volume

/-- The beginning of an index node with one entry, which names block 1. -/
def pointsAtOne : Bytes :=
  [0x0A, 0xF3, 1, 0, 4, 0, 1, 0, 1, 0, 0, 0] ++ [0, 0, 0, 0, 1, 0, 0, 0, 0, 0, 0, 0]

/-- A disk whose second block is an index node that points at itself. -/
def selfPointing : Volume where
  disk := List.replicate 1024 0 ++ pointsAtOne ++ List.replicate 1000 0
  blockSize := 1024
  partOffset := 0

/-- No fuel is enough for an inode whose header names that block. -/
theorem parseExtentTree_endless :
    ¬ selfPointing.Finishes (pointsAtOne ++ List.replicate 36 0) := by
  let node := pointsAtOne ++ List.replicate 1000 0
  have hroot : selfPointing.PointsTo (pointsAtOne ++ List.replicate 36 0) node := by decide +kernel
  have hself : selfPointing.PointsTo node node := by decide +kernel
  have hno : ¬ Acc (Function.swap selfPointing.PointsTo) node :=
    not_acc_iff_exists_descending_chain.2 ⟨fun _ => node, rfl, fun _ => hself⟩
  intro h
  exact hno ((Volume.finishes_iff_acc.1 h).inv hroot)

end DiskNexus.VolumeFs
