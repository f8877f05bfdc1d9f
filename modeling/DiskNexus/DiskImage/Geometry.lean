import Mathlib.Algebra.Order.Ring.Nat

/-!
# The geometry of a VHD footer

A VHD footer states its size as cylinders, heads and sectors per track in fields of sixteen, eight
and eight bits. `vhdGeometry` tries four numbers of sectors per track, and narrows the number of
heads before it is known to fit.
-/

namespace DiskNexus.DiskImage

/-- Cylinders, heads and sectors per track. -/
structure Geometry where
  cyl : ℕ
  heads : ℕ
  spt : ℕ
  deriving DecidableEq, Repr

/-- The sectors that a geometry states. -/
def Geometry.covered (g : Geometry) : ℕ := g.cyl * g.heads * g.spt

/-- The largest number of sectors a geometry states. -/
def maxSectors : ℕ := 65535 * 16 * 255

/-- The choice of heads and sectors; `cyl` is still the cylinders times the heads. -/
def tracksOf (narrow8 : ℕ → ℕ) (total : ℕ) : Geometry :=
  if 65535 * 16 * 63 ≤ total then ⟨total / 255, 16, 255⟩
  else
    let cylTimesHeads := total / 17
    let heads := narrow8 ((cylTimesHeads + 1023) / 1024)
    let heads := if heads < 4 then 4 else heads
    let g : Geometry :=
      if heads * 1024 ≤ cylTimesHeads ∨ 16 < heads then ⟨total / 31, 16, 31⟩
      else ⟨cylTimesHeads, heads, 17⟩
    if g.heads * 1024 ≤ g.cyl then ⟨total / 63, 16, 63⟩ else g

/-- `vhdGeometry` with its conversions as parameters. -/
def geometryOf (narrow8 narrow16 : ℕ → ℕ) (totalSectors : ℕ) : Geometry :=
  let total := if maxSectors < totalSectors then maxSectors else totalSectors
  let g := tracksOf narrow8 total
  { g with cyl := narrow16 (g.cyl / g.heads) }

/-- `vhdGeometry`: the conversions keep the low bits. -/
def vhdGeometry (totalSectors : ℕ) : Geometry :=
  geometryOf (· % 2 ^ 8) (· % 2 ^ 16) totalSectors

/-- The number of heads is the same whether it is narrowed or not.

**Proof sketch.** Below `16 * 1024` tracks the quotient is at most 16. From there on the narrowed
number is the quotient itself, which is too large, or at least `255 * 1024` tracks exceed what it
allows. -/
lemma tracksOf_narrow (total : ℕ) : tracksOf (· % 2 ^ 8) total = tracksOf id total := by
  unfold tracksOf
  by_cases hsmall : total / 17 < 16 * 1024
  · have hkeep : (total / 17 + 1023) / 1024 % 2 ^ 8 = (total / 17 + 1023) / 1024 := by omega
    simp only [hkeep, id_eq]
  have hgive : ∀ heads, heads = (total / 17 + 1023) / 1024 % 2 ^ 8 ∨
      heads = (total / 17 + 1023) / 1024 →
      (if heads < 4 then 4 else heads) * 1024 ≤ total / 17 ∨
        16 < if heads < 4 then 4 else heads := by
    intro heads hheads
    split <;> omega
  simp only [id_eq]
  rw [if_pos (hgive _ (.inl rfl)), if_pos (hgive _ (.inr rfl))]

/-- What the choice settles: the tracks, with at most 65535 cylinders. -/
lemma tracksOf_spec {total : ℕ} (h : total ≤ maxSectors) :
    ∃ heads spt, tracksOf id total = ⟨total / spt, heads, spt⟩ ∧ 4 ≤ heads ∧ heads ≤ 16 ∧ 0 < spt ∧
      total / spt < 65536 * heads := by
  unfold maxSectors at h
  unfold tracksOf
  by_cases hlarge : 65535 * 16 * 63 ≤ total
  · rw [if_pos hlarge]
    exact ⟨16, 255, rfl, by omega, by omega, by omega, by omega⟩
  rw [if_neg hlarge]
  simp only [id_eq]
  generalize hheads : (if (total / 17 + 1023) / 1024 < 4 then 4 else
    (total / 17 + 1023) / 1024) = heads
  have hfour : 4 ≤ heads := by
    rw [← hheads]
    split <;> omega
  by_cases h31 : heads * 1024 ≤ total / 17 ∨ 16 < heads
  · simp only [if_pos h31]
    split
    · exact ⟨16, 63, rfl, by omega, by omega, by omega, by omega⟩
    · exact ⟨16, 31, rfl, by omega, by omega, by omega, by omega⟩
  · simp only [if_neg h31]
    rw [if_neg fun hcyl => h31 (.inl hcyl)]
    exact ⟨heads, 17, rfl, hfour, by omega, by omega, by omega⟩

/-- For every number of sectors: no narrowing changes a value, there are at most 65535 cylinders and
4 to 16 heads, and the geometry covers the disk, or as much of it as it can state, up to less than
one cylinder. -/
theorem vhdGeometry_spec (totalSectors : ℕ) :
    vhdGeometry totalSectors = geometryOf id id totalSectors ∧
      (vhdGeometry totalSectors).cyl ≤ 65535 ∧ 4 ≤ (vhdGeometry totalSectors).heads ∧
      (vhdGeometry totalSectors).heads ≤ 16 ∧
      (vhdGeometry totalSectors).covered ≤ min totalSectors maxSectors ∧
      min totalSectors maxSectors - (vhdGeometry totalSectors).covered <
        (vhdGeometry totalSectors).heads * (vhdGeometry totalSectors).spt := by
  have htotal : (if maxSectors < totalSectors then maxSectors else totalSectors) =
      min totalSectors maxSectors := by
    split <;> omega
  generalize hmin : min totalSectors maxSectors = total at *
  obtain ⟨heads, spt, htracks, hlow, hhigh, hspt, hcyl⟩ :=
    tracksOf_spec (show total ≤ maxSectors by omega)
  have hdiv : total / spt / heads = total / (heads * spt) := by
    rw [Nat.div_div_eq_div_mul, mul_comm]
  have hfits : total / spt / heads < 65536 := Nat.div_lt_of_lt_mul (by omega)
  have hwide : geometryOf id id totalSectors = ⟨total / spt / heads, heads, spt⟩ := by
    simp only [geometryOf, htotal, htracks, id_eq]
  have hg : vhdGeometry totalSectors = ⟨total / spt / heads, heads, spt⟩ := by
    simp only [vhdGeometry, geometryOf, htotal, tracksOf_narrow, htracks]
    rw [Nat.mod_eq_of_lt (show _ < 2 ^ 16 from hfits)]
  have hpos : 0 < heads * spt := Nat.mul_pos (by omega) hspt
  have hrest := Nat.lt_div_mul_add hpos (a := total)
  refine ⟨hg.trans hwide.symm, ?_⟩
  rw [hg]
  simp only [Geometry.covered, hdiv, mul_assoc] at hfits ⊢
  exact ⟨Nat.le_of_lt_succ hfits, hlow, hhigh, Nat.div_mul_le_self _ _, by omega⟩

end DiskNexus.DiskImage
