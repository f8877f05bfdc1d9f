import Mathlib.Data.List.GetD
import Mathlib.Data.List.Induction

/-!
# Writing pieces into a list

A file is a list that can be resized and written to at any offset: a write behind its end fills the
gap with a given element. Pieces of one list that cover all of it can be written in any order, and
over anything: the result begins with that list.
-/

namespace DiskNexus.Overwrite

variable {α : Type}

/-- Cut a list to a length, or fill it up with `z`. -/
def resize (z : α) (xs : List α) (n : ℕ) : List α := xs.take n ++ List.replicate (n - xs.length) z

/-- Write `ys` at an offset. Writing nothing changes nothing. -/
def overwrite (z : α) (xs : List α) (off : ℕ) (ys : List α) : List α :=
  if ys.isEmpty then xs else resize z xs off ++ ys ++ xs.drop (off + ys.length)

/-- Write pieces, each at its offset. -/
def patch (z : α) (xs : List α) (ps : List (ℕ × List α)) : List α :=
  ps.foldl (fun xs p => overwrite z xs p.1 p.2) xs

/-- The piece lies in the list, at its offset. -/
def Lies (xs : List α) (p : ℕ × List α) : Prop :=
  ∃ before after, xs = before ++ p.2 ++ after ∧ before.length = p.1

/-- The piece lies over the position `i`. -/
def Covers (p : ℕ × List α) (i : ℕ) : Prop := p.1 ≤ i ∧ i < p.1 + p.2.length

instance (p : ℕ × List α) (i : ℕ) : Decidable (Covers p i) := inferInstanceAs (Decidable (_ ∧ _))

variable {n i k : ℕ} {p : ℕ × List α}

section Lemmas

variable {z : α} {xs ys : List α}

lemma length_resize (z : α) (xs : List α) (n : ℕ) : (resize z xs n).length = n := by
  simp only [resize, List.length_append, List.length_take, List.length_replicate]
  omega

lemma getD_resize (z : α) (xs : List α) (h : i < n) :
    (resize z xs n).getD i z = xs.getD i z := by
  simp only [List.getD_eq_getElem?_getD, resize]
  rcases Nat.lt_or_ge i xs.length with hlt | hge
  · rw [List.getElem?_append_left (by rw [List.length_take]; omega), List.getElem?_take_of_lt h]
  · rw [List.getElem?_append_right (by rw [List.length_take]; omega),
      List.getElem?_replicate, List.getElem?_eq_none hge]
    split <;> rfl

lemma length_overwrite (z : α) (xs : List α) (off : ℕ) (h : ys ≠ []) :
    (overwrite z xs off ys).length = max xs.length (off + ys.length) := by
  rw [overwrite, if_neg (by simpa using h)]
  simp only [List.length_append, length_resize, List.length_drop]
  omega

/-- A write within a list keeps its length. -/
lemma length_overwrite_of_le (z : α) {xs ys : List α} {off : ℕ} (h : off + ys.length ≤ xs.length) :
    (overwrite z xs off ys).length = xs.length := by
  by_cases hys : ys = []
  · rw [hys]
    rfl
  · rw [length_overwrite z xs off hys, Nat.max_eq_left h]

/-- What a write leaves at a position. -/
lemma getD_overwrite (z : α) (xs : List α) (off : ℕ) (ys : List α) (i : ℕ) :
    (overwrite z xs off ys).getD i z =
      if Covers (off, ys) i then ys.getD (i - off) z else xs.getD i z := by
  have hcovers : Covers (off, ys) i ↔ off ≤ i ∧ i < off + ys.length := Iff.rfl
  unfold overwrite
  split
  · rename_i hnil
    obtain rfl : ys = [] := by simpa using hnil
    rw [if_neg (by rw [hcovers]; simp)]
  · rcases Nat.lt_or_ge i off with hlt | hge
    · rw [if_neg (by rw [hcovers]; omega), ← getD_resize z xs hlt]
      simp only [List.getD_eq_getElem?_getD, List.append_assoc]
      rw [List.getElem?_append_left (by rw [length_resize]; exact hlt)]
    · simp only [List.getD_eq_getElem?_getD, List.append_assoc]
      rw [List.getElem?_append_right (by rw [length_resize]; exact hge), length_resize]
      split
      · rename_i hin
        rw [hcovers] at hin
        rw [List.getElem?_append_left (by omega)]
      · rename_i hout
        rw [hcovers] at hout
        rw [List.getElem?_append_right (by omega), List.getElem?_drop]
        congr 2
        omega

/-- Lists that agree at every position. -/
lemma eq_of_getD (hlen : xs.length = ys.length) (h : ∀ i < xs.length, xs.getD i z = ys.getD i z) :
    xs = ys := by
  refine List.ext_getElem hlen fun i hi hi' => ?_
  have := h i hi
  rwa [List.getD_eq_getElem _ _ hi, List.getD_eq_getElem _ _ hi'] at this

/-- A write that goes on where the last one ended. -/
lemma overwrite_overwrite (z : α) (xs : List α) (off : ℕ) (ys zs : List α) :
    overwrite z (overwrite z xs off ys) (off + ys.length) zs = overwrite z xs off (ys ++ zs) := by
  by_cases hys : ys = []
  · subst hys
    simp [overwrite]
  by_cases hzs : zs = []
  · subst hzs
    simp [overwrite]
  have hne : ys ++ zs ≠ [] := by simp [hys]
  refine eq_of_getD (z := z) ?_ fun i _ => ?_
  · rw [length_overwrite z _ _ hzs, length_overwrite z _ _ hys, length_overwrite z _ _ hne,
      List.length_append]
    omega
  · have hcovers : ∀ (o : ℕ) (l : List α), Covers (o, l) i ↔ o ≤ i ∧ i < o + l.length :=
      fun _ _ => Iff.rfl
    simp only [getD_overwrite, hcovers, List.length_append]
    by_cases hlo : off ≤ i
    · by_cases hmid : i < off + ys.length
      · rw [if_neg (by omega), if_pos ⟨hlo, hmid⟩, if_pos (by omega), List.getD_append _ _ _ _
          (by omega)]
      · by_cases hhi : i < off + ys.length + zs.length
        · rw [if_pos (by omega), if_pos (by omega), List.getD_append_right _ _ _ _ (by omega)]
          congr 1
          omega
        · rw [if_neg (by omega), if_neg (by omega), if_neg (by omega)]
    · rw [if_neg (by omega), if_neg (by omega), if_neg (by omega)]

variable {bytes : List α} {ps : List (ℕ × List α)}

lemma patch_snoc (z : α) (xs : List α) (ps : List (ℕ × List α)) (p : ℕ × List α) :
    patch z xs (ps ++ [p]) = overwrite z (patch z xs ps) p.1 p.2 := by
  rw [patch, List.foldl_append]
  rfl

/-- One of the pieces over a position decides what is there; without one, nothing changes. -/
lemma getD_patch_cases (z : α) (xs : List α) (ps : List (ℕ × List α)) (i : ℕ) :
    (∃ p ∈ ps, Covers p i ∧ (patch z xs ps).getD i z = p.2.getD (i - p.1) z) ∨
      ((∀ p ∈ ps, ¬ Covers p i) ∧ (patch z xs ps).getD i z = xs.getD i z) := by
  induction ps using List.reverseRecOn with
  | nil => exact .inr ⟨fun p hp => (by cases hp), rfl⟩
  | append_singleton ps p ih =>
    rw [patch_snoc, getD_overwrite]
    by_cases hp : Covers p i
    · exact .inl ⟨p, by simp, hp, if_pos hp⟩
    · rw [if_neg hp]
      obtain ⟨q, hq, hcov, hval⟩ | ⟨hnone, hval⟩ := ih
      · exact .inl ⟨q, List.mem_append_left _ hq, hcov, hval⟩
      · refine .inr ⟨fun q hq => ?_, hval⟩
        rcases List.mem_append.1 hq with hq | hq
        · exact hnone q hq
        · rwa [List.mem_singleton.1 hq]

/-- Under a piece, nothing of what was there is left. -/
lemma getD_patch_congr {ps : List (ℕ × List α)} (h : ∃ p ∈ ps, Covers p i) (z : α)
    (xs ys : List α) : (patch z xs ps).getD i z = (patch z ys ps).getD i z := by
  induction ps using List.reverseRecOn with
  | nil =>
    obtain ⟨p, hp, -⟩ := h
    cases hp
  | append_singleton ps p ih =>
    rw [patch_snoc, patch_snoc, getD_overwrite, getD_overwrite]
    by_cases hp : Covers p i
    · rw [if_pos hp, if_pos hp]
    · rw [if_neg hp, if_neg hp]
      refine ih ?_
      obtain ⟨q, hq, hcov⟩ := h
      rcases List.mem_append.1 hq with hq | hq
      · exact ⟨q, hq, hcov⟩
      · rw [List.mem_singleton.1 hq] at hcov
        exact absurd hcov hp

/-- Writes make a position the same whatever was there exactly if one of them lies over it. -/
lemma forall_getD_patch_iff {ps : List (ℕ × List α)} {z a : α} (ha : a ≠ z) (hi : i < n) :
    (∀ xs ys, xs.length = n → ys.length = n →
      (patch z xs ps).getD i z = (patch z ys ps).getD i z) ↔ ∃ p ∈ ps, Covers p i := by
  refine ⟨fun h => ?_, fun h xs ys _ _ => getD_patch_congr h z xs ys⟩
  by_contra hnone
  push Not at hnone
  have hkeep : ∀ xs, (patch z xs ps).getD i z = xs.getD i z := by
    intro xs
    obtain ⟨p, hp, hcov, -⟩ | ⟨-, hval⟩ := getD_patch_cases z xs ps i
    · exact absurd hcov (hnone p hp)
    · exact hval
  have := h (List.replicate n a) (List.replicate n z) List.length_replicate List.length_replicate
  rw [hkeep, hkeep] at this
  simp [List.getD_eq_getElem?_getD, hi] at this
  exact ha this

/-- Pieces written to nothing make a list that ends where one of them does. -/
lemma length_patch_nil (z : α) (ps : List (ℕ × List α)) :
    (patch z [] ps = [] ∨ ∃ p ∈ ps, p.2 ≠ [] ∧ p.1 + p.2.length = (patch z [] ps).length) ∧
      ∀ p ∈ ps, p.2 ≠ [] → p.1 + p.2.length ≤ (patch z [] ps).length := by
  induction ps using List.reverseRecOn with
  | nil => exact ⟨.inl rfl, fun p hp => (by cases hp)⟩
  | append_singleton ps p ih =>
    obtain ⟨hend, hle⟩ := ih
    rw [patch_snoc]
    by_cases hp : p.2 = []
    · rw [hp]
      have hkeep : overwrite z (patch z [] ps) p.1 [] = patch z [] ps := if_pos rfl
      refine ⟨hend.imp_right fun ⟨q, hq, h⟩ => ⟨q, List.mem_append_left _ hq, h⟩,
        fun q hq hne => ?_⟩
      rcases List.mem_append.1 hq with hq | hq
      · exact hle q hq hne
      · rw [List.mem_singleton.1 hq] at hne
        exact absurd hp hne
    · rw [length_overwrite z _ _ hp]
      refine ⟨.inr ?_, fun q hq hne => ?_⟩
      · by_cases hlong : (patch z [] ps).length ≤ p.1 + p.2.length
        · exact ⟨p, by simp, hp, by omega⟩
        · obtain hnil | ⟨q, hq, hne, hlen⟩ := hend
          · rw [hnil, List.length_nil] at hlong
            omega
          · exact ⟨q, List.mem_append_left _ hq, hne, by omega⟩
      · rcases List.mem_append.1 hq with hq | hq
        · exact Nat.le_trans (hle q hq hne) (Nat.le_max_left _ _)
        · rw [List.mem_singleton.1 hq]
          exact Nat.le_max_right _ _

lemma Lies.length_le (h : Lies bytes p) : p.1 + p.2.length ≤ bytes.length := by
  obtain ⟨before, after, rfl, hlen⟩ := h
  simp only [List.length_append]
  omega

lemma Lies.getD (h : Lies bytes p) (hi : Covers p i) :
    p.2.getD (i - p.1) z = bytes.getD i z := by
  obtain ⟨before, after, rfl, hlen⟩ := h
  obtain ⟨hle, hlt⟩ := hi
  simp only [List.getD_eq_getElem?_getD, List.append_assoc]
  rw [List.getElem?_append_right (by omega), List.getElem?_append_left (by omega), hlen]

/-- A position under a piece has the element of the list, the others have what was there. -/
lemma getD_patch (hps : ∀ p ∈ ps, Lies bytes p) (i : ℕ) :
    ((∃ p ∈ ps, Covers p i) → (patch z xs ps).getD i z = bytes.getD i z) ∧
      ((∀ p ∈ ps, ¬ Covers p i) → (patch z xs ps).getD i z = xs.getD i z) := by
  obtain ⟨p, hp, hcov, hval⟩ | ⟨hnone, hval⟩ := getD_patch_cases z xs ps i
  · exact ⟨fun _ => hval.trans ((hps p hp).getD hcov), fun hnone => absurd hcov (hnone p hp)⟩
  · exact ⟨fun ⟨p, hp, hcov⟩ => absurd hcov (hnone p hp), fun _ => hval⟩

lemma length_patch (hps : ∀ p ∈ ps, Lies bytes p ∧ p.2 ≠ []) :
    xs.length ≤ (patch z xs ps).length ∧ (∀ p ∈ ps, p.1 + p.2.length ≤ (patch z xs ps).length) ∧
      (patch z xs ps).length ≤ max xs.length bytes.length := by
  induction ps using List.reverseRecOn with
  | nil => exact ⟨Nat.le_refl _, fun p hp => (by cases hp), Nat.le_max_left _ _⟩
  | append_singleton ps p ih =>
    obtain ⟨ih1, ih2, ih3⟩ := ih fun q hq => hps q (List.mem_append_left _ hq)
    obtain ⟨hlies, hne⟩ := hps p (by simp)
    have hfit := hlies.length_le
    have hlen : (patch z xs (ps ++ [p])).length =
        max (patch z xs ps).length (p.1 + p.2.length) := by
      rw [patch, List.foldl_append]
      exact length_overwrite z _ p.1 hne
    refine ⟨by omega, fun q hq => ?_, by omega⟩
    rcases List.mem_append.1 hq with hq | hq
    · have := ih2 q hq
      omega
    · rw [List.mem_singleton.1 hq]
      omega

/-- **Pieces that cover a list**, written in any order over anything: the result begins with the
list. -/
theorem patch_eq (hps : ∀ p ∈ ps, Lies bytes p ∧ p.2 ≠ [])
    (hcover : ∀ i < bytes.length, ∃ p ∈ ps, Covers p i) (z : α) (xs : List α) :
    patch z xs ps = bytes ++ xs.drop bytes.length := by
  obtain ⟨hle, hends, hmax⟩ := @length_patch α z xs bytes ps hps
  have hlies : ∀ p ∈ ps, Lies bytes p := fun p hp => (hps p hp).1
  have hlong : bytes.length ≤ (patch z xs ps).length := by
    rcases Nat.eq_zero_or_pos bytes.length with hzero | hpos
    · omega
    · obtain ⟨p, hp, hi⟩ := hcover (bytes.length - 1) (by omega)
      have := hends p hp
      have := hi.2
      omega
  refine eq_of_getD (z := z) ?_ fun i hi => ?_
  · rw [List.length_append, List.length_drop]
    omega
  · obtain ⟨hcovered, huncovered⟩ := @getD_patch α z xs bytes ps hlies i
    rcases Nat.lt_or_ge i bytes.length with hlt | hge
    · rw [hcovered (hcover i hlt)]
      simp only [List.getD_eq_getElem?_getD, List.getElem?_append_left hlt]
    · rw [huncovered]
      · simp only [List.getD_eq_getElem?_getD, List.getElem?_append_right hge, List.getElem?_drop]
        congr 2
        omega
      · intro p hp hi'
        have := (hlies p hp).length_le
        have := hi'.2
        omega

/-! ## Writing a list in pieces -/

/-- The offsets and sizes of pieces of at most `k` elements. -/
def pieces (k n : ℕ) : List (ℕ × ℕ) :=
  (List.range ((n + k - 1) / k)).map fun i => (i * k, min k (n - i * k))

/-- The writes that put a list at an offset, in pieces. -/
def chop (k base : ℕ) (xs : List α) : List (ℕ × List α) :=
  (pieces k xs.length).map fun p => (base + p.1, (xs.drop p.1).take p.2)

lemma mem_pieces (hk : 0 < k) {p : ℕ × ℕ} (hp : p ∈ pieces k n) :
    0 < p.2 ∧ p.2 ≤ k ∧ p.1 + p.2 ≤ n := by
  obtain ⟨i, hi, rfl⟩ := List.mem_map.1 hp
  have hlt : i * k < n := by
    have h := (Nat.le_div_iff_mul_le hk).1 (List.mem_range.1 hi)
    rw [Nat.succ_mul] at h
    omega
  omega

/-- The pieces cover all elements. -/
lemma exists_mem_pieces (hk : 0 < k) (hi : i < n) :
    ∃ p ∈ pieces k n, p.1 ≤ i ∧ i < p.1 + p.2 := by
  refine ⟨(i / k * k, min k (n - i / k * k)), List.mem_map.2 ⟨i / k, List.mem_range.2 ?_, rfl⟩, ?_⟩
  · refine (Nat.le_div_iff_mul_le hk).2 ?_
    have := Nat.div_mul_le_self i k
    rw [Nat.succ_mul]
    omega
  · have h1 := Nat.div_mul_le_self i k
    have h2 := Nat.lt_div_mul_add hk (a := i)
    omega

lemma pieces_zero (hk : 0 < k) : pieces k 0 = [] := by
  rw [pieces, Nat.zero_add, Nat.div_eq_of_lt (by omega)]
  rfl

lemma chop_nil (hk : 0 < k) (base : ℕ) : chop k base ([] : List α) = [] := by
  rw [chop, List.length_nil, pieces_zero hk, List.map_nil]

/-- What is chopped covers its range. -/
lemma exists_mem_chop_iff {base : ℕ} (hk : 0 < k) :
    (∃ p ∈ chop k base xs, Covers p i) ↔ base ≤ i ∧ i < base + xs.length := by
  constructor
  · rintro ⟨p, hp, hle, hlt⟩
    obtain ⟨q, hq, rfl⟩ := List.mem_map.1 hp
    simp only [List.length_take, List.length_drop] at hle hlt
    omega
  · rintro ⟨hle, hlt⟩
    obtain ⟨q, hq, h1, h2⟩ := exists_mem_pieces hk (show i - base < xs.length by omega)
    refine ⟨_, List.mem_map_of_mem hq, ?_, ?_⟩
    · omega
    · simp only [List.length_take, List.length_drop]
      omega

/-- A chopped piece has the elements of the list. -/
lemma getD_of_mem_chop {base : ℕ} (hp : p ∈ chop k base xs) (hi : Covers p i) :
    p.2.getD (i - p.1) z = xs.getD (i - base) z := by
  obtain ⟨q, hq, rfl⟩ := List.mem_map.1 hp
  obtain ⟨hle, hlt⟩ := hi
  simp only [List.length_take, List.length_drop] at hle hlt
  simp only [List.getD_eq_getElem?_getD]
  rw [List.getElem?_take_of_lt (by omega), List.getElem?_drop]
  congr 2
  omega

end Lemmas

end DiskNexus.Overwrite
