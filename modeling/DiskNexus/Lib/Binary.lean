import Mathlib.Data.Nat.Basic
import Mathlib.Tactic

/-!
# Byte strings and little-endian fields

Fixed-width little-endian fields over byte strings, and reading them back.
-/

namespace Binary

/-- Byte strings. -/
abbrev Bytes := List UInt8

instance : LawfulBEq Bytes := inferInstance

/-- The `w`-byte little-endian field of `n`, higher bytes dropped. -/
def le : ℕ → ℕ → Bytes
  | 0, _ => []
  | w + 1, n => UInt8.ofNat (n % 256) :: le w (n / 256)

/-- The number a little-endian field holds. -/
def ofLE : Bytes → ℕ
  | [] => 0
  | b :: bs => b.toNat + 256 * ofLE bs

@[simp] lemma length_le (w n : ℕ) : (le w n).length = w := by
  induction w generalizing n with
  | zero => rfl
  | succ w ih => simp [le, ih]

/-- A `w`-byte field holds its number modulo `256 ^ w`. -/
lemma ofLE_le_mod (w n : ℕ) : ofLE (le w n) = n % 256 ^ w := by
  induction w generalizing n with
  | zero => simp [le, ofLE, Nat.mod_one]
  | succ w ih =>
    have hb : (UInt8.ofNat (n % 256)).toNat = n % 256 := by
      simp
    simp only [le, ofLE, hb, ih]
    rw [pow_succ, Nat.mul_comm (256 ^ w) 256, Nat.mod_mul]

/-- A number that fits the field is read back. -/
lemma ofLE_le {w n : ℕ} (h : n < 256 ^ w) : ofLE (le w n) = n := by
  rw [ofLE_le_mod, Nat.mod_eq_of_lt h]

@[simp] lemma ofLE_uint32 (x : UInt32) : ofLE (le 4 x.toNat) = x.toNat := ofLE_le x.toNat_lt

@[simp] lemma ofLE_uint64 (x : UInt64) : ofLE (le 8 x.toNat) = x.toNat := ofLE_le x.toNat_lt

/-- A field of `w` bytes holds a number below `256 ^ w`. -/
lemma ofLE_lt (bs : Bytes) : ofLE bs < 256 ^ bs.length := by
  induction bs with
  | nil => simp [ofLE]
  | cons b bs ih =>
    have hb : b.toNat < 256 := b.toNat_lt
    simp only [ofLE, List.length_cons, pow_succ]
    omega

/-- The number of two parts, the lower one first. -/
lemma ofLE_append (a b : Bytes) : ofLE (a ++ b) = ofLE a + 256 ^ a.length * ofLE b := by
  induction a with
  | nil => simp [ofLE]
  | cons x a ih =>
    rw [List.cons_append, ofLE, ofLE, ih, List.length_cons, pow_succ]
    ring

/-- Fields of one width with the same number are the same. -/
lemma ofLE_inj {a b : Bytes} (hlen : a.length = b.length) (h : ofLE a = ofLE b) : a = b := by
  induction a generalizing b with
  | nil => exact (List.length_eq_zero_iff.1 hlen.symm).symm
  | cons x a ih =>
    cases b with
    | nil => cases hlen
    | cons y b =>
      simp only [ofLE] at h
      have hx := x.toNat_lt
      have hy := y.toNat_lt
      have hhead : x = y := UInt8.toNat_inj.1 (by omega)
      rw [hhead, ih (by simpa using hlen) (by omega)]

/-- The field of the number that a field holds is that field. -/
lemma le_ofLE (bs : Bytes) : le bs.length (ofLE bs) = bs :=
  ofLE_inj (length_le _ _) (ofLE_le (ofLE_lt bs))

/-- The number in the `w`-byte field at offset `i`. -/
def fieldAt (bs : Bytes) (i w : ℕ) : ℕ := ofLE ((bs.drop i).take w)

/-- A field that is there is written as it was read. -/
lemma le_fieldAt {bs : Bytes} {i w : ℕ} (h : i + w ≤ bs.length) :
    le w (fieldAt bs i w) = (bs.drop i).take w := by
  have hlen : ((bs.drop i).take w).length = w := by
    rw [List.length_take, List.length_drop]
    omega
  have := le_ofLE ((bs.drop i).take w)
  rwa [hlen] at this

/-- A field holds a number of its width. -/
lemma fieldAt_lt (bs : Bytes) (i w : ℕ) : fieldAt bs i w < 256 ^ w :=
  (ofLE_lt _).trans_le (Nat.pow_le_pow_right (by decide) (List.length_take_le _ _))

/-- A field depends on its own bytes only. -/
lemma fieldAt_append {bs : Bytes} {i w : ℕ} (h : i + w ≤ bs.length) (rest : Bytes) :
    fieldAt (bs ++ rest) i w = fieldAt bs i w := by
  unfold fieldAt
  rw [List.drop_append_of_le_length (by omega),
    List.take_append_of_le_length (by rw [List.length_drop]; omega)]

@[simp] lemma fieldAt_cons (b : UInt8) (bs : Bytes) (i w : ℕ) :
    fieldAt (b :: bs) (i + 1) w = fieldAt bs i w := rfl

/-- A field behind a first part. -/
lemma fieldAt_skip {pre : Bytes} {i : ℕ} (h : pre.length ≤ i) (rest : Bytes) (w : ℕ) :
    fieldAt (pre ++ rest) i w = fieldAt rest (i - pre.length) w := by
  rw [fieldAt, List.drop_append, List.drop_of_length_le h, List.nil_append, fieldAt]

lemma fieldAt_right {pre : Bytes} {i k : ℕ} (h : pre.length + k = i) (rest : Bytes) (w : ℕ) :
    fieldAt (pre ++ rest) i w = fieldAt rest k w := by
  rw [fieldAt_skip (by omega), show i - pre.length = k by omega]

/-- The field at the front. -/
lemma fieldAt_le {w n : ℕ} (hn : n < 256 ^ w) (rest : Bytes) :
    fieldAt (le w n ++ rest) 0 w = n := by
  rw [fieldAt, List.drop_zero, List.take_left' (length_le _ _), ofLE_le hn]

@[simp] lemma fieldAt_uint32 (x : UInt32) (rest : Bytes) :
    fieldAt (le 4 x.toNat ++ rest) 0 4 = x.toNat :=
  fieldAt_le x.toNat_lt rest

@[simp] lemma fieldAt_uint64 (x : UInt64) (rest : Bytes) :
    fieldAt (le 8 x.toNat ++ rest) 0 8 = x.toNat :=
  fieldAt_le x.toNat_lt rest

/-- A check that was passed. -/
lemma ite_error_eq_ok {ε α : Type} {c : Prop} [Decidable c] {e : ε} {x : Except ε α} {a : α} :
    (if c then Except.error e else x) = .ok a ↔ ¬ c ∧ x = .ok a := by
  split <;> simp [*]

/-- A result made of another. -/
lemma map_eq_ok {ε α β : Type} {f : α → β} {x : Except ε α} {b : β} :
    x.map f = .ok b ↔ ∃ a, x = .ok a ∧ f a = b := by
  cases x <;> simp [Except.map]

end Binary
