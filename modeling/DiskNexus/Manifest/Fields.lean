import DiskNexus.Lib.Reader
import DiskNexus.Manifest.Entries

/-!
# Fields of the manifest format

The helpers of the `.dnm` format: strings behind a length of one or two bytes, fixed-width integers,
counts with an escape for values from `0xFFFF` on, and times. A string is the list of its bytes, a
`float64` its bits, and a time an optional number of nanoseconds.

## Main results

`reads_str8`, …, `readStr8_cut`, `readCount16_cut`
-/

namespace DiskNexus.Manifest

open Binary Reading

/-! ## Writers -/

/-- `writeStr8`: a longer string is cut off. -/
def writeStr8 (s : Bytes) : Bytes :=
  let s := if 255 < s.length then s.take 255 else s
  le 1 s.length ++ s

/-- `writeStr16`. -/
def writeStr16 (s : Bytes) : Bytes :=
  let s := if 65535 < s.length then s.take 65535 else s
  le 2 s.length ++ s

/-- `writeInt64`. -/
def writeInt64 (v : ℤ) : Bytes := le 8 (int64Bits v)

/-- `writeUint32` of an `int`. -/
def writeUint32 (v : ℤ) : Bytes := le 4 (v % 2 ^ 32).toNat

/-- `writeFloat64`, of the bits. -/
def writeFloat64 (v : UInt64) : Bytes := le 8 v.toNat

/-- `count16Sentinel`. -/
def count16Sentinel : ℕ := 0xFFFF

/-- `writeCount16`: values from the sentinel on follow it in four bytes. -/
def writeCount16 (n : ℕ) : Bytes :=
  if n < count16Sentinel then le 2 n else le 2 count16Sentinel ++ le 4 n

/-- `zeroTimeNano`. -/
def zeroTimeNano : ℤ := -2 ^ 63

/-- `writeTimeNano`, of the nanoseconds of a time that is not zero. -/
def writeTimeNano : Option ℤ → Bytes
  | none => writeInt64 zeroTimeNano
  | some nano => writeInt64 nano

/-! ## Readers -/

/-- `readStr8`. -/
def readStr8 : Reader ReadError Bytes := do
  let n ← readUint 1
  if n = 0 then pure [] else readFull n

/-- `readStr16`. -/
def readStr16 : Reader ReadError Bytes := do
  let n ← readUint 2
  if n = 0 then pure [] else readFull n

/-- `readUint32`, as an `int`. -/
def readUint32 : Reader ReadError ℤ := do
  let n ← readUint 4
  pure (n : ℤ)

/-- `readInt32`. -/
def readInt32 : Reader ReadError ℤ := do
  let n ← readUint 4
  pure (if n < 2 ^ 31 then (n : ℤ) else n - 2 ^ 32)

/-- `readInt64`. -/
def readInt64 : Reader ReadError ℤ := do
  let n ← readUint 8
  pure (ofInt64Bits n)

/-- `readFloat64`, the bits. -/
def readFloat64 : Reader ReadError UInt64 := do
  let n ← readUint 8
  pure (UInt64.ofNat n)

/-- `readCount16`. -/
def readCount16 : Reader ReadError ℕ := do
  let v ← readUint 2
  if v ≠ count16Sentinel then pure v else readUint 4

/-- `readTimeNano`. -/
def readTimeNano : Reader ReadError (Option ℤ) := do
  let v ← readInt64
  pure (if v = zeroTimeNano then none else some v)

/-- A field that an error names. -/
def field {α : Type} (name : String) (rd : Reader ReadError α) : Reader String α :=
  relabel (fun e => s!"{name}: {e.text}") rd

lemma reads_field {α : Type} {rd : Reader ReadError α} {a : α} {bs : Bytes}
    (h : Reads rd a bs) (name : String) : Reads (field name rd) a bs :=
  h.relabel _

/-! ## Strings -/

/-- A string behind its length, in `w` bytes. -/
lemma reads_string {w : ℕ} {s : Bytes} (h : s.length < 256 ^ w) :
    Reads (do let n ← readUint w; if n = 0 then pure [] else readFull n) s
      (le w s.length ++ s) := by
  refine (reads_readUint h).bind ?_
  split_ifs with hs
  · rw [List.length_eq_zero_iff] at hs
    rw [hs]
    exact Reads.pure []
  · exact reads_readFull s

lemma writeStr8_eq {s : Bytes} (h : s.length ≤ 255) : writeStr8 s = le 1 s.length ++ s := by
  simp [writeStr8, not_lt.2 h]

lemma writeStr16_eq {s : Bytes} (h : s.length ≤ 65535) : writeStr16 s = le 2 s.length ++ s := by
  simp [writeStr16, not_lt.2 h]

lemma reads_str8 {s : Bytes} (h : s.length ≤ 255) : Reads readStr8 s (writeStr8 s) := by
  rw [writeStr8_eq h]
  exact reads_string (by norm_num; omega)

lemma reads_str16 {s : Bytes} (h : s.length ≤ 65535) : Reads readStr16 s (writeStr16 s) := by
  rw [writeStr16_eq h]
  exact reads_string (by norm_num; omega)

/-- A cut string reads as the end of the input if at most its length is there. -/
lemma readStr8_cut {s : Bytes} (h : s.length ≤ 255) {k : ℕ} (hk : k < (writeStr8 s).length) :
    readStr8 ((writeStr8 s).take k) = .error (if k ≤ 1 then .eof else .unexpectedEOF) := by
  rw [writeStr8_eq h] at hk ⊢
  obtain ⟨hlt, heq⟩ | ⟨j, rfl, hj, heq⟩ := take_append_cases _ _ k hk
  · rw [length_le] at hlt
    obtain rfl : k = 0 := by omega
    rfl
  · rw [heq, readStr8, bind_ok (readUint_append (by norm_num; omega) _), if_neg (by omega),
      readFull_short (by rw [List.length_take]; omega), List.length_take, length_le]
    congr 1
    by_cases hj0 : j = 0
    · rw [if_pos (by omega), if_pos (by omega)]
    · rw [if_neg (by omega), if_neg (by omega)]

/-! ## Numbers -/

lemma reads_uint32 {v : ℤ} (h : 0 ≤ v) (h' : v < 2 ^ 32) : Reads readUint32 v (writeUint32 v) := by
  have hv : ((v % 2 ^ 32).toNat : ℤ) = v := by omega
  have := (reads_readUint (w := 4) (n := (v % 2 ^ 32).toNat) (by norm_num; omega)).map
    fun n : ℕ => (n : ℤ)
  rwa [hv] at this

lemma reads_int32 {v : ℤ} (h : -2 ^ 31 ≤ v) (h' : v < 2 ^ 31) :
    Reads readInt32 v (writeUint32 v) := by
  have hv : (if (v % 2 ^ 32).toNat < 2 ^ 31 then ((v % 2 ^ 32).toNat : ℤ)
      else (v % 2 ^ 32).toNat - 2 ^ 32) = v := by
    split <;> omega
  have := (reads_readUint (w := 4) (n := (v % 2 ^ 32).toNat) (by norm_num; omega)).map
    fun n : ℕ => if n < 2 ^ 31 then (n : ℤ) else n - 2 ^ 32
  rwa [hv] at this

/-- A number fits an `int64`. -/
def IsInt64 (v : ℤ) : Prop := -2 ^ 63 ≤ v ∧ v < 2 ^ 63

instance (v : ℤ) : Decidable (IsInt64 v) := inferInstanceAs (Decidable (_ ∧ _))

lemma reads_int64 {v : ℤ} (h : IsInt64 v) : Reads readInt64 v (writeInt64 v) := by
  have := (reads_readUint (w := 8) (int64Bits_lt v)).map ofInt64Bits
  rwa [ofInt64Bits_int64Bits h.1 h.2] at this

lemma reads_float64 (v : UInt64) : Reads readFloat64 v (writeFloat64 v) := by
  have := (reads_readUint (w := 8) (n := v.toNat)
    (by norm_num; exact v.toNat_lt)).map UInt64.ofNat
  rwa [UInt64.ofNat_toNat] at this

/-- A time fits its field: it is zero, or its nanoseconds fit and are not the sentinel. -/
def IsTime (t : Option ℤ) : Prop := ∀ nano, t = some nano → IsInt64 nano ∧ nano ≠ zeroTimeNano

lemma reads_timeNano {t : Option ℤ} (h : IsTime t) : Reads readTimeNano t (writeTimeNano t) := by
  cases t with
  | none =>
    exact (reads_int64 (v := zeroTimeNano) (by decide)).map
      fun v => if v = zeroTimeNano then none else some v
  | some nano =>
    obtain ⟨hint, hne⟩ := h nano rfl
    have := (reads_int64 hint).map fun v => if v = zeroTimeNano then none else some v
    rwa [if_neg hne] at this

/-! ## Counts -/

lemma reads_count16 {n : ℕ} (h : n < 2 ^ 32) : Reads readCount16 n (writeCount16 n) := by
  unfold writeCount16
  split_ifs with hlt
  · have hne : n ≠ count16Sentinel := by omega
    have hfield : Reads (readUint 2) n (le 2 n) :=
      reads_readUint (by unfold count16Sentinel at hlt; norm_num; omega)
    have hthen : Reads (if n ≠ count16Sentinel then pure n else readUint 4) n [] := by
      rw [if_pos hne]
      exact Reads.pure n
    have := hfield.bind
      (f := fun v => if v ≠ count16Sentinel then pure v else readUint 4) hthen
    rwa [List.append_nil] at this
  · refine (reads_readUint (w := 2) (n := count16Sentinel) (by decide)).bind ?_
    exact reads_readUint (by norm_num; omega)

/-- A cut count reads as the end of the input if it is empty or ends behind the sentinel. -/
lemma readCount16_cut {n k : ℕ} (hk : k < (writeCount16 n).length) :
    readCount16 ((writeCount16 n).take k) =
      .error (if k = 0 ∨ k = 2 then .eof else .unexpectedEOF) := by
  -- in the first two bytes there is no difference between the two forms of a count
  have hshort : ∀ bs : Bytes, k < 2 → k ≤ bs.length →
      readCount16 (bs.take k) = .error (if k = 0 ∨ k = 2 then .eof else .unexpectedEOF) := by
    intro bs hlt hle
    have hlen : (bs.take k).length = k := by rw [List.length_take]; omega
    rw [readCount16, bind_error (readUint_short (by omega)), hlen]
    congr 1
    by_cases h0 : k = 0
    · rw [if_pos h0, if_pos (.inl h0)]
    · rw [if_neg h0, if_neg (by omega)]
  unfold writeCount16 at hk ⊢
  split_ifs at hk with hlt
  · rw [if_pos hlt]
    rw [length_le] at hk
    exact hshort _ hk (by rw [length_le]; omega)
  · rw [if_neg hlt]
    obtain ⟨hk2, -⟩ | ⟨j, rfl, hj, heq⟩ := take_append_cases _ _ k hk
    · exact hshort _ (by rwa [length_le] at hk2) (by omega)
    · rw [length_le] at hj
      rw [heq, readCount16, bind_ok (readUint_append (by decide) _), if_neg (not_not.2 rfl),
        readUint_short (by rw [List.length_take, length_le]; omega), List.length_take, length_le,
        length_le]
      congr 1
      by_cases hj0 : j = 0
      · rw [if_pos (by omega), if_pos (by omega)]
      · rw [if_neg (by omega), if_neg (by omega)]

end DiskNexus.Manifest
