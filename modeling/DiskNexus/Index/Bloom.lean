import DiskNexus.Repo.FileName

/-!
# The bloom filter

`index.BloomFilter` answers "definitely new" for weak hashes it has not seen. It is saved in
place: the file is truncated and then written, header first.

## Main results

`loadBloomFilter_bytes`, `loadBloomFilter_take`, `loadBloomFilter_usable`, `BloomFilter.foldl_add`
-/

namespace DiskNexus.Index

open Binary Files

/-- The number of hash functions. -/
def bloomNumHash : ℕ := 7

/-- A filter of `64 * bits.length` bits; `numBits` is nonzero and fits its field. -/
structure BloomFilter where
  bits : List UInt64
  count : UInt64
  pos : 0 < bits.length
  small : 64 * bits.length < 2 ^ 64

namespace BloomFilter

/-- The number of bits. -/
def numBits (bf : BloomFilter) : ℕ := 64 * bf.bits.length

/-- `mix64`. -/
def mix64 (x : UInt64) : UInt64 :=
  let x := (x ^^^ (x >>> 30)) * 0xbf58476d1ce4e5b9
  let x := (x ^^^ (x >>> 27)) * 0x94d049bb133111eb
  x ^^^ (x >>> 31)

/-- `hashPosition`: the bit of the `i`-th hash function. -/
def hashPosition (bf : BloomFilter) (weakHash : UInt64) (i : ℕ) : ℕ :=
  (weakHash + UInt64.ofNat i * mix64 weakHash + UInt64.ofNat i * UInt64.ofNat i).toNat % bf.numBits

/-- Set one bit. -/
def setBit (bits : List UInt64) (p : ℕ) : List UInt64 :=
  bits.modify (p / 64) fun w => w ||| (1 <<< UInt64.ofNat (p % 64))

lemma length_setBit (bits : List UInt64) (p : ℕ) : (setBit bits p).length = bits.length := by
  simp [setBit]

lemma length_foldl_setBit (bits : List UInt64) (ps : List ℕ) :
    (ps.foldl setBit bits).length = bits.length := by
  induction ps generalizing bits with
  | nil => rfl
  | cons p ps ih => rw [List.foldl_cons, ih, length_setBit]

/-- The bits of a weak hash. -/
def positions (bf : BloomFilter) (weakHash : UInt64) : List ℕ :=
  (List.range bloomNumHash).map (bf.hashPosition weakHash)

/-- `BloomFilter.Add`. -/
def add (bf : BloomFilter) (weakHash : UInt64) : BloomFilter where
  bits := (bf.positions weakHash).foldl setBit bf.bits
  count := bf.count + 1
  pos := by rw [length_foldl_setBit]; exact bf.pos
  small := by rw [length_foldl_setBit]; exact bf.small

/-- `BloomFilter.MayContain`. -/
def mayContain (bf : BloomFilter) (weakHash : UInt64) : Bool :=
  (bf.positions weakHash).all fun p =>
    bf.bits.getD (p / 64) 0 &&& (1 <<< UInt64.ofNat (p % 64)) ≠ 0

/-- The contents of a saved filter. -/
def bytes (bf : BloomFilter) : Bytes :=
  le 8 bf.numBits ++ le 8 bf.count.toNat ++ bf.bits.flatMap fun w => le 8 w.toNat

/-- `BloomFilter.Save`: truncate the file, then write it front to back. The writes of the source are
one append for a process that may die at any byte. -/
def saveOps (bf : BloomFilter) : List (FileOp FileName) :=
  [.create .bloom, .append .bloom bf.bytes]

end BloomFilter

/-- `NewBloomFilter`, from the bit count that the sizing formula yields. -/
def newBloomFilter (nbits : UInt64) : BloomFilter where
  bits := List.replicate (max ((nbits + 63).toNat / 64) 1) 0
  count := 0
  pos := by simp
  small := by
    have := (nbits + 63).toNat_lt
    rw [List.length_replicate]
    omega

/-- A number read from at most `w` bytes. -/
lemma ofLE_take_lt (data : Bytes) (w : ℕ) : ofLE (data.take w) < 256 ^ w :=
  (ofLE_lt _).trans_le (Nat.pow_le_pow_right (by decide) (List.length_take_le _ _))

/-- The first `n` words of a byte string. -/
def readWords : ℕ → Bytes → List UInt64
  | 0, _ => []
  | n + 1, data => UInt64.ofNat (ofLE (data.take 8)) :: readWords n (data.drop 8)

lemma length_readWords (n : ℕ) (data : Bytes) : (readWords n data).length = n := by
  induction n generalizing data with
  | zero => rfl
  | succ n ih => simp [readWords, ih]

/-- `LoadBloomFilter`. -/
def loadBloomFilter (data : Bytes) : Except String BloomFilter :=
  let size := data.length
  if size < 16 then .error s!"bloom file too small: {size} bytes"
  else
    let numBits := ofLE (data.take 8)
    let expectedSize := 16 + numBits / 64 * 8
    if hbits : numBits = 0 ∨ numBits % 64 ≠ 0 then
      .error s!"corrupt bloom file: numBits={numBits} is not a positive multiple of 64"
    else if size ≠ expectedSize then
      .error s!"bloom file size mismatch: got {size}, expected {expectedSize}"
    else .ok {
      bits := readWords (numBits / 64) (data.drop 16)
      count := UInt64.ofNat (ofLE ((data.drop 8).take 8))
      pos := by rw [length_readWords]; omega
      small := by
        have hlt : numBits < 2 ^ 64 := ofLE_take_lt data 8
        rw [length_readWords]
        omega }

lemma readWords_flatMap (ws : List UInt64) :
    readWords ws.length (ws.flatMap fun w => le 8 w.toNat) = ws := by
  induction ws with
  | nil => rfl
  | cons w ws ih =>
    simp only [List.flatMap_cons, List.length_cons, readWords]
    rw [List.take_left' (length_le _ _), List.drop_left' (length_le _ _), ih, ofLE_uint64,
      UInt64.ofNat_toNat]

lemma BloomFilter.length_bytes (bf : BloomFilter) : bf.bytes.length = 16 + bf.bits.length * 8 := by
  have hwords : (bf.bits.flatMap fun w => le 8 w.toNat).length = bf.bits.length * 8 := by
    simp
  simp only [bytes, List.length_append, length_le, hwords]

/-- The header of a saved filter, also of a cut one. -/
lemma BloomFilter.numBits_take (bf : BloomFilter) {n : ℕ} (hn : 8 ≤ n) :
    ofLE ((bf.bytes.take n).take 8) = bf.numBits := by
  rw [List.take_take, min_eq_left hn, bytes, List.append_assoc, List.take_left' (length_le _ _)]
  exact ofLE_le (by simpa [numBits] using bf.small)

/-- A saved filter loads. -/
theorem loadBloomFilter_bytes (bf : BloomFilter) : loadBloomFilter bf.bytes = .ok bf := by
  have hlen := bf.length_bytes
  have hbits : ofLE (bf.bytes.take 8) = bf.numBits := by
    have := bf.numBits_take (n := bf.bytes.length) (by omega)
    rwa [List.take_length] at this
  have hwords : bf.numBits / 64 = bf.bits.length := by
    rw [BloomFilter.numBits, Nat.mul_div_cancel_left _ (by decide)]
  have hcount : (bf.bytes.drop 8).take 8 = le 8 bf.count.toNat := by
    rw [BloomFilter.bytes, List.append_assoc, List.drop_left' (length_le _ _),
      List.take_left' (length_le _ _)]
  have hdrop : bf.bytes.drop 16 = bf.bits.flatMap fun w => le 8 w.toNat := by
    rw [BloomFilter.bytes, List.drop_left' (by simp)]
  have hpos := bf.pos
  unfold loadBloomFilter
  simp only [hbits, hwords, hcount, hdrop, readWords_flatMap]
  rw [if_neg (by omega), dif_neg (by rw [BloomFilter.numBits]; omega), if_neg (by omega)]
  simp

/-- A filter file that is cut short does not load. -/
theorem loadBloomFilter_take (bf : BloomFilter) {n : ℕ} (hn : n < bf.bytes.length) :
    ∃ e, loadBloomFilter (bf.bytes.take n) = .error e := by
  have hlen : (bf.bytes.take n).length = n := List.length_take_of_le hn.le
  have htotal := bf.length_bytes
  unfold loadBloomFilter
  by_cases h16 : n < 16
  · exact ⟨_, by rw [if_pos (by omega)]⟩
  have hbits := bf.numBits_take (n := n) (by omega)
  have hwords : bf.numBits / 64 = bf.bits.length := by
    rw [BloomFilter.numBits, Nat.mul_div_cancel_left _ (by decide)]
  simp only [hbits, hwords, hlen]
  rw [if_neg (by omega), dif_neg (by rw [BloomFilter.numBits]; omega), if_pos (by omega)]
  exact ⟨_, rfl⟩

/-- A word reads back as the eight bytes it was read from. -/
lemma le_word {bs : Bytes} (h : bs.length = 8) : le 8 (UInt64.ofNat (ofLE bs)).toNat = bs := by
  have hlt : ofLE bs < UInt64.size := by
    have := ofLE_lt bs
    rwa [h] at this
  rw [UInt64.toNat_ofNat_of_lt' hlt, ← h, le_ofLE]

lemma flatMap_readWords {n : ℕ} {data : Bytes} (h : data.length = n * 8) :
    (readWords n data).flatMap (fun w => le 8 w.toNat) = data := by
  induction n generalizing data with
  | zero => simpa [readWords] using (List.length_eq_zero_iff.1 (h.trans (Nat.zero_mul 8))).symm
  | succ n ih =>
    rw [readWords, List.flatMap_cons, le_word (List.length_take_of_le (by omega)),
      ih (by rw [List.length_drop]; omega), List.take_append_drop]

/-- The expected size is computed in 64 bits and never wraps around. -/
lemma expectedSize_toNat (numBits : UInt64) :
    (16 + numBits / 64 * 8).toNat = 16 + numBits.toNat / 64 * 8 := by
  have hlt := numBits.toNat_lt
  simp only [UInt64.toNat_add, UInt64.toNat_mul, UInt64.toNat_div, UInt64.reduceToNat]
  omega

/-! ## The bits that are set -/

variable {bits : List UInt64} {p : ℕ} {bf : BloomFilter}

namespace BloomFilter

/-- The mask of a bit in its word. -/
def mask (p : ℕ) : UInt64 := 1 <<< UInt64.ofNat (p % 64)

/-- A bit is set. -/
def HasBit (bits : List UInt64) (p : ℕ) : Prop := bits.getD (p / 64) 0 &&& mask p ≠ 0

lemma mask_ne_zero (p : ℕ) : mask p ≠ 0 := by
  have hall : ∀ k < 64, (1 : UInt64) <<< UInt64.ofNat k ≠ 0 := by decide
  exact hall _ (Nat.mod_lt _ (by decide))

lemma and_eq_and_or_and (w v m : UInt64) : w &&& m = w &&& ((w ||| v) &&& m) := by
  apply UInt64.toBitVec_inj.1
  ext i hi
  simp only [UInt64.toBitVec_and, UInt64.toBitVec_or, BitVec.getElem_and, BitVec.getElem_or]
  cases w.toBitVec[i] <;> simp

lemma or_and_ne_zero {w m : UInt64} (h : w &&& m ≠ 0) (v : UInt64) : (w ||| v) &&& m ≠ 0 := by
  intro hzero
  apply h
  rw [and_eq_and_or_and w v m, hzero, UInt64.and_zero]

lemma HasBit.setBit (h : HasBit bits p) (q : ℕ) :
    HasBit (setBit bits q) p := by
  unfold HasBit BloomFilter.setBit at *
  simp only [List.getD_eq_getElem?_getD, List.getElem?_modify] at *
  split
  · cases hw : bits[p / 64]? with
    | none => simp [hw] at h
    | some w =>
      rw [hw] at h
      exact or_and_ne_zero h _
  · simpa using h

lemma hasBit_setBit (hp : p / 64 < bits.length) :
    HasBit (setBit bits p) p := by
  unfold HasBit BloomFilter.setBit
  simp only [List.getD_eq_getElem?_getD, List.getElem?_modify, if_true, List.getElem?_eq_getElem hp]
  change (bits[p / 64] ||| mask p) &&& mask p ≠ 0
  rw [UInt64.or_comm]
  exact or_and_ne_zero (by rw [UInt64.and_self]; exact mask_ne_zero p) _

lemma HasBit.foldl_setBit (h : HasBit bits p) (ps : List ℕ) :
    HasBit (ps.foldl BloomFilter.setBit bits) p := by
  induction ps generalizing bits with
  | nil => exact h
  | cons q ps ih => exact ih (h.setBit q)

lemma hasBit_foldl_setBit {ps : List ℕ} (hp : p ∈ ps) (hlen : p / 64 < bits.length) :
    HasBit (ps.foldl BloomFilter.setBit bits) p := by
  induction ps generalizing bits with
  | nil => cases hp
  | cons q ps ih =>
    rcases List.mem_cons.1 hp with rfl | hp
    · exact (hasBit_setBit hlen).foldl_setBit ps
    · exact ih hp (by rwa [length_setBit])

/-- `Add` sets bits only. -/
lemma HasBit.add (h : HasBit bf.bits p) (weakHash : UInt64) :
    HasBit (bf.add weakHash).bits p :=
  h.foldl_setBit _

lemma mayContain_iff {weakHash : UInt64} :
    bf.mayContain weakHash ↔ ∀ p ∈ bf.positions weakHash, HasBit bf.bits p := by
  simp only [mayContain, List.all_eq_true, decide_eq_true_eq]
  rfl

lemma numBits_add (bf : BloomFilter) (weakHash : UInt64) :
    (bf.add weakHash).numBits = bf.numBits := by
  unfold numBits BloomFilter.add
  rw [length_foldl_setBit]

lemma numBits_foldl_add (bf : BloomFilter) (ws : List UInt64) :
    (ws.foldl BloomFilter.add bf).numBits = bf.numBits := by
  induction ws generalizing bf with
  | nil => rfl
  | cons w ws ih => rw [List.foldl_cons, ih, numBits_add]

lemma positions_add (bf : BloomFilter) (w v : UInt64) :
    (bf.add w).positions v = bf.positions v := by
  unfold positions hashPosition
  rw [numBits_add]

/-- `Add` and `MayContain` index words of the filter. -/
lemma positions_lt {weakHash : UInt64} (hp : p ∈ bf.positions weakHash) :
    p / 64 < bf.bits.length := by
  obtain ⟨i, -, rfl⟩ := List.mem_map.1 hp
  have hlt : bf.hashPosition weakHash i < 64 * bf.bits.length :=
    Nat.mod_lt _ (Nat.mul_pos (by decide) bf.pos)
  omega

lemma mayContain_add (bf : BloomFilter) (weakHash : UInt64) :
    (bf.add weakHash).mayContain weakHash := by
  rw [mayContain_iff, positions_add]
  intro p hp
  exact hasBit_foldl_setBit hp (positions_lt hp)

lemma mayContain_add_of {v : UInt64} (h : bf.mayContain v) (w : UInt64) :
    (bf.add w).mayContain v := by
  rw [mayContain_iff, positions_add]
  exact fun p hp => (mayContain_iff.1 h p hp).add w

/-- What a filter that takes weak hashes keeps and gains. -/
lemma foldl_add (bf : BloomFilter) (ws : List UInt64) :
    (∀ p, HasBit bf.bits p → HasBit (ws.foldl BloomFilter.add bf).bits p) ∧
      (∀ v, bf.mayContain v → (ws.foldl BloomFilter.add bf).mayContain v) ∧
      ∀ w ∈ ws, (ws.foldl BloomFilter.add bf).mayContain w := by
  induction ws generalizing bf with
  | nil => exact ⟨fun _ h => h, fun _ h => h, fun w hw => by cases hw⟩
  | cons w ws ih =>
    obtain ⟨hbits, hkept, hnew⟩ := ih (bf.add w)
    refine ⟨fun p hp => hbits p (hp.add w), fun v hv => hkept v (mayContain_add_of hv w),
      fun v hv => ?_⟩
    rcases List.mem_cons.1 hv with rfl | hv
    · exact hkept v (mayContain_add bf v)
    · exact hnew v hv

/-! ### The order of the weak hashes -/

/-- Two bits are set in either order. -/
lemma setBit_comm (bits : List UInt64) (p q : ℕ) :
    setBit (setBit bits p) q = setBit (setBit bits q) p := by
  refine List.ext_getElem? fun i => ?_
  simp only [setBit, List.getElem?_modify]
  by_cases hp : p / 64 = i <;> by_cases hq : q / 64 = i <;> simp [hp, hq, Function.comp_def]
  · cases bits[i]? with
    | none => rfl
    | some w =>
      rw [Option.map_some, Option.map_some, UInt64.or_assoc, UInt64.or_assoc,
        UInt64.or_comm (1 <<< UInt64.ofNat (p % 64))]

/-- Two weak hashes are added in either order. -/
lemma add_comm (bf : BloomFilter) (v w : UInt64) : (bf.add v).add w = (bf.add w).add v := by
  have hbits : ((bf.add v).positions w).foldl setBit (bf.add v).bits =
      ((bf.add w).positions v).foldl setBit (bf.add w).bits := by
    rw [positions_add, positions_add]
    change (bf.positions w).foldl setBit ((bf.positions v).foldl setBit bf.bits) =
      (bf.positions v).foldl setBit ((bf.positions w).foldl setBit bf.bits)
    rw [← List.foldl_append, ← List.foldl_append]
    have : RightCommutative setBit := ⟨setBit_comm⟩
    exact List.perm_append_comm.foldl_eq _
  unfold BloomFilter.add at hbits ⊢
  simp only [BloomFilter.mk.injEq, and_true]
  exact hbits

/-- A filter does not depend on the order of its weak hashes. -/
lemma foldl_add_perm (bf : BloomFilter) {vs ws : List UInt64} (h : vs.Perm ws) :
    vs.foldl BloomFilter.add bf = ws.foldl BloomFilter.add bf := by
  have : RightCommutative BloomFilter.add := ⟨add_comm⟩
  exact h.foldl_eq bf

end BloomFilter

/-- A file that `LoadBloomFilter` accepts is usable: its size is the one its header states, without
a wrap, saving the filter gives the file back, and whatever is added to the filter, the bits of a
weak hash are in its words. -/
theorem loadBloomFilter_usable {data : Bytes} (h : loadBloomFilter data = .ok bf) :
    data.length = 16 + bf.numBits / 64 * 8 ∧
      (16 + UInt64.ofNat bf.numBits / 64 * 8).toNat = data.length ∧ bf.bytes = data ∧
      ∀ (added : List UInt64) (w : UInt64), ∀ p ∈ (added.foldl BloomFilter.add bf).positions w,
        p / 64 < (added.foldl BloomFilter.add bf).bits.length := by
  unfold loadBloomFilter at h
  dsimp only at h
  split at h
  · cases h
  split at h
  · cases h
  split at h
  · cases h
  rename_i hsize hbits hexpected
  cases h
  have hnum : 64 * (ofLE (data.take 8) / 64) = ofLE (data.take 8) := by omega
  have hlen : data.length = 16 + ofLE (data.take 8) / 64 * 8 := by omega
  refine ⟨?_, ?_, ?_, fun added w p hp => BloomFilter.positions_lt hp⟩
  · simpa only [BloomFilter.numBits, length_readWords, hnum] using hlen
  · simp only [BloomFilter.numBits, length_readWords, hnum]
    rw [expectedSize_toNat, UInt64.toNat_ofNat_of_lt' (ofLE_take_lt data 8), ← hlen]
  · simp only [BloomFilter.bytes, BloomFilter.numBits, length_readWords, hnum]
    have hhead : (data.take 8).length = 8 := List.length_take_of_le (by omega)
    have hcount : ((data.drop 8).take 8).length = 8 := by simp; omega
    have hwords : (data.drop 16).length = ofLE (data.take 8) / 64 * 8 := by simp; omega
    rw [le_word hcount, flatMap_readWords hwords]
    nth_rewrite 1 [← hhead]
    rw [le_ofLE, List.append_assoc, ← List.drop_drop (i := 8) (j := 8), List.take_append_drop,
      List.take_append_drop]

/-- A filter of four words that has taken two weak hashes. -/
def twoAdded : BloomFilter := ((newBloomFilter 256).add 7).add 9

theorem loadBloomFilter_usable_added :
    loadBloomFilter twoAdded.bytes = .ok twoAdded ∧ twoAdded.bits ≠ (newBloomFilter 256).bits ∧
      twoAdded.bytes.length = 48 ∧ ∀ w, ∀ p ∈ (twoAdded.add 5).positions w, p / 64 < 4 := by
  have hload : loadBloomFilter twoAdded.bytes = .ok twoAdded := loadBloomFilter_bytes _
  have hwords : twoAdded.numBits = 256 ∧ (twoAdded.add 5).bits.length = 4 := by decide +kernel
  obtain ⟨hlen, -, -, hpositions⟩ := loadBloomFilter_usable hload
  refine ⟨hload, by decide +kernel, hlen.trans (by rw [hwords.1]), fun w p hp => ?_⟩
  have hlt := hpositions [5] w p hp
  rwa [List.foldl_cons, List.foldl_nil, hwords.2] at hlt

end DiskNexus.Index
