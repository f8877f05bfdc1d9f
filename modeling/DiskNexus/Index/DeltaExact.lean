import DiskNexus.Index.FoldStream

/-!
# What the readers of a delta accept

The readers of a delta compare its length with the number of entries that its header declares, times
the size of an entry, in machine arithmetic. A count whose product wraps to the length of the delta
passes all checks.

## Main results

`readExactly_iff`, `wrapped_accepted`
-/

namespace DiskNexus.Index

open Binary Sha256

variable {data : Bytes}

/-! ## What the readers should do -/

/-- The number of entries that the header of a delta declares. -/
def declared (data : Bytes) : ℕ := fieldAt data 8 8

/-- `ParseDelta` accepts the delta. -/
def Parses (data : Bytes) : Prop := ∃ es, parseDeltaRun data = .returns (.ok es)

/-- `ValidateDeltaFile` accepts a file that holds the delta. -/
def Validates (data : Bytes) : Prop := validateDeltaFile data = .ok ()

/-- `ForEachDeltaEntry` accepts the delta. -/
def Yields (data : Bytes) : Prop := (forEachDeltaEntry data).2 = .returns (.ok ())

/-- The readers of a delta accept exactly the byte strings that hold what their header declares. -/
structure ReadExactly (data : Bytes) : Prop where
  /-- what is accepted has the declared length and the declared digest -/
  exact : Parses data ∨ Validates data ∨ Yields data →
    data.length = deltaHeaderSize + declared data * deltaEntrySize ∧
      (sum256 (data.drop deltaHeaderSize)).val = (data.drop 16).take 32
  /-- the three agree -/
  agree : (Validates data ↔ Parses data) ∧ (Yields data ↔ Parses data)
  /-- nothing is read out of range -/
  parse_returns : ∀ msg, parseDeltaRun data ≠ .panics msg
  forEach_returns : ∀ msg, (forEachDeltaEntry data).2 ≠ .panics msg
  /-- the entries of a validated file are all there -/
  stream_ends : Validates data → (streamDeltaRecords data).2 = true
  /-- all readers see the same entries, and these make up the delta but for the reserved bytes -/
  marshal : ∀ es, parseDeltaRun data = .returns (.ok es) →
    (forEachDeltaEntry data).1 = es ∧ (streamDeltaRecords data).1 = es ∧
      (marshalDelta es).take 48 = data.take 48 ∧
      (marshalDelta es).drop deltaHeaderSize = data.drop deltaHeaderSize

/-! ## The checks -/

/-- A delta that passes the checks: its length is right up to a multiple of `2 ^ 64`. -/
structure Stamped (data : Bytes) : Prop where
  header : deltaHeaderSize ≤ data.length
  magic : data.take 6 = deltaMagic
  version : fieldAt data 6 2 = deltaVersion
  size : data.length % 2 ^ 64 = (deltaHeaderSize + declared data * deltaEntrySize) % 2 ^ 64
  digest : (sum256 (data.drop deltaHeaderSize)).val = (data.drop 16).take 32

/-- `ValidateDeltaFile` accepts what passes the checks. -/
lemma validates_iff : Validates data ↔ Stamped data := by
  unfold Validates validateDeltaFile
  simp only [ite_error_eq_ok, not_lt, not_not, and_true]
  exact ⟨fun ⟨h1, h2, h3, h4, h5⟩ => ⟨h1, h2, h3, h4, h5⟩,
    fun ⟨h1, h2, h3, h4, h5⟩ => ⟨h1, h2, h3, h4, h5⟩⟩

/-- The checks of the other two, on a byte string as long as one can be. -/
lemma checkDelta_iff (hlen : data.length < 2 ^ 63) : checkDelta data = .ok () ↔ Stamped data := by
  constructor
  · intro h
    obtain ⟨hheader, hmagic, hversion, hsize, hsum⟩ := checkDelta_eq_ok.1 h
    refine ⟨hheader, hmagic, hversion, ?_, hsum⟩
    rw [List.length_drop] at hsize
    unfold declared
    omega
  · intro h
    have hheader := h.header
    have hsize : (data.drop deltaHeaderSize).length =
        declared data * deltaEntrySize % 2 ^ 64 := by
      have hmod := h.size
      rw [List.length_drop]
      omega
    exact checkDelta_eq_ok.2 ⟨hheader, h.magic, h.version, hsize, h.digest⟩

/-! ## Entries and their bytes -/

/-- An entry that is read from enough bytes is written as these. -/
lemma encodeDeltaEntry_decodeDeltaEntry {src : Bytes} (h : deltaEntrySize ≤ src.length) :
    encodeDeltaEntry (decodeDeltaEntry src) = src.take deltaEntrySize := by
  unfold deltaEntrySize at h ⊢
  have hhash : (hashOf src).val = src.take 32 := by
    unfold hashOf
    rw [dif_pos (by rw [List.length_take]; omega)]
  have h64 : ∀ i, (UInt64.ofNat (ofLE ((src.drop i).take 8))).toNat = fieldAt src i 8 := by
    intro i
    exact UInt64.toNat_ofNat_of_lt (fieldAt_lt src i 8)
  have h32 : ∀ i, (UInt32.ofNat (ofLE ((src.drop i).take 4))).toNat = fieldAt src i 4 := by
    intro i
    exact UInt32.toNat_ofNat_of_lt (fieldAt_lt src i 4)
  have hsplit : src.take 56 = src.take 32 ++ ((src.drop 32).take 8 ++ ((src.drop 40).take 4 ++
      ((src.drop 44).take 8 ++ (src.drop 52).take 4))) := by
    rw [show (56 : ℕ) = 32 + (8 + (4 + (8 + 4))) from rfl, List.take_add, List.take_add,
      List.take_add, List.take_add]
    simp only [List.drop_drop]
  simp only [encodeDeltaEntry, decodeDeltaEntry]
  rw [hhash, h64, h32, h64, h32, le_fieldAt (by omega), le_fieldAt (by omega),
    le_fieldAt (by omega), le_fieldAt (by omega), hsplit]

/-- So are the entries of a payload. -/
lemma flatMap_decodeDeltaEntries {n : ℕ} {payload : Bytes}
    (h : payload.length = n * deltaEntrySize) :
    (decodeDeltaEntries n payload).flatMap encodeDeltaEntry = payload := by
  induction n generalizing payload with
  | zero =>
    rw [List.length_eq_zero_iff.1 (h.trans (Nat.zero_mul _))]
    rfl
  | succ n ih =>
    rw [Nat.succ_mul] at h
    have hrest : (payload.drop deltaEntrySize).length = n * deltaEntrySize := by
      rw [List.length_drop]
      omega
    rw [decodeDeltaEntries, List.flatMap_cons, ih hrest,
      encodeDeltaEntry_decodeDeltaEntry (by omega), List.take_append_drop]

/-- The header of a delta without a wrapped count, but for the reserved bytes. -/
lemma Stamped.take_header (h : Stamped data) :
    (deltaHeader (declared data) (sum256 (data.drop deltaHeaderSize))).take 48 = data.take 48 := by
  have hheader := h.header
  unfold deltaHeaderSize at hheader
  have hversion : le 2 deltaVersion = (data.drop 6).take 2 := by
    rw [← h.version, le_fieldAt (by omega)]
  have hcount : le 8 (declared data) = (data.drop 8).take 8 := le_fieldAt (by omega)
  have hsplit : data.take 48 = data.take 6 ++ ((data.drop 6).take 2 ++ ((data.drop 8).take 8 ++
      (data.drop 16).take 32)) := by
    rw [show (48 : ℕ) = 6 + (2 + (8 + 32)) from rfl, List.take_add, List.take_add, List.take_add]
    simp only [List.drop_drop]
  unfold deltaHeader
  rw [hversion, hcount, h.digest, ← h.magic, ← List.append_assoc, ← List.append_assoc,
    ← List.append_assoc, List.take_left' (by simp; omega), hsplit]
  simp only [List.append_assoc]

/-! ## The readers -/

section Unwrapped

/-- The payload of a delta whose declared count does not wrap. -/
lemma Stamped.length_payload (h : Stamped data) (hlen : data.length < 2 ^ 63)
    (hcount : declared data * deltaEntrySize < 2 ^ 64) :
    (data.drop deltaHeaderSize).length = declared data * deltaEntrySize := by
  have hmod := h.size
  have hheader := h.header
  rw [List.length_drop]
  omega

variable (h : Stamped data) (hlen : data.length < 2 ^ 63)
  (hcount : declared data * deltaEntrySize < 2 ^ 64)

include h hlen hcount

lemma Stamped.parseDeltaRun : parseDeltaRun data =
    .returns (.ok (decodeDeltaEntries (declared data) (data.drop deltaHeaderSize))) := by
  have hpayload := h.length_payload hlen hcount
  unfold Index.parseDeltaRun
  rw [(checkDelta_iff hlen).2 h]
  exact if_neg (not_lt.2 hpayload.ge)

lemma Stamped.forEachDeltaEntry : forEachDeltaEntry data =
    (decodeDeltaEntries (declared data) (data.drop deltaHeaderSize), .returns (.ok ())) := by
  have hthere : (data.drop deltaHeaderSize).length / deltaEntrySize = declared data := by
    rw [h.length_payload hlen hcount, Nat.mul_div_cancel _ (by decide)]
  unfold Index.forEachDeltaEntry
  rw [(checkDelta_iff hlen).2 h]
  exact if_neg (not_lt.2 hthere.ge)

lemma Stamped.streamDeltaRecords : streamDeltaRecords data =
    (decodeDeltaEntries (declared data) (data.drop deltaHeaderSize), true) := by
  have hthere : (data.length - deltaHeaderSize) / deltaEntrySize = declared data := by
    rw [← List.length_drop, h.length_payload hlen hcount, Nat.mul_div_cancel _ (by decide)]
  unfold Index.streamDeltaRecords
  simp only [hthere]
  unfold declared
  rw [Nat.min_self, decide_eq_true le_rfl]

/-- **A delta with a true header is read exactly.** -/
lemma Stamped.readExactly : ReadExactly data where
  exact := by
    intro _
    have hpayload := h.length_payload hlen hcount
    have hheader := h.header
    rw [List.length_drop] at hpayload
    exact ⟨by omega, h.digest⟩
  agree := by
    have hparses : Parses data := ⟨_, h.parseDeltaRun hlen hcount⟩
    have hyields : Yields data := by rw [Yields, h.forEachDeltaEntry hlen hcount]
    exact ⟨iff_of_true (validates_iff.2 h) hparses, iff_of_true hyields hparses⟩
  parse_returns := by
    intro msg
    rw [h.parseDeltaRun hlen hcount]
    simp
  forEach_returns := by
    intro msg
    rw [h.forEachDeltaEntry hlen hcount]
    simp
  stream_ends := by
    intro _
    rw [h.streamDeltaRecords hlen hcount]
  marshal := by
    intro es hes
    rw [h.parseDeltaRun hlen hcount] at hes
    cases hes
    have hpayload := flatMap_decodeDeltaEntries (h.length_payload hlen hcount)
    refine ⟨by rw [h.forEachDeltaEntry hlen hcount], by rw [h.streamDeltaRecords hlen hcount],
      ?_, ?_⟩
    · rw [marshalDelta, hpayload, length_decodeDeltaEntries,
        List.take_append_of_le_length (by rw [length_deltaHeader]; decide), h.take_header]
    · rw [marshalDelta, hpayload, List.drop_left' (length_deltaHeader _ _)]

end Unwrapped

/-- What fails the checks is refused by all readers. -/
lemma readExactly_of_not_stamped (hlen : data.length < 2 ^ 63) (h : ¬ Stamped data) :
    ReadExactly data := by
  obtain ⟨e, he⟩ : ∃ e, checkDelta data = .error e := by
    cases hcheck : checkDelta data with
    | error e => exact ⟨e, rfl⟩
    | ok u => exact absurd ((checkDelta_iff hlen).1 hcheck) h
  have hrun : parseDeltaRun data = .returns (.error e) := by
    unfold parseDeltaRun
    rw [he]
  have hforEach : forEachDeltaEntry data = ([], .returns (.error e)) := by
    unfold forEachDeltaEntry
    rw [he]
  have hparses : ¬ Parses data := by simp [Parses, hrun]
  have hvalidates : ¬ Validates data := fun hv => h (validates_iff.1 hv)
  have hyields : ¬ Yields data := by simp [Yields, hforEach]
  refine ⟨?_, ⟨iff_of_false hvalidates hparses, iff_of_false hyields hparses⟩, ?_, ?_, ?_, ?_⟩
  · rintro (hp | hv | hy)
    · exact absurd hp hparses
    · exact absurd hv hvalidates
    · exact absurd hy hyields
  · intro msg
    rw [hrun]
    simp
  · intro msg
    rw [hforEach]
    simp
  · exact fun hv => absurd hv hvalidates
  · exact fun es hes => absurd ⟨es, hes⟩ hparses

/-- **When deltas are read exactly.** The readers accept what the header of a byte string declares
and nothing else, unless the product of the declared count wraps behind the other checks.

**Proof sketch.** All three make the checks of `Stamped`. If the product wraps, the file check still
accepts, although the payload is shorter than declared. -/
theorem readExactly_iff (data : Bytes) (hlen : data.length < 2 ^ 63) :
    ReadExactly data ↔ (Stamped data → declared data * deltaEntrySize < 2 ^ 64) := by
  constructor
  · intro hread hstamped
    obtain ⟨hsize, -⟩ := hread.exact (.inr (.inl (validates_iff.2 hstamped)))
    omega
  · intro hcount
    by_cases hstamped : Stamped data
    · exact hstamped.readExactly hlen (hcount hstamped)
    · exact readExactly_of_not_stamped hlen hstamped

/-- A delta of one entry. -/
def oneDelta : Bytes := marshalDelta [⟨hashWith 1, 7, 0, 9, 1⟩]

/-- A delta of one entry is read exactly. -/
theorem readExactly_oneDelta : ReadExactly oneDelta :=
  (readExactly_iff oneDelta (by decide)).2 fun _ => by decide

/-- A delta without entries whose header declares `2 ^ 61` of them. -/
def wrapped : Bytes := deltaHeader (2 ^ 61) (sum256 [])

/-- **A wrapped count is accepted**: the streamed read fails, the other two read out of range. -/
theorem wrapped_accepted :
    Validates wrapped ∧ wrapped.length ≠ deltaHeaderSize + declared wrapped * deltaEntrySize ∧
      (streamDeltaRecords wrapped).2 = false ∧
      (∃ msg, parseDeltaRun wrapped = .panics msg) ∧
      (∃ msg, (forEachDeltaEntry wrapped).2 = .panics msg) ∧ ¬ ReadExactly wrapped := by
  have hvalid : Validates wrapped := by
    rw [validates_iff]
    exact ⟨by decide, by decide, by decide, by decide, by decide +kernel⟩
  have hsize : wrapped.length ≠ deltaHeaderSize + declared wrapped * deltaEntrySize := by decide
  have hcheck : checkDelta wrapped = .ok () :=
    (checkDelta_iff (by decide)).2 (validates_iff.1 hvalid)
  refine ⟨hvalid, hsize, by decide,
    ⟨"runtime error: makeslice: len out of range", ?_⟩,
    ⟨"runtime error: slice bounds out of range", ?_⟩, ?_⟩
  · unfold parseDeltaRun
    rw [hcheck]
    exact if_pos (by decide)
  · unfold forEachDeltaEntry
    rw [hcheck]
    simp only
    rw [if_pos (by decide)]
  · intro h
    exact hsize (h.exact (.inr (.inl hvalid))).1

end DiskNexus.Index
