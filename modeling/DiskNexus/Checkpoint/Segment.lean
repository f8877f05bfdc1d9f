import DiskNexus.Index.Delta
import DiskNexus.Lib.Crc32

/-!
# Checkpoint segments

Each checkpoint of a backup comes with a segment: the bytes that the entries sidecar has gained, and
the index inserts made since the checkpoint before. Segments stand one behind the other in a file. A
reader stops, without an error, at the first record that does not read.

## Main results

`record_marshalSegment`, `unmarshalSegment_strict_prefix`, `parseFrom_records`, `parseSegments_torn`
-/

namespace DiskNexus.Checkpointing

open Binary Sha256 Index

/-- `InsertTuple`: the fields of a delta entry, and their layout. -/
abbrev InsertTuple := DeltaEntry

/-- `Segment`. -/
structure Segment where
  seq : UInt32
  entriesLenAfter : Int64
  sidecarBytes : Bytes
  inserts : List InsertTuple
  deriving DecidableEq

/-- The bytes of `"DNSG"`. -/
def segMagic : Bytes := [0x44, 0x4E, 0x53, 0x47]

/-- The version that is written. -/
def segVersion : UInt8 := 2

/-- The size of a tuple without a weak hash. -/
def insertSizeV1 : ℕ := 48

/-- The size of a tuple. -/
def insertSize : ℕ := 56

/-- The size of the header of a segment. -/
def segHeaderSize : ℕ := 25

/-- The size of the checksum behind a segment. -/
def segTrailerSize : ℕ := 4

/-- `insertSizeFor`. -/
def insertSizeFor (version : UInt8) : ℕ := if version = 1 then insertSizeV1 else insertSize

/-- What the checksum of a segment covers. -/
def segmentBody (s : Segment) : Bytes :=
  segMagic ++ ([segVersion] ++ (le 4 s.seq.toNat ++ (le 8 s.entriesLenAfter.toUInt64.toNat ++
    (le 4 s.sidecarBytes.length ++ (le 4 s.inserts.length ++
      (s.sidecarBytes ++ s.inserts.flatMap encodeDeltaEntry))))))

/-- `MarshalSegment`. -/
def marshalSegment (s : Segment) : Bytes :=
  segmentBody s ++ le 4 (Crc32.checksumIEEE (segmentBody s)).toNat

/-- One tuple; version 1 has no weak hash. -/
def decodeTuple (version : UInt8) (src : Bytes) : InsertTuple :=
  if version = 1 then
    { strongHash := hashOf src
      weakHash := 0
      packNumber := UInt32.ofNat (fieldAt src 32 4)
      storeOffset := UInt64.ofNat (fieldAt src 36 8)
      chunkLength := UInt32.ofNat (fieldAt src 44 4) }
  else decodeDeltaEntry src

/-- The first `n` tuples. -/
def decodeTuples (version : UInt8) : ℕ → Bytes → List InsertTuple
  | 0, _ => []
  | n + 1, src =>
    decodeTuple version src :: decodeTuples version n (src.drop (insertSizeFor version))

/-- The version byte of a segment. -/
def versionOf (data : Bytes) : UInt8 := data.getD 4 0

/-- The size that the header of a segment states for it. -/
def statedSize (data : Bytes) : ℕ :=
  segHeaderSize + fieldAt data 17 4 + fieldAt data 21 4 * insertSizeFor (versionOf data) +
    segTrailerSize

/-- The fields of a segment. -/
def readSegment (data : Bytes) : Segment where
  seq := UInt32.ofNat (fieldAt data 5 4)
  entriesLenAfter := (UInt64.ofNat (fieldAt data 9 8)).toInt64
  sidecarBytes := (data.drop segHeaderSize).take (fieldAt data 17 4)
  inserts := decodeTuples (versionOf data) (fieldAt data 21 4)
    (data.drop (segHeaderSize + fieldAt data 17 4))

/-- `UnmarshalSegment`: the segment at the front of `data`, and its size. -/
def unmarshalSegment (data : Bytes) : Except String (Segment × ℕ) :=
  let version := versionOf data
  let body := data.take (statedSize data - segTrailerSize)
  if data.length < segHeaderSize + segTrailerSize then .error "unexpected EOF"
  else if data.take 4 ≠ segMagic then .error "bad segment magic"
  else if version ≠ segVersion ∧ version ≠ 1 then .error s!"unsupported segment version {version}"
  else if data.length < statedSize data then .error "unexpected EOF"
  else if (Crc32.checksumIEEE body).toNat ≠
      fieldAt data (statedSize data - segTrailerSize) 4 then .error "segment CRC mismatch"
  else .ok (readSegment data, statedSize data)

/-- The loop of `ParseSegments`, with `n` segments read. Every round takes a byte at least. -/
def parseLoop : ℕ → ℕ → Bytes → List Segment
  | 0, _, _ => []
  | fuel + 1, n, data =>
    if data.isEmpty then []
    else
      match unmarshalSegment data with
      | .error _ => []
      | .ok (s, size) =>
        if s.seq ≠ UInt32.ofNat n then []
        else s :: parseLoop fuel (n + 1) (data.drop size)

/-- `ParseSegments`. -/
def parseSegments (data : Bytes) : List Segment := parseLoop data.length 0 data

/-- The loop of `TruncateSegmentsLocal`: the size of `keepCount` segments. -/
def keepBytes : ℕ → ℕ → Bytes → Except String ℕ
  | 0, _, _ => .ok 0
  | keepCount + 1, i, rest =>
    if rest.isEmpty then .ok 0
    else
      match unmarshalSegment rest with
      | .error e => .error s!"segment {i} unreadable while truncating: {e}"
      | .ok (_, n) =>
        match keepBytes keepCount (i + 1) (rest.drop n) with
        | .error e => .error e
        | .ok more => .ok (n + more)

/-- `TruncateSegmentsLocal`, on the bytes of the file. -/
def truncateSegments (data : Bytes) (keepCount : ℕ) : Except String Bytes :=
  match keepBytes keepCount 0 data with
  | .error e => .error e
  | .ok n => .ok (data.take n)

/-! ## Records -/

/-- The bytes of one segment, in either version. -/
def Record (r : Bytes) (s : Segment) : Prop := unmarshalSegment r = .ok (s, r.length)

/-- What `UnmarshalSegment` has checked. -/
structure Accepts (data : Bytes) : Prop where
  header : segHeaderSize + segTrailerSize ≤ data.length
  magic : data.take 4 = segMagic
  version : versionOf data = segVersion ∨ versionOf data = 1
  size : statedSize data ≤ data.length
  checksum : (Crc32.checksumIEEE (data.take (statedSize data - segTrailerSize))).toNat =
    fieldAt data (statedSize data - segTrailerSize) 4

variable {data src : Bytes} {s : Segment} {n : ℕ} {ss : List Segment}

lemma unmarshalSegment_eq_ok :
    unmarshalSegment data = .ok (s, n) ↔
      Accepts data ∧ s = readSegment data ∧ n = statedSize data := by
  unfold unmarshalSegment
  simp only [ite_error_eq_ok, not_lt, not_and_or, not_not, Except.ok.injEq, Prod.mk.injEq]
  constructor
  · rintro ⟨h1, h2, h3, h4, h5, rfl, rfl⟩
    exact ⟨⟨h1, h2, h3, h4, h5⟩, rfl, rfl⟩
  · rintro ⟨⟨h1, h2, h3, h4, h5⟩, rfl, rfl⟩
    exact ⟨h1, h2, h3, h4, h5, rfl, rfl⟩

lemma segTrailerSize_le_statedSize (data : Bytes) :
    segHeaderSize + segTrailerSize ≤ statedSize data := by
  unfold statedSize
  omega

/-! ## What follows a record does not matter -/

lemma hashOf_append (h : 32 ≤ src.length) (rest : Bytes) :
    hashOf (src ++ rest) = hashOf src := by
  simp only [hashOf, List.take_append_of_le_length h]

lemma decodeTuple_append {version : UInt8} (h : insertSizeFor version ≤ src.length) (rest : Bytes) :
    decodeTuple version (src ++ rest) = decodeTuple version src := by
  unfold decodeTuple
  unfold insertSizeFor insertSizeV1 insertSize at h
  split_ifs with hversion
  · rw [if_pos hversion] at h
    rw [hashOf_append (by omega), fieldAt_append (by omega), fieldAt_append (by omega),
      fieldAt_append (by omega)]
  · rw [if_neg hversion] at h
    have hfield : ∀ i w, i + w ≤ 56 →
        ofLE (((src ++ rest).drop i).take w) = ofLE ((src.drop i).take w) :=
      fun i w hiw => fieldAt_append (by omega) rest
    simp only [decodeDeltaEntry]
    rw [hashOf_append (by omega), hfield 32 8 (by omega), hfield 40 4 (by omega),
      hfield 44 8 (by omega), hfield 52 4 (by omega)]

lemma decodeTuples_append {version : UInt8} (h : n * insertSizeFor version ≤ src.length)
    (rest : Bytes) :
    decodeTuples version n (src ++ rest) = decodeTuples version n src := by
  induction n generalizing src with
  | zero => rfl
  | succ n ih =>
    rw [Nat.succ_mul] at h
    rw [decodeTuples, decodeTuples, decodeTuple_append (by omega),
      List.drop_append_of_le_length (by omega), ih (by rw [List.length_drop]; omega)]

lemma versionOf_append (h : segHeaderSize ≤ data.length) (rest : Bytes) :
    versionOf (data ++ rest) = versionOf data := by
  unfold segHeaderSize at h
  simp only [versionOf, List.getD_eq_getElem?_getD]
  rw [List.getElem?_append_left (by omega)]

lemma statedSize_append (h : segHeaderSize ≤ data.length) (rest : Bytes) :
    statedSize (data ++ rest) = statedSize data := by
  have hlen : 25 ≤ data.length := h
  unfold statedSize
  rw [versionOf_append h, fieldAt_append (by omega), fieldAt_append (by omega)]

lemma readSegment_append (h : statedSize data ≤ data.length) (rest : Bytes) :
    readSegment (data ++ rest) = readSegment data := by
  have hheader : segHeaderSize ≤ data.length := by
    have := segTrailerSize_le_statedSize data
    omega
  have hlen : 25 ≤ data.length := hheader
  unfold statedSize segTrailerSize at h
  unfold readSegment
  rw [versionOf_append hheader, fieldAt_append (by omega), fieldAt_append (by omega),
    fieldAt_append (by omega), fieldAt_append (by omega),
    List.drop_append_of_le_length hheader,
    List.take_append_of_le_length (by rw [List.length_drop]; omega),
    List.drop_append_of_le_length (by omega),
    decodeTuples_append (by rw [List.length_drop]; omega)]

lemma Accepts.append (h : Accepts data) (rest : Bytes) : Accepts (data ++ rest) := by
  have hheader : segHeaderSize ≤ data.length := by
    have := h.header
    omega
  have hsize := statedSize_append hheader rest
  have hstated := h.size
  have hmin := segTrailerSize_le_statedSize data
  have htrailer : statedSize data - segTrailerSize + 4 ≤ data.length := by
    unfold segTrailerSize at hmin ⊢
    omega
  constructor
  · rw [List.length_append]
    exact le_trans h.header (Nat.le_add_right _ _)
  · rw [List.take_append_of_le_length (by omega)]
    exact h.magic
  · rw [versionOf_append hheader]
    exact h.version
  · rw [hsize, List.length_append]
    omega
  · rw [hsize, List.take_append_of_le_length (by omega), fieldAt_append htrailer]
    exact h.checksum

/-- A record reads the same whatever follows it. -/
lemma Record.unmarshalSegment_append {r : Bytes} (h : Record r s) (rest : Bytes) :
    unmarshalSegment (r ++ rest) = .ok (s, r.length) := by
  obtain ⟨haccepts, rfl, hsize⟩ := unmarshalSegment_eq_ok.1 h
  refine unmarshalSegment_eq_ok.2 ⟨haccepts.append rest, ?_, ?_⟩
  · rw [readSegment_append haccepts.size]
  · rw [statedSize_append (by have := haccepts.header; omega), ← hsize]

lemma Record.ne_nil {r : Bytes} (h : Record r s) : r ≠ [] := by
  rintro rfl
  have hheader := (unmarshalSegment_eq_ok.1 h).1.header
  simp [segHeaderSize] at hheader

/-- **A torn record does not read.** -/
theorem unmarshalSegment_strict_prefix {torn rest : Bytes} (h : Record (torn ++ rest) s)
    (hrest : rest ≠ []) :
    ∃ e, unmarshalSegment torn = .error e := by
  cases htorn : unmarshalSegment torn with
  | error e => exact ⟨e, rfl⟩
  | ok r =>
    obtain ⟨haccepts, -, -⟩ := unmarshalSegment_eq_ok.1 htorn
    obtain ⟨-, -, hsize⟩ := unmarshalSegment_eq_ok.1 h
    rw [statedSize_append (by have := haccepts.header; omega), List.length_append] at hsize
    have hstated := haccepts.size
    have hpos := List.length_pos_of_ne_nil hrest
    omega

/-! ## Marshaled segments -/

/-- The parts of a segment fit the fields of its header. -/
structure Segment.Fits (s : Segment) : Prop where
  sidecar : s.sidecarBytes.length < 2 ^ 32
  inserts : s.inserts.length < 2 ^ 32

/-- The layouts of a segment that are read. -/
inductive Layout where
  | v1
  | v2

namespace Layout

variable {l : Layout}

/-- The version byte of a layout. -/
def version : Layout → UInt8
  | v1 => 1
  | v2 => segVersion

/-- A tuple; version 1 has no weak hash. -/
def encodeTuple : Layout → InsertTuple → Bytes
  | v1, t => t.strongHash.val ++ (le 4 t.packNumber.toNat ++
      (le 8 t.storeOffset.toNat ++ le 4 t.chunkLength.toNat))
  | v2, t => encodeDeltaEntry t

/-- What is read of a tuple. -/
def readBack : Layout → InsertTuple → InsertTuple
  | v1, t => { t with weakHash := 0 }
  | v2, t => t

/-- The header of a segment, with `tail` behind it. -/
def header (l : Layout) (s : Segment) (tail : Bytes) : Bytes :=
  segMagic ++ ([l.version] ++ (le 4 s.seq.toNat ++ (le 8 s.entriesLenAfter.toUInt64.toNat ++
    (le 4 s.sidecarBytes.length ++ (le 4 s.inserts.length ++ tail)))))

/-- What the checksum of a segment covers. -/
def body (l : Layout) (s : Segment) : Bytes :=
  l.header s (s.sidecarBytes ++ s.inserts.flatMap l.encodeTuple)

/-- A segment in a layout: the current one is that of `marshalSegment`. -/
def marshal (l : Layout) (s : Segment) : Bytes :=
  l.body s ++ le 4 (Crc32.checksumIEEE (l.body s)).toNat

/-- What is read of a segment. -/
def kept (l : Layout) (s : Segment) : Segment := { s with inserts := s.inserts.map l.readBack }

lemma length_encodeTuple (l : Layout) (t : InsertTuple) :
    (l.encodeTuple t).length = insertSizeFor l.version := by
  cases l with
  | v1 => simp [encodeTuple, t.strongHash.2, insertSizeFor, version, insertSizeV1]
  | v2 => exact length_encodeDeltaEntry t

lemma decodeTuple_encodeTuple (l : Layout) (t : InsertTuple) (rest : Bytes) :
    decodeTuple l.version (l.encodeTuple t ++ rest) = l.readBack t := by
  cases l with
  | v1 =>
    obtain ⟨⟨hash, hlen⟩, weak, pack, offset, len⟩ := t
    simp [decodeTuple, encodeTuple, version, readBack, hashOf, fieldAt_skip, hlen]
  | v2 => exact decodeDeltaEntry_append t rest

lemma decodeTuples_flatMap (l : Layout) (ts : List InsertTuple) (rest : Bytes) :
    decodeTuples l.version ts.length (ts.flatMap l.encodeTuple ++ rest) = ts.map l.readBack := by
  induction ts with
  | nil => rfl
  | cons t ts ih =>
    rw [List.flatMap_cons, List.append_assoc, List.length_cons, decodeTuples,
      List.drop_left' (l.length_encodeTuple t), ih, decodeTuple_encodeTuple, List.map_cons]

/-- What `readSegment` finds in a header. -/
lemma fields_header (hs : s.Fits) (tail : Bytes) :
    versionOf (l.header s tail) = l.version ∧ fieldAt (l.header s tail) 5 4 = s.seq.toNat ∧
      fieldAt (l.header s tail) 9 8 = s.entriesLenAfter.toUInt64.toNat ∧
      fieldAt (l.header s tail) 17 4 = s.sidecarBytes.length ∧
      fieldAt (l.header s tail) 21 4 = s.inserts.length ∧
      (l.header s tail).drop segHeaderSize = tail := by
  have hsidecar : s.sidecarBytes.length < 256 ^ 4 := hs.sidecar
  have hinserts : s.inserts.length < 256 ^ 4 := hs.inserts
  refine ⟨rfl, ?_, ?_, ?_, ?_, ?_⟩
  · simp [header, segMagic]
  · simp [header, segMagic, fieldAt_skip]
  · simp [header, segMagic, fieldAt_skip, fieldAt_le hsidecar]
  · simp [header, segMagic, fieldAt_skip, fieldAt_le hinserts]
  · simp [header, segMagic, segHeaderSize, List.drop_append, List.drop_of_length_le]

lemma marshal_eq (l : Layout) (s : Segment) :
    l.marshal s = l.header s (s.sidecarBytes ++ (s.inserts.flatMap l.encodeTuple ++
      le 4 (Crc32.checksumIEEE (l.body s)).toNat)) := by
  simp [marshal, body, header]

lemma length_body (l : Layout) (s : Segment) :
    (l.body s).length = segHeaderSize + s.sidecarBytes.length +
      s.inserts.length * insertSizeFor l.version := by
  have hinserts : (s.inserts.flatMap l.encodeTuple).length =
      s.inserts.length * insertSizeFor l.version := by
    simp [List.length_flatMap, length_encodeTuple]
  simp only [body, header, segMagic, List.length_append, List.length_cons, List.length_nil,
    length_le, hinserts, segHeaderSize]
  omega

lemma statedSize_marshal (hs : s.Fits) :
    statedSize (l.marshal s) = (l.body s).length + segTrailerSize := by
  rw [marshal_eq, statedSize]
  obtain ⟨hversion, -, -, hsidecar, hinserts, -⟩ := fields_header (l := l) hs _
  rw [hversion, hsidecar, hinserts, length_body]

lemma length_marshal (hs : s.Fits) : (l.marshal s).length = statedSize (l.marshal s) := by
  rw [statedSize_marshal hs, marshal, List.length_append, length_le, segTrailerSize]

lemma readSegment_marshal (hs : s.Fits) : readSegment (l.marshal s) = l.kept s := by
  rw [marshal_eq, readSegment]
  obtain ⟨hversion, hseq, hentries, hsidecar, hinserts, htail⟩ := fields_header (l := l) hs _
  rw [hversion, hseq, hentries, hsidecar, hinserts, ← List.drop_drop, htail, List.take_left,
    List.drop_left, decodeTuples_flatMap]
  simp [kept]

/-- **A marshaled segment reads back**, in either layout. -/
theorem record_marshal (l : Layout) (hs : s.Fits) : Record (l.marshal s) (l.kept s) := by
  have hsize := statedSize_marshal (l := l) hs
  have hlen := length_marshal (l := l) hs
  have hbody : (l.body s).length = statedSize (l.marshal s) - segTrailerSize := by
    omega
  refine unmarshalSegment_eq_ok.2 ⟨?_, (readSegment_marshal hs).symm, hlen⟩
  constructor
  · rw [hlen]
    exact segTrailerSize_le_statedSize _
  · rw [marshal_eq, header, List.take_left' (by rfl)]
  · cases l with
    | v1 => exact .inr rfl
    | v2 => exact .inl rfl
  · exact hlen.symm.le
  · rw [← hbody, marshal, List.take_left, fieldAt_skip le_rfl, Nat.sub_self, fieldAt,
      List.drop_zero, List.take_of_length_le (by simp), ofLE_uint32]

end Layout

theorem record_marshalSegment (hs : s.Fits) : Record (marshalSegment s) s := by
  have := Layout.v2.record_marshal hs
  rwa [Layout.kept, show s.inserts.map Layout.v2.readBack = s.inserts from List.map_id _] at this

/-! ## Files of records -/

/-- Fuel beyond the bytes changes nothing. -/
lemma parseLoop_fuel {fuel fuel' : ℕ} (h : data.length ≤ fuel) (h' : data.length ≤ fuel') (n : ℕ) :
    parseLoop fuel n data = parseLoop fuel' n data := by
  induction fuel generalizing fuel' data n with
  | zero =>
    obtain rfl := List.eq_nil_of_length_eq_zero (Nat.le_zero.1 h)
    cases fuel' <;> rfl
  | succ fuel ih =>
    cases fuel' with
    | zero =>
      obtain rfl := List.eq_nil_of_length_eq_zero (Nat.le_zero.1 h')
      rfl
    | succ fuel' =>
      rw [parseLoop, parseLoop]
      split
      · rfl
      · cases hun : unmarshalSegment data with
        | error e => rfl
        | ok r =>
          obtain ⟨s, size⟩ := r
          obtain ⟨-, -, rfl⟩ := unmarshalSegment_eq_ok.1 hun
          have hmin : 29 ≤ statedSize data := segTrailerSize_le_statedSize data
          have hrest : parseLoop fuel (n + 1) (data.drop (statedSize data)) =
              parseLoop fuel' (n + 1) (data.drop (statedSize data)) :=
            ih (by rw [List.length_drop]; omega) (by rw [List.length_drop]; omega) _
          simp only
          rw [hrest]

/-- `ParseSegments` behind `n` segments. -/
def parseFrom (n : ℕ) (data : Bytes) : List Segment := parseLoop data.length n data

lemma parseFrom_nil (n : ℕ) : parseFrom n [] = [] := rfl

/-- The reader stops at bytes that do not read. -/
lemma parseFrom_error {e : String} (h : unmarshalSegment data = .error e) (n : ℕ) :
    parseFrom n data = [] := by
  unfold parseFrom
  cases data with
  | nil => rfl
  | cons b bs => simp [parseLoop, h]

lemma parseFrom_ok {size : ℕ} (h : unmarshalSegment data = .ok (s, size)) (n : ℕ) :
    parseFrom n data = if s.seq = UInt32.ofNat n then s :: parseFrom (n + 1) (data.drop size)
      else [] := by
  have hsize := (unmarshalSegment_eq_ok.1 h).2.2
  have hmin : 29 ≤ size := hsize ▸ segTrailerSize_le_statedSize data
  cases data with
  | nil => simp [unmarshalSegment, segHeaderSize] at h
  | cons b bs =>
    rw [parseFrom, List.length_cons, parseLoop]
    simp only [List.isEmpty_cons, h, Bool.false_eq_true, if_false]
    rw [parseLoop_fuel (by rw [List.length_drop, List.length_cons]; omega) le_rfl, ← parseFrom]
    by_cases hseq : s.seq = UInt32.ofNat n
    · rw [if_pos hseq, if_neg (not_not.2 hseq)]
    · rw [if_neg hseq, if_pos hseq]

/-- Segments numbered one after the other from `n` on. -/
def Consecutive : ℕ → List Segment → Prop
  | _, [] => True
  | n, s :: ss => s.seq = UInt32.ofNat n ∧ Consecutive (n + 1) ss

lemma Consecutive.take (h : Consecutive n ss) (k : ℕ) :
    Consecutive n (ss.take k) := by
  induction ss generalizing n k with
  | nil => simpa using h
  | cons s ss ih =>
    cases k with
    | zero => trivial
    | succ k => exact ⟨h.1, ih h.2 k⟩

lemma Consecutive.append {ss' : List Segment} (h : Consecutive n ss)
    (h' : Consecutive (n + ss.length) ss') : Consecutive n (ss ++ ss') := by
  induction ss generalizing n with
  | nil => exact h'
  | cons s ss ih =>
    refine ⟨h.1, ih h.2 ?_⟩
    rwa [Nat.add_assoc, Nat.add_comm 1]

/-- **Numbered records are all read**, and the reader goes on behind them. -/
theorem parseFrom_records {rs : List Bytes} (h : List.Forall₂ Record rs ss) (hn : Consecutive n ss)
    (rest : Bytes) :
    parseFrom n (rs.flatten ++ rest) = ss ++ parseFrom (n + ss.length) rest := by
  induction h generalizing n with
  | nil => rfl
  | @cons r s rs ss hr _ ih =>
    obtain ⟨hseq, hrest⟩ := hn
    rw [List.flatten_cons, List.append_assoc,
      parseFrom_ok (hr.unmarshalSegment_append _), if_pos hseq, List.drop_left, ih hrest,
      List.length_cons, List.cons_append, Nat.add_right_comm n 1, Nat.add_assoc]

lemma parseSegments_eq (data : Bytes) : parseSegments data = parseFrom 0 data := rfl

/-- `TruncateSegmentsLocal` keeps the first records. -/
lemma truncateSegments_records {rs : List Bytes} (h : List.Forall₂ Record rs ss) {k : ℕ}
    (hk : k ≤ rs.length) (rest : Bytes) :
    truncateSegments (rs.flatten ++ rest) k = .ok (rs.take k).flatten := by
  have hkeep : ∀ i, keepBytes k i (rs.flatten ++ rest) = .ok (rs.take k).flatten.length := by
    induction h generalizing k with
    | nil =>
      intro i
      obtain rfl := Nat.le_zero.1 hk
      rfl
    | @cons r s rs ss hr _ ih =>
      intro i
      cases k with
      | zero => rfl
      | succ k =>
        have hne : ((r :: rs).flatten ++ rest).isEmpty = false := by
          have := hr.ne_nil
          simp [this]
        rw [keepBytes, hne, List.flatten_cons, List.append_assoc]
        simp only [Bool.false_eq_true, if_false, hr.unmarshalSegment_append, List.drop_left,
          ih (Nat.le_of_succ_le_succ hk) (i + 1)]
        rw [List.take_succ_cons, List.flatten_cons, List.length_append]
  have hsplit : rs.flatten ++ rest = (rs.take k).flatten ++ ((rs.drop k).flatten ++ rest) := by
    rw [← List.append_assoc, ← List.flatten_append, List.take_append_drop]
  rw [truncateSegments, hkeep]
  simp only
  rw [hsplit, List.take_left]

lemma consecutive_kept {ls : List (Layout × Segment)} (h : Consecutive n (ls.map (·.2))) :
    Consecutive n (ls.map fun p => p.1.kept p.2) := by
  induction ls generalizing n with
  | nil => exact h
  | cons p ls ih => exact ⟨h.1, ih h.2⟩

/-- **The segments of a file**: of segments numbered from `0` on, each in one of the two layouts,
and a torn one behind them, the reader returns all but the torn one, and a truncation leaves the
bytes of those that it keeps. -/
theorem parseSegments_torn {ls : List (Layout × Segment)} (hfits : ∀ p ∈ ls, p.2.Fits)
    (hseq : Consecutive 0 (ls.map (·.2))) {l : Layout} {next : Segment} (hnext : next.Fits)
    {torn : Bytes} (htorn : torn <+: l.marshal next) (hne : torn ≠ l.marshal next) :
    parseSegments ((ls.flatMap fun p => p.1.marshal p.2) ++ torn) =
        ls.map (fun p => p.1.kept p.2) ∧
      ∀ k ≤ ls.length, truncateSegments ((ls.flatMap fun p => p.1.marshal p.2) ++ torn) k =
        .ok ((ls.take k).flatMap fun p => p.1.marshal p.2) := by
  have hrecords : List.Forall₂ Record (ls.map fun p => p.1.marshal p.2)
      (ls.map fun p => p.1.kept p.2) := by
    rw [List.forall₂_map_left_iff, List.forall₂_map_right_iff, List.forall₂_same]
    exact fun p hp => p.1.record_marshal (hfits p hp)
  obtain ⟨rest, hrest⟩ := htorn
  have hrecord : Record (torn ++ rest) (l.kept next) := hrest ▸ l.record_marshal hnext
  obtain ⟨e, he⟩ := unmarshalSegment_strict_prefix hrecord
    (by rintro rfl; exact hne (by rw [← hrest, List.append_nil]))
  constructor
  · rw [parseSegments_eq, List.flatMap_def, parseFrom_records hrecords (consecutive_kept hseq),
      parseFrom_error he, List.append_nil]
  · intro k hk
    rw [List.flatMap_def, truncateSegments_records hrecords (by simpa using hk), ← List.map_take,
      List.flatMap_def]

/-- A segment of each layout. -/
def oldAndNew : List (Layout × Segment) :=
  [(.v1, ⟨0, 4, [7, 7, 7, 7], [⟨.zero, 5, 0, 8, 3⟩]⟩), (.v2, ⟨1, 4, [], [⟨.zero, 6, 0, 19, 3⟩]⟩)]

/-- The two and the start of a third: the old one has no weak hash. -/
theorem parseSegments_oldAndNew :
    parseSegments ((oldAndNew.flatMap fun p => p.1.marshal p.2) ++
        (Layout.v2.marshal ⟨2, 4, [], []⟩).take 9) =
      [⟨0, 4, [7, 7, 7, 7], [⟨.zero, 0, 0, 8, 3⟩]⟩, ⟨1, 4, [], [⟨.zero, 6, 0, 19, 3⟩]⟩] :=
  have hfits : ∀ p ∈ oldAndNew, p.2.Fits := by
    intro p hp
    obtain rfl | rfl : p = _ ∨ p = _ := by simpa [oldAndNew] using hp
    · exact ⟨by decide, by decide⟩
    · exact ⟨by decide, by decide⟩
  (parseSegments_torn hfits ⟨rfl, rfl, trivial⟩ ⟨by decide, by decide⟩ (List.take_prefix 9 _)
    (by decide +kernel)).1

end DiskNexus.Checkpointing
