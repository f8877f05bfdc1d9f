import DiskNexus.Manifest.Dnm

/-!
# Reading the catalog of a manifest in ranges

`StreamCatalogRanged` reads the file catalog of a manifest object without the rest of it. The
offsets and lengths come from the object. They are added as signed 64-bit numbers, so a sum that
wraps passes the check against the size of the object.

## Main results

`locateCatalogRanged_inside_iff`, `streamCatalogRanged_eq_iff`
-/

namespace DiskNexus.Manifest

open Binary Reading

/-- How a ranged read ends without a result. -/
inductive RangeFault
  | refused (message : String)
  | panics
  deriving DecidableEq

/-- `RangeReadFunc`: the bytes from an offset on, as many as asked for. -/
abbrev RangeRead := ℤ → ℤ → Except String Bytes

/-- The ranges that were asked for, in order, and the result. -/
structure Ranged (α : Type) where
  asked : List (ℤ × ℤ)
  result : Except RangeFault α
  deriving DecidableEq

namespace Ranged

variable {α β : Type}

/-- A result without a request. -/
def ret (x : Except RangeFault α) : Ranged α := ⟨[], x⟩

/-- One computation after another. -/
def bind (x : Ranged α) (f : α → Ranged β) : Ranged β :=
  match x.result with
  | .error e => ⟨x.asked, .error e⟩
  | .ok a => ⟨x.asked ++ (f a).asked, (f a).result⟩

instance : Monad Ranged where
  pure a := ret (.ok a)
  bind := bind

/-- An error. -/
def refuse (message : String) : Ranged α := ret (.error (.refused message))

/-- A request. -/
def ask (readRange : RangeRead) (what : String) (off n : ℤ) : Ranged Bytes :=
  ⟨[(off, n)], (readRange off n).mapError fun e => .refused s!"{what}: {e}"⟩

/-- All requests have a property, and the result has another. -/
def Keeps (P : ℤ × ℤ → Prop) (Q : α → Prop) (x : Ranged α) : Prop :=
  (∀ q ∈ x.asked, P q) ∧ ∀ a, x.result = .ok a → Q a

variable {P : ℤ × ℤ → Prop} {Q : α → Prop} {R : β → Prop}

lemma keeps_error (e : RangeFault) : Keeps P Q (ret (.error e)) := ⟨by rintro q ⟨⟩, by rintro a ⟨⟩⟩

lemma keeps_pure {a : α} (h : Q a) : Keeps P Q (pure a) := ⟨by rintro q ⟨⟩, by rintro _ ⟨⟩; exact h⟩

lemma keeps_ask {off n : ℤ} (h : P (off, n)) (readRange : RangeRead) (what : String) :
    Keeps P (fun b => readRange off n = .ok b) (ask readRange what off n) := by
  refine ⟨List.forall_mem_singleton.2 h, fun b hb => ?_⟩
  cases hread : readRange off n with
  | error e => simp [ask, hread, Except.mapError] at hb
  | ok b' => simpa [ask, hread, Except.mapError] using hb

lemma Keeps.bind {x : Ranged α} {f : α → Ranged β} (hx : Keeps P Q x)
    (hf : ∀ a, Q a → Keeps P R (f a)) : Keeps P R (x >>= f) := by
  change Keeps P R (Ranged.bind x f)
  unfold Ranged.bind
  cases hresult : x.result with
  | error e => exact ⟨hx.1, by rintro b ⟨⟩⟩
  | ok a =>
    have ha := hf a (hx.2 a hresult)
    exact ⟨List.forall_mem_append.2 ⟨hx.1, ha.1⟩, ha.2⟩

lemma asked_bind_subset (x : Ranged α) (f : α → Ranged β) : x.asked ⊆ (x >>= f).asked := by
  change x.asked ⊆ (Ranged.bind x f).asked
  unfold Ranged.bind
  split
  · exact List.Subset.refl _
  · exact List.subset_append_left _ _

end Ranged

open Ranged (ret refuse ask keeps_error keeps_pure keeps_ask)

/-! ## The section index -/

/-- The offset of the section index; a zero stands for the trailer. -/
def locateIndexRanged (size : ℤ) (readRange : RangeRead) (stored count : ℕ) : Ranged ℕ :=
  if stored ≠ 0 then pure stored
  else do
    let tr ← ask readRange "reading streamed dnm trailer" (size - 8) 8
    if tr.length < 8 then ret (.error .panics)
    else
      let trailer := fieldAt tr 0 8
      if trailer ≠ int64Bits (size - 8 - count * sectionIndexSize) then
        refuse s!"streamed dnm trailer offset {trailer} inconsistent with size {size}"
      else pure trailer

/-- The loop over the section index; the last catalog record counts. -/
def pickCatalog (idxData : Bytes) : List ℕ → SectionInfo → Except RangeFault SectionInfo
  | [], catalog => .ok catalog
  | i :: is, catalog =>
    if idxData.length < i * sectionIndexSize then .error .panics
    else
      let s := decodeSectionIndex ((idxData.drop (i * sectionIndexSize)).take sectionIndexSize)
      pickCatalog idxData is (if s.typ = sectionCatalog then s else catalog)

/-- The header and the trailer: the offset and the size of the section index. -/
def readHeaderRanged (size : ℤ) (readRange : RangeRead) : Ranged (ℕ × ℕ) :=
  if size < fileHeaderSize then refuse s!"manifest too small ({size} bytes)"
  else do
    let hdr ← ask readRange "reading dnm header" 0 fileHeaderSize
    let version := fieldAt hdr 8 2
    if hdr.length < fileHeaderSize ∨ hdr.take 8 ≠ dnmMagic then refuse "invalid dnm magic bytes"
    else if version ≠ dnmVersion then refuse s!"unsupported dnm version {version}"
    else
      let count := fieldAt hdr 20 4
      let off ← locateIndexRanged size readRange (fieldAt hdr 12 8) count
      pure (off, count)

/-- The section index: the catalog record, if it does not lead off the object. -/
def readIndexRanged (size : ℤ) (readRange : RangeRead) (off count : ℕ) : Ranged SectionInfo :=
  let idxLen : ℤ := count * sectionIndexSize
  if size < wrapInt64 (ofInt64Bits off + idxLen) then refuse "section index out of bounds"
  else do
    let idxData ← ask readRange "reading section index" (ofInt64Bits off) idxLen
    let catalog ← ret (pickCatalog idxData (List.range count) ⟨0, 0, 0, 0⟩)
    if 0 < catalog.count ∧
        size < wrapInt64 (ofInt64Bits catalog.offset + ofInt64Bits catalog.length) then
      refuse "catalog section out of bounds"
    else pure catalog

/-- `locateCatalogRanged`. -/
def locateCatalogRanged (size : ℤ) (readRange : RangeRead) : Ranged SectionInfo := do
  let (off, count) ← readHeaderRanged size readRange
  readIndexRanged size readRange off count

/-! ## The section reader -/

/-- `rangeSectionReader`. -/
structure RangeSectionReader where
  off : ℤ
  stop : ℤ
  window : ℤ
  buf : Bytes

/-- `catalogRangeWindow`. -/
def catalogRangeWindow : ℤ := 2 ^ 20

/-- The reader of the catalog section. -/
def catalogSection (s : SectionInfo) : RangeSectionReader :=
  ⟨ofInt64Bits s.offset, wrapInt64 (ofInt64Bits s.offset + ofInt64Bits s.length),
    catalogRangeWindow, []⟩

namespace RangeSectionReader

/-- The next window. -/
def fill (readRange : RangeRead) (r : RangeSectionReader) : Ranged RangeSectionReader :=
  if r.stop ≤ r.off then refuse "EOF"
  else do
    let n := min r.window (wrapInt64 (r.stop - r.off))
    let upTo := wrapInt64 (r.off + n)
    let b ← ask readRange s!"reading catalog bytes [{r.off},{upTo})" r.off n
    if b = [] then refuse "unexpected EOF"
    else
      let b := b.take n.toNat
      pure { r with off := r.off + b.length, buf := b }

/-- `Read` into a buffer of the given length. -/
def read (readRange : RangeRead) (len : ℕ) (r : RangeSectionReader) :
    Ranged (Bytes × RangeSectionReader) := do
  let r ← if r.buf = [] then r.fill readRange else pure r
  pure (r.buf.take len, { r with buf := r.buf.drop len })

/-- What a sequence of reads asks for, up to the first that fails. -/
def asks (readRange : RangeRead) : List ℕ → RangeSectionReader → List (ℤ × ℤ)
  | [], _ => []
  | len :: lens, r =>
    (r.read readRange len).asked ++
      match (r.read readRange len).result with
      | .error _ => []
      | .ok (_, r) => asks readRange lens r

end RangeSectionReader

/-! ## What is asked for -/

/-- A range lies inside an object of the given size. -/
def Inside (size : ℤ) (q : ℤ × ℤ) : Prop := 0 ≤ q.1 ∧ 0 ≤ q.2 ∧ q.1 + q.2 ≤ size

instance (size : ℤ) (q : ℤ × ℤ) : Decidable (Inside size q) := inferInstanceAs (Decidable (_ ∧ _))

/-- The reads of a section ask for nothing outside it. -/
lemma RangeSectionReader.inside_of_mem_asks {size : ℤ} (hsize : size < 2 ^ 63)
    (readRange : RangeRead) (lens : List ℕ) {r : RangeSectionReader} (hoff : 0 ≤ r.off)
    (hstop : r.stop ≤ size) (hwindow : 0 ≤ r.window) {q : ℤ × ℤ}
    (hq : q ∈ r.asks readRange lens) : Inside size q := by
  induction lens generalizing r with
  | nil => cases hq
  | cons len lens ih =>
    -- a window starts where the reader stands, and does not go beyond the section
    have hfill : (r.fill readRange).Keeps (Inside size) fun r' =>
        0 ≤ r'.off ∧ r'.stop ≤ size ∧ 0 ≤ r'.window := by
      unfold fill
      split
      · exact keeps_error _
      · have hwrap : wrapInt64 (r.stop - r.off) = r.stop - r.off :=
          ofInt64Bits_int64Bits (by omega) (by omega)
        refine (keeps_ask ?_ _ _).bind fun b _ => ?_
        · exact ⟨hoff, by simp only; omega, by simp only; omega⟩
        · split
          · exact keeps_error _
          · exact keeps_pure ⟨by simp only; omega, hstop, hwindow⟩
    have hread : (r.read readRange len).Keeps (Inside size) fun x =>
        0 ≤ x.2.off ∧ x.2.stop ≤ size ∧ 0 ≤ x.2.window := by
      unfold read
      split
      · exact hfill.bind fun r' h => keeps_pure h
      · exact keeps_pure ⟨hoff, hstop, hwindow⟩
    rw [asks, List.mem_append] at hq
    rcases hq with hq | hq
    · exact hread.1 q hq
    · split at hq
      · cases hq
      · rename_i hresult
        obtain ⟨hoff', hstop', hwindow'⟩ := hread.2 _ hresult
        exact ih hoff' hstop' hwindow' hq

/-- The header stage asks for the header and the trailer. -/
lemma readHeaderRanged_keeps (size : ℤ) (readRange : RangeRead) :
    (readHeaderRanged size readRange).Keeps (Inside size) fun found => found.1 < 2 ^ 64 := by
  unfold readHeaderRanged
  split_ifs with hsize
  · exact keeps_error _
  simp only [fileHeaderSize, not_lt, Nat.cast_ofNat] at hsize ⊢
  refine (keeps_ask ⟨le_rfl, by simp only; omega, by simp only; omega⟩ _ _).bind fun hdr _ => ?_
  split
  · exact keeps_error _
  split
  · exact keeps_error _
  refine Ranged.Keeps.bind (Q := fun off => off < 2 ^ 64) ?_ fun off h => keeps_pure h
  unfold locateIndexRanged
  split
  · exact keeps_pure (fieldAt_lt hdr 12 8)
  refine (keeps_ask ⟨by simp only; omega, by simp only; omega, by simp only; omega⟩ _ _).bind
    fun tr _ => ?_
  split
  · exact keeps_error _
  simp only
  split
  · exact keeps_error _
  · exact keeps_pure (fieldAt_lt tr 0 8)

/-- A sum passes the check against the size only if it does not wrap. -/
def Guarded (size : ℤ) (t : ℕ) : Prop := t < 2 ^ 63 ∨ size < wrapInt64 t

lemma guarded_iff {size : ℤ} (hsize : size < 2 ^ 63) {t : ℕ} :
    Guarded size t ↔ (wrapInt64 t ≤ size → (t : ℤ) ≤ size) := by
  constructor
  · rintro (ht | ht) hle
    · rwa [wrapInt64_of_lt ht] at hle
    · omega
  · intro h
    by_cases ht : t < 2 ^ 63
    · exact .inl ht
    · refine .inr (not_le.1 fun hle => ?_)
      omega

lemma wrapInt64_add (a : ℕ) (v : ℤ) : wrapInt64 (ofInt64Bits a + v) = wrapInt64 (a + v) := by
  have hmod : (ofInt64Bits a + v) % 2 ^ 64 = (a + v) % 2 ^ 64 := by
    unfold ofInt64Bits
    split <;> omega
  rw [wrapInt64, int64Bits, hmod, wrapInt64, int64Bits]

lemma wrapInt64_add_add (a b : ℕ) :
    wrapInt64 (ofInt64Bits a + ofInt64Bits b) = wrapInt64 (a + b : ℕ) := by
  rw [wrapInt64_add, add_comm, wrapInt64_add, add_comm, Nat.cast_add]

/-- A range reader returns the bytes of an object, and anything outside of it. -/
def Serves (object : Bytes) (readRange : RangeRead) : Prop :=
  ∀ off n : ℕ, off + n ≤ object.length → readRange off n = .ok ((object.drop off).take n)

/-- The catalog record of a section index in an object. -/
def catalogIn (object : Bytes) (off count : ℕ) : Except RangeFault SectionInfo :=
  pickCatalog ((object.drop off).take (count * sectionIndexSize)) (List.range count) ⟨0, 0, 0, 0⟩

/-- Neither the end of a section index nor that of its catalog wraps around. -/
def IndexGuarded (object : Bytes) (off count : ℕ) : Prop :=
  Guarded object.length (off + count * sectionIndexSize) ∧
    (off + count * sectionIndexSize ≤ object.length → ∀ s, catalogIn object off count = .ok s →
      0 < s.count → Guarded object.length (s.offset + s.length))

/-- What is located lies in the object, and the reads of the section stay in it. -/
def Located (object : Bytes) (readRange : RangeRead) (s : SectionInfo) : Prop :=
  0 < s.count → s.offset + s.length ≤ object.length ∧
    ∀ lens, ∀ q ∈ (catalogSection s).asks readRange lens, Inside object.length q

section Located

variable {object : Bytes} {readRange : RangeRead} {off count : ℕ}

lemma located_of_le (hsize : object.length < 2 ^ 63) {s : SectionInfo}
    (h : s.offset + s.length ≤ object.length) : Located object readRange s := by
  refine fun _ => ⟨h, fun lens q hq => ?_⟩
  refine RangeSectionReader.inside_of_mem_asks (by exact_mod_cast hsize) readRange lens ?_ ?_
    (show 0 ≤ catalogRangeWindow by decide) hq
  · simp only [catalogSection, ofInt64Bits_of_lt (show s.offset < 2 ^ 63 by omega)]
    exact Int.natCast_nonneg _
  · simp only [catalogSection, wrapInt64_add_add,
      wrapInt64_of_lt (show s.offset + s.length < 2 ^ 63 by omega)]
    exact_mod_cast h

lemma wrapInt64_index (off count : ℕ) :
    wrapInt64 (ofInt64Bits off + (count : ℤ) * sectionIndexSize) =
      wrapInt64 (off + count * sectionIndexSize : ℕ) := by
  rw [wrapInt64_add]
  rfl

/-- The index stage for an index that lies in the object. -/
lemma readIndexRanged_eq (hsize : object.length < 2 ^ 63) (hserve : Serves object readRange)
    (hfit : off + count * sectionIndexSize ≤ object.length) :
    readIndexRanged object.length readRange off count =
      Ranged.bind ⟨[((off : ℤ), (count * sectionIndexSize : ℤ))], catalogIn object off count⟩
        fun s => if 0 < s.count ∧ (object.length : ℤ) < wrapInt64 (s.offset + s.length : ℕ) then
          refuse "catalog section out of bounds" else pure s := by
  have hread := hserve off (count * sectionIndexSize) hfit
  have hpass : ¬ (object.length : ℤ) < wrapInt64 (off + count * sectionIndexSize : ℕ) := by
    rw [wrapInt64_of_lt (by omega)]
    exact_mod_cast not_lt.2 hfit
  rw [readIndexRanged, wrapInt64_index, if_neg hpass, ofInt64Bits_of_lt (by omega)]
  push_cast at hread
  simp only [Bind.bind, Ranged.bind, ask, hread, Except.mapError, ret, wrapInt64_add_add, catalogIn]
  split <;> rfl

/-- The index stage stays inside the object exactly if its sums are guarded. -/
lemma readIndexRanged_keeps_iff (hsize : object.length < 2 ^ 63) (hserve : Serves object readRange)
    (hoff : off < 2 ^ 64) :
    (readIndexRanged object.length readRange off count).Keeps (Inside object.length)
      (Located object readRange) ↔ IndexGuarded object off count := by
  have hsize' : (object.length : ℤ) < 2 ^ 63 := by exact_mod_cast hsize
  by_cases hfit : off + count * sectionIndexSize ≤ object.length
  · have hguarded : Guarded object.length (off + count * sectionIndexSize) := .inl (by omega)
    rw [readIndexRanged_eq hsize hserve hfit, IndexGuarded, and_iff_right hguarded,
      forall_prop_of_true hfit]
    constructor
    · rintro ⟨-, hlocated⟩ s hs hcount
      by_contra hwraps
      -- the record passes the check, and is located
      have hpass : ¬ (object.length : ℤ) < wrapInt64 (s.offset + s.length : ℕ) :=
        fun h => hwraps (.inr h)
      have hle := (hlocated s (by simp only [Ranged.bind, hs, hpass, and_false, if_false]; rfl)
        hcount).1
      exact hwraps (.inl (by omega))
    · intro h
      refine Ranged.Keeps.bind (Q := fun s => catalogIn object off count = .ok s) ⟨?_, fun s => id⟩
        fun s hs => ?_
      · refine List.forall_mem_singleton.2 ⟨Int.natCast_nonneg _, by positivity, ?_⟩
        simp only
        exact_mod_cast hfit
      · split_ifs with hpassed
        · exact keeps_error _
        · refine keeps_pure fun hcount => ?_
          have hle := (guarded_iff hsize').1 (h s hs hcount) (not_lt.1 fun h => hpassed ⟨hcount, h⟩)
          exact located_of_le hsize (by exact_mod_cast hle) hcount
  · rw [IndexGuarded, and_iff_left (fun h => absurd h hfit), guarded_iff hsize', readIndexRanged,
      wrapInt64_index]
    split
    · rename_i hrefused
      exact iff_of_true (keeps_error _) fun h => absurd hrefused (not_lt.2 h)
    · rename_i hpassed
      refine iff_of_false (fun h => ?_) fun h => hfit (by exact_mod_cast h (not_lt.1 hpassed))
      -- the request for the index is made
      obtain ⟨h1, -, h2⟩ := h.1 _ (Ranged.asked_bind_subset _ _ (.head _))
      simp only [ofInt64Bits] at h1 h2
      split at h1
      · rw [if_pos ‹_›] at h2
        exact hfit (by exact_mod_cast h2)
      · omega

/-- **The ranged reader stays inside the object** exactly if neither the end of the section index
nor that of the catalog wraps to a number that passes the check: what it locates lies in the object,
and all that it and the reads of the section ask for does.

**Proof sketch.** A sum that passes the check without having wrapped is the end of a range in the
object, of which the reads of a section ask for parts. One that has wrapped shows in the request for
the index or in the record of the catalog. -/
theorem locateCatalogRanged_inside_iff (hsize : object.length < 2 ^ 63)
    (hserve : Serves object readRange) :
    ((∀ q ∈ (locateCatalogRanged object.length readRange).asked, Inside object.length q) ∧
      ∀ s, (locateCatalogRanged object.length readRange).result = .ok s → 0 < s.count →
        s.offset + s.length ≤ object.length ∧
          ∀ lens, ∀ q ∈ (catalogSection s).asks readRange lens, Inside object.length q) ↔
      ∀ off count, (readHeaderRanged object.length readRange).result = .ok (off, count) →
        IndexGuarded object off count := by
  obtain ⟨hasked, hfound⟩ := readHeaderRanged_keeps object.length readRange
  change (Ranged.bind _ _).Keeps (Inside object.length) (Located object readRange) ↔ _
  unfold Ranged.bind
  cases hres : (readHeaderRanged object.length readRange).result with
  | error e => exact iff_of_true ⟨hasked, by rintro s ⟨⟩⟩ (by rintro off count ⟨⟩)
  | ok found =>
    obtain ⟨off, count⟩ := found
    have hindex := @readIndexRanged_keeps_iff object readRange off count hsize hserve
      (hfound _ hres)
    constructor
    · rintro ⟨hall, hlocated⟩ _ _ ⟨⟩
      exact hindex.1 ⟨(List.forall_mem_append.1 hall).2, hlocated⟩
    · intro h
      obtain ⟨hall, hlocated⟩ := hindex.2 (h off count rfl)
      exact ⟨List.forall_mem_append.2 ⟨hasked, hall⟩, hlocated⟩

end Located

/-- A range reader that refuses what lies outside the object. -/
def objectRange (object : Bytes) : RangeRead := fun off n =>
  if Inside object.length (off, n) then .ok ((object.drop off.toNat).take n.toNat)
  else .error "range not satisfiable"

lemma serves_objectRange (object : Bytes) : Serves object (objectRange object) := by
  intro off n h
  have hinside : Inside object.length ((off : ℤ), (n : ℤ)) :=
    ⟨Int.natCast_nonneg _, Int.natCast_nonneg _, by simp only; exact_mod_cast h⟩
  rw [objectRange, if_pos hinside, Int.toNat_natCast, Int.toNat_natCast]

/-- A header and a section index with one catalog record. -/
def catalogObject (offset length : ℕ) : Bytes :=
  encodeHeader 32 ++ (encodeSectionIndex ⟨sectionCatalog, offset, length, 1⟩ ++ List.replicate 72 0)

theorem locateCatalogRanged_inside_object : (catalogObject 0 32).length = 140 ∧
    ∀ q ∈ (locateCatalogRanged 140 (objectRange (catalogObject 0 32))).asked, Inside 140 q := by
  have hlen : (catalogObject 0 32).length = 140 := by decide +kernel
  have hindex : (readHeaderRanged 140 (objectRange (catalogObject 0 32))).result = .ok (32, 3) := by
    decide +kernel
  have hcatalog : catalogIn (catalogObject 0 32) 32 3 = .ok ⟨sectionCatalog, 0, 32, 1⟩ := by
    decide +kernel
  have h := (locateCatalogRanged_inside_iff (by rw [hlen]; norm_num)
    (serves_objectRange (catalogObject 0 32))).2 fun off count h => by
      rw [hlen] at h
      obtain ⟨rfl, rfl⟩ := Prod.mk.inj (Except.ok.inj (hindex.symm.trans h))
      refine ⟨.inl (by decide), fun _ s hs _ => ?_⟩
      cases hcatalog.symm.trans hs
      exact .inl (by decide)
  rw [hlen] at h
  exact ⟨hlen, h.1⟩

/-- A catalog at offset `2 ^ 63` is located in an object of 140 bytes, and asked for at a negative
one. -/
theorem locateCatalogRanged_wraps :
    (locateCatalogRanged 140 (objectRange (catalogObject (2 ^ 63) 1))).result =
        .ok ⟨sectionCatalog, 2 ^ 63, 1, 1⟩ ∧
      (catalogObject (2 ^ 63) 1).length = 140 ∧
      (catalogSection ⟨sectionCatalog, 2 ^ 63, 1, 1⟩).asks
        (objectRange (catalogObject (2 ^ 63) 1)) [1] = [(-2 ^ 63, 1)] := by
  decide +kernel

/-! ## Streaming the catalog -/

/-- What a failed read reports: the end of the section is the end of a file. -/
def RangeFault.text : RangeFault → ReadError → String
  | .refused e => if e = "EOF" then ReadError.text else fun _ => e
  | .panics => ReadError.text

/-- All that the section reader delivers, and what ends it. -/
def RangeSectionReader.drain (readRange : RangeRead) :
    ℕ → RangeSectionReader → Bytes × (ReadError → String)
  | 0, _ => ([], ReadError.text)
  | fuel + 1, r =>
    match (r.fill readRange).result with
    | .error e => ([], e.text)
    | .ok r => (r.buf ++ (drain readRange fuel r).1, (drain readRange fuel r).2)

/-- `StreamCatalogRanged`. Every window is of one byte at least. -/
def streamCatalogRanged {σ : Type} (size : ℤ) (readRange : RangeRead)
    (visit : σ → FileEntry → σ × Bool) (s : σ) : σ × Option RangeFault :=
  match (locateCatalogRanged size readRange).result with
  | .error e => (s, some e)
  | .ok catalog =>
    let count := catalog.count
    if count = 0 then (s, none)
    else
      let delivered := (catalogSection catalog).drain readRange (catalog.length + 1)
      let (s, failed) :=
        visitRecords "decoding" (nextRecordOf delivered.2) visit count 0 count s delivered.1
      (s, failed.map .refused)

/-- A range reader returns at least one byte of an object, and no more than asked for. -/
def ServesSome (object : Bytes) (readRange : RangeRead) : Prop :=
  ∀ off n : ℕ, 0 < n → off + n ≤ object.length →
    ∃ k, 0 < k ∧ k ≤ n ∧ readRange off n = .ok ((object.drop off).take k)

/-- A request for `n` bytes is answered with `k` of them or more. -/
def Answers (readRange : RangeRead) (off n k : ℕ) : Prop :=
  ∃ bs, readRange off n = .ok bs ∧ k ≤ bs.length

/-- The header, the trailer and two of the three records of the section index are answered. -/
def LocatesWhole (file : Bytes) (readRange : RangeRead) : Prop :=
  (Answers readRange 0 fileHeaderSize fileHeaderSize ∧
    (fieldAt file 12 8 = 0 → Answers readRange (file.length - 8) 8 8)) ∧
  ∀ off, locateIndex file (fieldAt file 12 8) numSections = .ok off →
    Answers readRange off (numSections * sectionIndexSize) (2 * sectionIndexSize)

/-- A file of the batch writer, from memory or from sidecars, or of the streaming writer. -/
def Written (b : FullBackup) (file : Bytes) : Prop :=
  (∃ given catalogSidecar entriesSidecar, BatchSource b given catalogSidecar entriesSidecar ∧
    writeDNM given catalogSidecar entriesSidecar = .ok file) ∨ ∃ window,
      streamDNM window b = .ok file

/-- A computation yields the value under the condition, and otherwise fails. -/
def Ranged.Yields {α : Type} (P : Prop) (a : α) (x : Ranged α) : Prop :=
  (P ∧ x.result = .ok a) ∨ (¬ P ∧ ∃ e, x.result = .error e)

lemma Ranged.Yields.bind {α β : Type} {P Q : Prop} {a : α} {b : β} {x : Ranged α} {f : α → Ranged β}
    (hx : x.Yields P a) (hf : (f a).Yields Q b) : (x >>= f).Yields (P ∧ Q) b := by
  change (Ranged.bind x f).Yields (P ∧ Q) b
  unfold Ranged.bind
  obtain ⟨hP, hx⟩ | ⟨hP, e, hx⟩ := hx
  · rw [hx]
    obtain ⟨hQ, hf⟩ | ⟨hQ, e, hf⟩ := hf
    · exact .inl ⟨⟨hP, hQ⟩, hf⟩
    · exact .inr ⟨fun h => hQ h.2, e, hf⟩
  · rw [hx]
    exact .inr ⟨fun h => hP h.1, e, rfl⟩

lemma Ranged.Yields.ask {β : Type} {P : Prop} {b : β} {f : Bytes → Ranged β} {readRange : RangeRead}
    {off n : ℤ} {bs : Bytes} (h : readRange off n = .ok bs) (hf : (f bs).Yields P b)
    (what : String) : (ask readRange what off n >>= f).Yields P b := by
  simp only [Ranged.ask, h, Except.mapError]
  exact hf

section Short

variable {object : Bytes} {readRange : RangeRead} {b : FullBackup} {file : Bytes}
    {m c e : SectionInfo}

/-- A request inside the object, and how much of it is answered. -/
lemma ServesSome.answer (h : ServesSome object readRange) (off n : ℕ) (hn : 0 < n)
    (hle : off + n ≤ object.length) :
    ∃ k, 0 < k ∧ k ≤ n ∧ readRange off n = .ok ((object.drop off).take k) ∧
      ((object.drop off).take k).length = k ∧ ∀ K, Answers readRange off n K ↔ K ≤ k := by
  obtain ⟨k, hpos, hk, hread⟩ := h off n hn hle
  have hlen : ((object.drop off).take k).length = k := by
    rw [List.length_take, List.length_drop]
    omega
  refine ⟨k, hpos, hk, hread, hlen, fun K => ⟨?_, fun hK => ⟨_, hread, by omega⟩⟩⟩
  rintro ⟨bs, hbs, hK⟩
  obtain rfl := Except.ok.inj (hread.symm.trans hbs)
  omega

/-- One more window. -/
lemma RangeSectionReader.fill_eq (hsize : object.length < 2 ^ 63) (h : ServesSome object readRange)
    {off stop : ℕ} {window : ℤ} (buf : Bytes) (hlt : off < stop) (hle : stop ≤ object.length)
    (hwindow : 0 < window) :
    ∃ k : ℕ, 0 < k ∧ off + k ≤ stop ∧
      (fill readRange ⟨off, stop, window, buf⟩).result =
        .ok ⟨(off + k : ℕ), stop, window, (object.drop off).take k⟩ := by
  have hwrap : wrapInt64 ((stop : ℤ) - off) = (stop - off : ℕ) := by
    rw [← Nat.cast_sub hlt.le, wrapInt64_of_lt (by omega)]
  obtain ⟨n, hn⟩ : ∃ n : ℕ, min window ((stop - off : ℕ) : ℤ) = n :=
    ⟨_, (Int.toNat_of_nonneg (by omega)).symm⟩
  obtain ⟨k, hpos, hk, hread, hlen, -⟩ := h.answer off n (by omega) (by omega)
  have hne : (object.drop off).take k ≠ [] := List.ne_nil_of_length_pos (by omega)
  refine ⟨k, hpos, by omega, ?_⟩
  rw [fill, if_neg (by simp only; omega)]
  simp only [hwrap, hn]
  change (Ranged.bind (ask _ _ _ _) _).result = _
  simp only [Ranged.bind, ask, hread, Except.mapError, if_neg hne]
  simp only [Int.toNat_natCast, List.take_of_length_le (show _ ≤ n by rw [hlen]; exact hk), hlen]
  rfl

/-- **The section reader delivers its section**, whatever its windows. -/
lemma RangeSectionReader.drain_eq (hsize : object.length < 2 ^ 63) (h : ServesSome object readRange)
    {off stop fuel : ℕ} {window : ℤ} {buf : Bytes} (hle : stop ≤ object.length)
    (hwindow : 0 < window) (hfuel : stop - off < fuel) :
    (drain readRange fuel ⟨off, stop, window, buf⟩).1 = (object.drop off).take (stop - off) := by
  induction fuel generalizing off buf with
  | zero => exact absurd hfuel (Nat.not_lt_zero _)
  | succ fuel ih =>
    by_cases hlt : off < stop
    · obtain ⟨k, hpos, hk, hfill⟩ := fill_eq hsize h buf hlt hle hwindow
      rw [drain, hfill]
      simp only
      rw [ih (by omega), ← List.drop_drop, ← List.take_add]
      congr 1
      omega
    · have hfill : (fill readRange ⟨off, stop, window, buf⟩).result = .error (.refused "EOF") := by
        rw [fill, if_pos (by simp only; omega)]
        rfl
      rw [drain, hfill, Nat.sub_eq_zero_of_le (not_lt.1 hlt)]
      rfl

/-- A record of a section index of which `k` bytes were read. -/
lemma take_record {pre : Bytes} {i : ℕ} (hpre : pre.length = i * sectionIndexSize) (s : SectionInfo)
    (rest : Bytes) (k : ℕ) :
    (((pre ++ (encodeSectionIndex s ++ rest)).take k).drop (i * sectionIndexSize)).take
        sectionIndexSize = (encodeSectionIndex s).take (k - i * sectionIndexSize) := by
  rw [List.drop_take, List.drop_left' hpre, List.take_take, Nat.min_comm, ← List.take_take,
    List.take_left' (length_encodeSectionIndex s)]

/-- A part of a record has the type of the record, or none. -/
lemma typ_take {s : SectionInfo} (h : s.Fits) (k : ℕ) :
    (decodeSectionIndex ((encodeSectionIndex s).take k)).typ = if k = 0 then 0 else s.typ := by
  cases k with
  | zero => rfl
  | succ k =>
    have htyp := congrArg SectionInfo.typ (decodeSectionIndex_encode h)
    rw [if_neg (Nat.succ_ne_zero k), ← htyp]
    simp only [decodeSectionIndex, fieldAt, List.drop_zero, List.take_take]
    rw [Nat.min_eq_left (by omega)]

/-- The loop over a section index of which `k` bytes were read. -/
lemma pickCatalog_take (h : Laid b file m c e) (rest : Bytes) {k : ℕ}
    (hlen : ((indexBytes m c e ++ rest).take k).length = k) :
    pickCatalog ((indexBytes m c e ++ rest).take k) (List.range numSections) ⟨0, 0, 0, 0⟩ =
      if 2 * sectionIndexSize ≤ k then .ok c else .error .panics := by
  obtain ⟨hm, hc, he⟩ := h.fits
  have hsplit : indexBytes m c e ++ rest =
      encodeSectionIndex m ++ (encodeSectionIndex c ++ (encodeSectionIndex e ++ rest)) := by
    simp [indexBytes]
  rw [hsplit] at hlen ⊢
  have h1 := @take_record (encodeSectionIndex m) 1 (length_encodeSectionIndex m) c
    (encodeSectionIndex e ++ rest) k
  have h2 := @take_record (encodeSectionIndex m ++ encodeSectionIndex c) 2
    (by simp [length_encodeSectionIndex, sectionIndexSize]) e rest k
  rw [List.append_assoc] at h2
  change pickCatalog _ [0, 1, 2] _ = _
  simp only [pickCatalog, hlen, h1, h2, typ_take he]
  by_cases hk : 2 * sectionIndexSize ≤ k
  · have hlast : ¬ (if k - 2 * sectionIndexSize = 0 then 0 else e.typ) = sectionCatalog := by
      rw [h.entries.typ]
      split <;> decide
    rw [if_neg (by omega), if_neg (by omega), if_neg (by omega), if_neg hlast, if_pos hk,
      List.take_of_length_le (by rw [length_encodeSectionIndex]; omega),
        decodeSectionIndex_encode hc,
      if_pos h.catalog.typ]
  · rw [if_neg (by omega), if_neg hk]
    split
    · rfl
    · rw [if_pos (by omega)]

/-- The index stage. -/
lemma readIndexRanged_yields (h : Laid b file m c e) (hserve : ServesSome file readRange)
    {pre rest : Bytes} (hfile : file = pre ++ (indexBytes m c e ++ rest)) :
    (readIndexRanged file.length readRange pre.length numSections).Yields
      (Answers readRange pre.length (numSections * sectionIndexSize) (2 * sectionIndexSize)) c := by
  have hsize := h.size
  have hlen : pre.length + numSections * sectionIndexSize ≤ file.length := by
    rw [hfile, List.length_append, List.length_append, length_indexBytes]
    omega
  have hcatalog : c.offset + c.length ≤ file.length := by
    rw [h.catalog.length]
    exact h.catalog.le_length
  obtain ⟨k, -, -, hread, hk, hanswers⟩ := hserve.answer _ _ (by decide) hlen
  have hdrop : file.drop pre.length = indexBytes m c e ++ rest := by rw [hfile, List.drop_left]
  rw [hdrop] at hread hk
  rw [hanswers, readIndexRanged, wrapInt64_index, wrapInt64_of_lt (by omega), ofInt64Bits_of_lt
    (by omega), if_neg (by exact_mod_cast not_lt.2 hlen)]
  refine .ask hread ?_ _
  rw [pickCatalog_take h rest hk]
  change (Ranged.bind (ret _) _).Yields _ _
  by_cases hle : 2 * sectionIndexSize ≤ k
  · refine .inl ⟨hle, ?_⟩
    rw [if_pos hle]
    simp only [Ranged.bind, ret, wrapInt64_add_add]
    rw [wrapInt64_of_lt (by omega), if_neg fun h =>
      absurd h.2 (by exact_mod_cast not_lt.2 hcatalog)]
    rfl
  · refine .inr ⟨hle, .panics, ?_⟩
    rw [if_neg hle]
    rfl

/-- The offset of the section index: that of the header, or of the trailer if it is read in full. -/
lemma locateIndexRanged_yields (hserve : ServesSome file readRange) (hsize : 8 ≤ file.length)
    {stored off : ℕ} (hloc : locateIndex file stored numSections = .ok off) :
    (locateIndexRanged file.length readRange stored numSections).Yields
      (stored = 0 → Answers readRange (file.length - 8) 8 8) off := by
  unfold locateIndex at hloc
  unfold locateIndexRanged
  split at hloc
  · rename_i hne
    rw [if_pos hne]
    exact .inl ⟨fun h => absurd h hne, congrArg _ (Except.ok.inj hloc)⟩
  · rename_i hzero
    obtain ⟨k, -, hk, hread, hlen, hanswers⟩ := hserve.answer (file.length - 8) 8 (by omega)
      (by omega)
    rw [if_neg hzero, forall_prop_of_true (not_not.1 hzero), hanswers]
    rw [Nat.cast_sub hsize] at hread
    refine .ask hread ?_ _
    simp only [hlen] at hloc ⊢
    by_cases hle : 8 ≤ k
    · obtain rfl : k = 8 := by omega
      have htrailer : fieldAt ((file.drop (file.length - 8)).take 8) 0 8 =
          fieldAt file (file.length - 8) 8 := by
        rw [fieldAt, List.drop_zero, List.take_take, fieldAt]
        rfl
      rw [htrailer]
      split at hloc
      · cases hloc
      · rename_i hwant
        refine .inl ⟨le_rfl, ?_⟩
        rw [if_neg (by omega), if_neg hwant]
        exact congrArg _ (Except.ok.inj hloc)
    · refine .inr ⟨hle, .panics, ?_⟩
      rw [if_pos (by omega)]
      rfl

/-- The header stage. -/
lemma readHeaderRanged_yields (hserve : ServesSome file readRange) {stored off : ℕ} {tail : Bytes}
    (hfile : file = encodeHeader stored ++ tail) (hstored : stored < 2 ^ 64)
    (hloc : locateIndex file stored numSections = .ok off) :
    (readHeaderRanged file.length readRange).Yields
      (Answers readRange 0 fileHeaderSize fileHeaderSize ∧
        (stored = 0 → Answers readRange (file.length - 8) 8 8)) (off, numSections) := by
  obtain ⟨hmagic, hversion, hoffset, hcount⟩ := header_fields hstored
  have hhdr := length_encodeHeader stored
  have hlen : fileHeaderSize ≤ file.length := by
    rw [hfile, List.length_append, hhdr]
    omega
  obtain ⟨k, -, hk, hread, htake, hanswers⟩ := hserve.answer 0 fileHeaderSize (by decide)
    (by omega)
  have hindex := locateIndexRanged_yields hserve (le_trans (by decide) hlen) hloc
  rw [readHeaderRanged, if_neg (by exact_mod_cast not_lt.2 hlen)]
  refine .ask hread ?_ _
  rw [hanswers, htake]
  by_cases hle : fileHeaderSize ≤ k
  · obtain rfl : k = fileHeaderSize := by omega
    rw [hfile, List.drop_zero, List.take_left' hhdr, hmagic, hversion, hoffset, hcount, ← hfile]
    rw [and_iff_right le_rfl]
    have := hindex.bind (f := fun off => pure (off, numSections)) (Q := True) (.inl ⟨trivial, rfl⟩)
    rwa [and_true] at this
  · refine .inr ⟨fun h => hle h.1, ?_⟩
    rw [if_pos (.inl (by omega))]
    exact ⟨_, rfl⟩

/-- **Locating the catalog**: the requests for header, trailer and section index are answered. -/
lemma locateCatalogRanged_yields (h : Laid b file m c e) (hserve : ServesSome file readRange) :
    (locateCatalogRanged file.length readRange).Yields (LocatesWhole file readRange) c := by
  obtain ⟨stored, tail, pre, rest, hfile, hstored, hloc, hindex⟩ := h.index
  have hfield : fieldAt file 12 8 = stored := by
    rw [hfile, fieldAt_append (by rw [length_encodeHeader]; decide)]
    exact (header_fields hstored).2.2.1
  have hwhole : LocatesWhole file readRange ↔ (Answers readRange 0 fileHeaderSize fileHeaderSize ∧
      (stored = 0 → Answers readRange (file.length - 8) 8 8)) ∧
      Answers readRange pre.length (numSections * sectionIndexSize) (2 * sectionIndexSize) := by
    rw [LocatesWhole, hfield, hloc]
    refine and_congr_right fun _ => ⟨fun h => h _ rfl, ?_⟩
    rintro h _ ⟨⟩
    exact h
  rw [locateCatalogRanged, hwhole]
  exact (readHeaderRanged_yields hserve hfile hstored hloc).bind
    (readIndexRanged_yields h hserve hindex)

/-- The stream over a catalog that was located. -/
lemma streamCatalogRanged_located (hb : b.Fits) (h : Laid b file m c e)
    (hserve : ServesSome file readRange)
    (hlocated : (locateCatalogRanged file.length readRange).result = .ok c) {σ : Type}
    (visit : σ → FileEntry → σ × Bool) (s : σ) :
    streamCatalogRanged file.length readRange visit s =
      (visitWhile visit s b.fileCatalog, none) := by
  have hsize := h.size
  have hle := h.catalog.le_length
  rw [streamCatalogRanged, hlocated]
  simp only [h.catalog.count]
  split_ifs with hzero
  · rw [List.length_eq_zero_iff.1 hzero]
    rfl
  · have hsection : catalogSection c = ⟨(c.offset : ℕ), (c.offset + c.length : ℕ),
        catalogRangeWindow, []⟩ := by
      rw [catalogSection, wrapInt64_add_add, ofInt64Bits_of_lt (by omega),
        wrapInt64_of_lt (by rw [h.catalog.length]; omega)]
    have hdrain := @RangeSectionReader.drain_eq file readRange hsize hserve c.offset
      (c.offset + c.length) (c.length + 1) catalogRangeWindow [] (by rw [h.catalog.length]; omega)
      (by decide) (by omega)
    obtain ⟨rest, hrest⟩ := h.catalog.drop
    rw [hrest, Nat.add_sub_cancel_left, h.catalog.length, List.take_left] at hdrain
    have hvisit := DNMReader.Holds.visitRecords "decoding"
      ((catalogSection c).drain readRange (c.length + 1)).2 visit hb.fileCatalog
      b.fileCatalog.length 0 s []
    rw [List.append_nil, ← hdrain, ← h.catalog.length, ← hsection] at hvisit
    rw [hvisit]
    rfl

lemma Written.laid (hb : b.Fits) (h : Written b file) : ∃ m c e, Laid b file m c e := by
  obtain ⟨given, catalogSidecar, entriesSidecar, hsource, hwrite⟩ | ⟨window, hwrite⟩ := h
  · obtain ⟨_, m, c, e, hwrite', hlaid⟩ := hsource.laid hb
    cases hwrite.symm.trans hwrite'
    exact ⟨m, c, e, hlaid⟩
  · obtain ⟨_, m, c, e, hwrite', hlaid⟩ := streamDNM_laid hb window
    cases hwrite.symm.trans hwrite'
    exact ⟨m, c, e, hlaid⟩

/-- **Streaming a catalog in ranges** gives what the readers of the local file give, from a reader
that may answer every request in part, exactly if it answers those for the header, the trailer and
the section index: only the reads of the section itself go on where an answer has ended. -/
theorem streamCatalogRanged_eq_iff (hb : b.Fits) (hfile : Written b file)
    (hserve : ServesSome file readRange) :
    ∃ r, openDNMReader file = .ok r ∧ r.readAllCatalog = .ok b.fileCatalog ∧
      (∀ (σ : Type) (visit : σ → FileEntry → σ × Bool) (s : σ),
        r.streamCatalog visit s = (visitWhile visit s b.fileCatalog, none)) ∧
      ((∀ (σ : Type) (visit : σ → FileEntry → σ × Bool) (s : σ),
        streamCatalogRanged file.length readRange visit s =
          (visitWhile visit s b.fileCatalog, none)) ↔ LocatesWhole file readRange) := by
  obtain ⟨m, c, e, hlaid⟩ := hfile.laid hb
  obtain ⟨hopen, hholds⟩ := hlaid.opens
  refine ⟨_, hopen, hholds.readAllCatalog hb, fun σ visit s => hholds.streamCatalog hb visit s, ?_⟩
  obtain ⟨hwhole, hlocated⟩ | ⟨hpart, fault, hfails⟩ := locateCatalogRanged_yields hlaid hserve
  · exact iff_of_true (fun σ visit s =>
      streamCatalogRanged_located hb hlaid hserve hlocated visit s) hwhole
  · refine iff_of_false (fun h => ?_) hpart
    have := h Unit (fun _ _ => ((), true)) ()
    rw [streamCatalogRanged, hfails] at this
    cases this

end Short

/-- A range reader that answers with one byte. -/
def byteRange (object : Bytes) : RangeRead := fun off _ => .ok ((object.drop off.toNat).take 1)

/-- A reader that answers with one byte, except for the header and the section index. -/
def sectionByteRange (object : Bytes) : RangeRead := fun off n =>
  if off = 0 ∨ off = 308 then objectRange object off n else byteRange object off n

/-- The catalog of that file, read byte by byte. -/
theorem streamCatalogRanged_bytes : ∃ file, writeDNM oneFileBackup none none = .ok file ∧
    streamCatalogRanged file.length (sectionByteRange file)
      (fun paths fe => (paths ++ [fe.path], true)) [] = ([[97]], none) := by
  have hsource : BatchSource oneFileBackup oneFileBackup none none :=
    ⟨rfl, .inl ⟨rfl, rfl⟩, .inl ⟨rfl, fun _ => rfl⟩⟩
  have hwhole : ∀ (file : Bytes) (off n : ℕ), (off : ℤ) = 0 ∨ (off : ℤ) = 308 →
      off + n ≤ file.length → sectionByteRange file off n = .ok ((file.drop off).take n) := by
    intro file off n hoff hle
    rw [sectionByteRange, if_pos hoff]
    exact serves_objectRange _ off n hle
  have hserve : ∀ file, ServesSome file (sectionByteRange file) := by
    intro file off n hn hle
    by_cases hoff : (off : ℤ) = 0 ∨ (off : ℤ) = 308
    · exact ⟨n, hn, le_rfl, hwhole file off n hoff hle⟩
    · exact ⟨1, Nat.one_pos,
        hn, by rw [sectionByteRange, if_neg hoff, byteRange, Int.toNat_natCast]⟩
  obtain ⟨r, -, -, -, hiff⟩ := streamCatalogRanged_eq_iff oneFileBackup_fits
    (.inl ⟨_, _, _, hsource, rfl⟩) (hserve _)
  refine ⟨_, rfl, hiff.2 ⟨⟨?_, fun hzero => ?_⟩, fun off hoff => ?_⟩ _ _ _⟩
  · exact ⟨_, hwhole _ 0 _ (.inl rfl) (by decide +kernel), by decide +kernel⟩
  · exact absurd hzero (by decide +kernel)
  · cases (show locateIndex _ _ _ = .ok 308 by decide +kernel).symm.trans hoff
    exact ⟨_, hwhole _ 308 _ (.inr rfl) (by decide +kernel), by decide +kernel⟩

/-- From a reader that answers with one byte, the header is refused. -/
theorem streamCatalogRanged_short : ∃ file, writeDNM oneFileBackup none none = .ok file ∧
    ServesSome file (byteRange file) ∧
    streamCatalogRanged file.length (byteRange file) (fun paths fe =>
      (paths ++ [fe.path], true)) [] =
      ([], some (.refused "invalid dnm magic bytes")) := by
  refine ⟨_, rfl, fun off n hn hle => ⟨1, Nat.one_pos, hn, by rw [byteRange, Int.toNat_natCast]⟩,
    ?_⟩
  decide +kernel

end DiskNexus.Manifest
