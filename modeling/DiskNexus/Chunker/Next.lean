import DiskNexus.Chunker.Buzhash

/-!
# Cutting a stream into chunks

`chunker.Chunker` reads a stream byte by byte and ends a chunk where the rolling hash has enough
zero bits. The reader may split the stream in any way, may give nothing for a while, and may return
data with an error.

## Main results

`Chunker.nextLoop_outcome`, `Chunker.next_ok`, `Chunker.next_eof`, `Chunker.drain_eq_placed`,
`Chunker.Fed.rolling_holds`
-/

namespace DiskNexus.Chunking

open Binary

/-- `chunker.Chunk`. -/
structure Chunk where
  data : Bytes
  offset : ℕ
  length : ℕ
  deriving DecidableEq

/-- The errors of a reader. -/
inductive ReadErr
  | eof
  | other (e : String)
  deriving DecidableEq

/-- What one call of `Read` returns. -/
structure Read where
  data : Bytes
  err : Option ReadErr
  deriving DecidableEq

/-- The options of a chunker. -/
structure Geometry where
  minSize : ℤ
  maxSize : ℤ
  mask : UInt64
  deriving DecidableEq

/-- `maskHard`, for chunks below the minimal size. -/
def Geometry.maskHard (g : Geometry) : UInt64 := (g.mask <<< 2) ||| g.mask

/-- `maskEasy`, for chunks above it. -/
def Geometry.maskEasy (g : Geometry) : UInt64 := g.mask >>> 2

/-- Whether a chunk ends after `n` bytes. -/
def Geometry.boundary (g : Geometry) (n : ℕ) (hash : UInt64) : Bool :=
  if (n : ℤ) < g.minSize then hash &&& g.maskHard == 0
  else if (n : ℤ) < g.maxSize then hash &&& g.maskEasy == 0
  else true

/-- The length at which a chunk ends in any case. -/
def Geometry.limit (g : Geometry) : ℕ := (max g.minSize g.maxSize).toNat

lemma Geometry.boundary_of_limit_le (g : Geometry) {n : ℕ} (h : g.limit ≤ n) (hash : UInt64) :
    g.boundary n hash = true := by
  have hmin : ¬ (n : ℤ) < g.minSize := by
    unfold limit at h
    omega
  have hmax : ¬ (n : ℤ) < g.maxSize := by
    unfold limit at h
    omega
  rw [boundary, if_neg hmin, if_neg hmax]

/-- `maxConsecutiveEmptyReads`. -/
def maxConsecutiveEmptyReads : ℕ := 100

/-- The text of `io.ErrNoProgress`. -/
def errNoProgress : String := "multiple Read calls return no data or error"

/-- `chunker.Chunker`: the reads to come, the bytes read and not consumed, the latched end and
error, the position in the stream, and the rolling hash. -/
structure Chunker where
  geometry : Geometry
  reads : List Read
  pending : Bytes
  eof : Bool
  readErr : Option String
  offset : ℕ
  rolling : Buzhash

namespace Chunker

/-- `New`. -/
def new (g : Geometry) (reads : List Read) : Chunker := ⟨g, reads, [], false, none, 0, .new⟩

/-- The error a read latches. -/
def latched : Option ReadErr → Option String
  | some (.other e) => some e
  | _ => none

/-- The reads of `readByte`, after `empty` of them gave nothing. -/
def fill (c : Chunker) : List Read → ℕ → Except ReadErr UInt8 × Chunker
  | [], _ => (.error .eof, { c with reads := [], eof := true })
  | r :: rs, empty =>
    match r.data, r.err with
    | b :: rest, err => (.ok b, { c with
        reads := rs, pending := rest, offset := c.offset + 1
        eof := err = some .eof, readErr := latched err })
    | [], some .eof => (.error .eof, { c with reads := rs, eof := true })
    | [], some (.other e) => (.error (.other e), { c with reads := rs, eof := true })
    | [], none =>
      if empty + 1 ≥ maxConsecutiveEmptyReads then
        (.error (.other errNoProgress), { c with reads := rs })
      else fill c rs (empty + 1)

/-- `readByte`. -/
def readByte (c : Chunker) : Except ReadErr UInt8 × Chunker :=
  match c.pending with
  | b :: rest => (.ok b, { c with pending := rest, offset := c.offset + 1 })
  | [] =>
    if c.eof then (.error .eof, c)
    else
      match c.readErr with
      | some e => (.error (.other e), { c with readErr := none, eof := true })
      | none => fill c c.reads 0

/-- `updateHash`. -/
def updateHash (c : Chunker) (b : UInt8) : Chunker := { c with rolling := c.rolling.update b }

/-- `emitChunk`. -/
def emitChunk (start : ℕ) (buf : Bytes) : Chunk := ⟨buf, start, buf.length⟩

/-- The loop of `Next` on a chunk that has the bytes `buf`. The count bounds the bytes to come. -/
def nextLoop (start : ℕ) : ℕ → Chunker → Bytes → Except ReadErr Chunk × Chunker
  | left, c, buf =>
    match c.readByte with
    | (.error .eof, c) =>
      if buf ≠ [] then (.ok (emitChunk start buf), c) else (.error .eof, c)
    | (.error (.other e), c) => (.error (.other e), c)
    | (.ok b, c) =>
      let buf := buf ++ [b]
      let c := c.updateHash b
      if c.geometry.boundary buf.length c.rolling.hash then (.ok (emitChunk start buf), c)
      else
        match left with
        | 0 => (.ok (emitChunk start buf), c)
        | left + 1 => nextLoop start left c buf

/-- `Next`. -/
def next (c : Chunker) : Except ReadErr Chunk × Chunker :=
  nextLoop c.offset c.geometry.limit c []

end Chunker

/-! ## The stream of a reader -/

/-- The bytes that reads give before the end or an error. -/
def streamOf : List Read → Bytes
  | [] => []
  | r :: rs => r.data ++ if r.err.isSome then [] else streamOf rs

/-- What the bytes of reads are followed by. -/
def endOf : List Read → ReadErr
  | [] => .eof
  | r :: rs => r.err.getD (endOf rs)

/-- Too many reads that give nothing never come before the end. -/
def Lively : ℕ → List Read → Prop
  | _, [] => True
  | empty, r :: rs => r.err.isSome ∨
      if r.data = [] then empty + 1 < maxConsecutiveEmptyReads ∧ Lively (empty + 1) rs
        else Lively 0 rs

namespace Chunker

/-- The bytes of the stream that are not in a chunk yet. -/
def remaining (c : Chunker) : Bytes :=
  c.pending ++ if c.eof ∨ c.readErr.isSome then [] else streamOf c.reads

/-- What they are followed by. -/
def ending (c : Chunker) : ReadErr :=
  if c.eof then .eof else c.readErr.elim (endOf c.reads) .other

/-- The reads to come are not empty too often. -/
def Lives (c : Chunker) : Prop := c.eof ∨ c.readErr.isSome ∨ Lively 0 c.reads

lemma remaining_new (g : Geometry) (reads : List Read) :
    (new g reads).remaining = streamOf reads := by
  simp [new, remaining]

/-- What one byte read does: it is the next of the stream. -/
structure Advances (c c' : Chunker) (bytes : Bytes) : Prop where
  remaining : c.remaining = bytes ++ c'.remaining
  offset : c'.offset = c.offset + bytes.length
  geometry : c'.geometry = c.geometry

/-- Bytes that were read and hashed. -/
structure Takes (c c' : Chunker) (bytes : Bytes) : Prop extends Advances c c' bytes where
  ending : c'.ending = c.ending
  lives : c.Lives → c'.Lives
  rolling : c'.rolling = bytes.foldl Buzhash.update c.rolling

/-- A stream whose end was reported. -/
structure Spent (c : Chunker) : Prop where
  remaining : c.remaining = []
  ending : c.ending = .eof
  lives : c.Lives

variable {c : Chunker}

lemma Advances.trans {c1 c2 c3 : Chunker} {bs1 bs2 : Bytes} (h : Advances c1 c2 bs1)
    (h' : Advances c2 c3 bs2) : Advances c1 c3 (bs1 ++ bs2) where
  remaining := by rw [h.remaining, h'.remaining, List.append_assoc]
  offset := by rw [h'.offset, h.offset, List.length_append, Nat.add_assoc]
  geometry := h'.geometry.trans h.geometry

/-- The reads give the next byte, report the end, or give up. -/
lemma fill_spec (hpending : c.pending = []) (rs : List Read) (empty : ℕ) :
    (∃ b c', fill c rs empty = (.ok b, c') ∧ streamOf rs = b :: c'.remaining ∧
      c'.offset = c.offset + 1 ∧ c'.geometry = c.geometry ∧ c'.rolling = c.rolling ∧
      c'.ending = endOf rs ∧ (Lively empty rs → c'.Lives)) ∨
    (∃ c', fill c rs empty = (.error (endOf rs), c') ∧ streamOf rs = [] ∧ c'.remaining = [] ∧
      c'.offset = c.offset ∧ c'.geometry = c.geometry ∧ c'.eof = true) ∨
    ∃ c', fill c rs empty = (.error (.other errNoProgress), c') ∧ ¬ Lively empty rs := by
  induction rs generalizing empty with
  | nil => exact .inr (.inl ⟨_, rfl, rfl, by simp [Chunker.remaining, hpending], rfl, rfl, rfl⟩)
  | cons x rs ih =>
    obtain ⟨_ | ⟨b, rest⟩, err⟩ := x
    · rcases err with _ | _ | e
      · simp only [fill, streamOf, endOf, Lively]
        split
        · exact .inr (.inr ⟨_, rfl, by simp; omega⟩)
        · simpa [Nat.lt_of_not_le ‹_›] using ih (empty + 1)
      · exact .inr (.inl ⟨_, rfl, rfl, by simp [Chunker.remaining, hpending], rfl, rfl, rfl⟩)
      · exact .inr (.inl ⟨_, rfl, rfl, by simp [Chunker.remaining, hpending], rfl, rfl, rfl⟩)
    · refine .inl ⟨b, _, rfl, ?_⟩
      rcases err with _ | _ | e <;>
        simp [streamOf, endOf, Lively, Lives, Chunker.ending, Chunker.remaining, latched]

/-- **One byte** of a reader: the next, the end, or too many empty reads. -/
lemma readByte_spec (c : Chunker) :
    (∃ b c', c.readByte = (.ok b, c') ∧ Takes c (c'.updateHash b) [b]) ∨
    (∃ c', c.readByte = (.error c.ending, c') ∧ c.remaining = [] ∧ Advances c c' [] ∧ Spent c') ∨
    ∃ c', c.readByte = (.error (.other errNoProgress), c') ∧ ¬ c.Lives := by
  unfold readByte
  cases hpending : c.pending with
  | cons b rest =>
    exact .inl ⟨b, _, rfl, ⟨by rw [Chunker.remaining, hpending]; rfl, rfl, rfl⟩, rfl, id, rfl⟩
  | nil =>
    cases heof : c.eof with
    | true =>
      have hnil : c.remaining = [] := by simp [Chunker.remaining, hpending, heof]
      have hend : c.ending = .eof := by simp [Chunker.ending, heof]
      rw [hend]
      exact .inr (.inl ⟨c, rfl, hnil, ⟨rfl, rfl, rfl⟩, hnil, hend, .inl heof⟩)
    | false =>
      cases herr : c.readErr with
      | some e =>
        have hnil : c.remaining = [] := by simp [Chunker.remaining, hpending, herr]
        have hend : c.ending = .other e := by simp [Chunker.ending, heof, herr]
        rw [hend]
        refine .inr (.inl ⟨_, rfl, hnil, ⟨?_, rfl, rfl⟩, ?_, rfl, .inl rfl⟩) <;>
          simp [Chunker.remaining, hpending, herr]
      | none =>
        have hstream : c.remaining = streamOf c.reads := by
          simp [Chunker.remaining, hpending, heof, herr]
        have hend : c.ending = endOf c.reads := by simp [Chunker.ending, heof, herr]
        have hlives : c.Lives ↔ Lively 0 c.reads := by simp [Lives, heof, herr]
        rw [hstream, hend, hlives]
        rcases fill_spec hpending c.reads 0 with
          ⟨b, c', hfill, hread, hoffset, hgeometry, hrolling, hending, hlive⟩ |
          ⟨c', hfill, hread, hnil, hoffset, hgeometry, hover⟩ | hstalled
        · exact .inl ⟨b, c', hfill, ⟨hstream.trans hread, hoffset, hgeometry⟩,
            hending.trans hend.symm, fun h => hlive (hlives.1 h), by rw [updateHash, hrolling]; rfl⟩
        · refine .inr
            (.inl ⟨c', hfill, hread, ⟨?_, hoffset, hgeometry⟩, hnil, ?_, .inl hover⟩)
          · rw [hstream, hread, hnil]
            rfl
          · simp [Chunker.ending, hover]
        · exact .inr (.inr hstalled)

end Chunker

/-! ## The chunks of a stream -/

/-- The chunks of a stream, with the bytes `buf` of one of them read. -/
def chunked (g : Geometry) (complete : Bool) : Buzhash → Bytes → Bytes → List Bytes
  | _, buf, [] => if complete ∧ buf ≠ [] then [buf] else []
  | z, buf, b :: rest =>
    if g.boundary (buf.length + 1) (z.update b).hash then
      (buf ++ [b]) :: chunked g complete (z.update b) [] rest
    else chunked g complete (z.update b) (buf ++ [b]) rest

section Chunked

variable {g : Geometry} {complete : Bool} {z : Buzhash} {buf stream : Bytes}

lemma flatten_chunked (g : Geometry) (complete : Bool) (z : Buzhash) (buf stream : Bytes) :
    (chunked g complete z buf stream).flatten <+: buf ++ stream ∧
      (complete → (chunked g complete z buf stream).flatten = buf ++ stream) := by
  fun_induction chunked g complete z buf stream with
  | case1 z buf h => simp
  | case2 z buf h => simp_all
  | case3 z buf b rest h ih => simpa using ih
  | case4 z buf b rest h ih => simpa using ih

/-- A chunk has a byte, and no more than the limit. -/
lemma length_chunked (hbuf : buf.length < max 1 g.limit) {data : Bytes}
    (h : data ∈ chunked g complete z buf stream) : data ≠ [] ∧ data.length ≤ max 1 g.limit := by
  fun_induction chunked g complete z buf stream with
  | case1 z buf hfinal =>
    obtain rfl := List.mem_singleton.1 h
    exact ⟨hfinal.2, hbuf.le⟩
  | case2 z buf hfinal => cases h
  | case3 z buf b rest hcut ih =>
    rcases List.mem_cons.1 h with rfl | h
    · simpa using hbuf
    · exact ih (by simp) h
  | case4 z buf b rest hcut ih =>
    refine ih ?_ h
    by_contra hlen
    refine hcut (g.boundary_of_limit_le ?_ _)
    rw [List.length_append, List.length_singleton] at hlen
    omega

end Chunked

namespace Chunker

variable {c c' : Chunker}

/-- The chunks of the bytes that remain, behind the bytes `buf` of the first. -/
def chunks (c : Chunker) (buf : Bytes) : List Bytes :=
  chunked c.geometry (c.ending = .eof) c.rolling buf c.remaining

lemma Takes.chunks {b : UInt8} (h : Takes c c' [b]) (buf : Bytes) :
    c.chunks buf = if c.geometry.boundary (buf.length + 1) c'.rolling.hash then
      (buf ++ [b]) :: c'.chunks [] else c'.chunks (buf ++ [b]) := by
  rw [Chunker.chunks, Chunker.chunks, Chunker.chunks, h.geometry, h.ending, h.rolling, h.remaining]
  rfl

/-- What `Next` can end with: the next chunk, the end of the stream, or too many empty reads. -/
inductive Outcome (c : Chunker) (start : ℕ) (buf : Bytes) : Except ReadErr Chunk × Chunker → Prop
  | chunk {more : Bytes} {c' : Chunker} (hadv : Advances c c' more) (hending : c'.ending = c.ending)
      (hlives : c.Lives → c'.Lives) (hchunks : c.chunks buf = (buf ++ more) :: c'.chunks []) :
      Outcome c start buf (.ok (emitChunk start (buf ++ more)), c')
  | ended {e : ReadErr} {c' : Chunker} (he : e = c.ending) (hspent : Spent c')
      (hchunks : c.chunks buf = []) : Outcome c start buf (.error e, c')
  | stalled {c' : Chunker} (h : ¬ c.Lives) :
      Outcome c start buf (.error (.other errNoProgress), c')

/-- **The loop of `next`**: the count never runs out, and the split of the stream does not matter.
-/
theorem nextLoop_outcome {start left : ℕ} (c : Chunker) (buf : Bytes)
    (h : c.geometry.limit ≤ buf.length + left + 1) :
    Outcome c start buf (nextLoop start left c buf) := by
  induction left using Nat.strongRecOn generalizing c buf with
  | _ left ih =>
    unfold nextLoop
    rcases readByte_spec c with ⟨b, c1, hread, htakes⟩ | ⟨c1, hread, hnil, hadv, hspent⟩ |
      ⟨c1, hread, hstalled⟩
    · have hchunks := htakes.chunks buf
      simp only [hread, List.length_append, List.length_singleton]
      rw [htakes.geometry]
      split_ifs with hcut
      · rw [if_pos hcut] at hchunks
        exact .chunk htakes.toAdvances htakes.ending htakes.lives hchunks
      · rw [if_neg hcut] at hchunks
        obtain _ | left := left
        · exact absurd (c.geometry.boundary_of_limit_le h _) hcut
        have hnext := ih left left.lt_succ_self (c1.updateHash b) (buf ++ [b]) (by
          rw [htakes.geometry, List.length_append, List.length_singleton]
          omega)
        change Outcome c start buf (nextLoop start left (c1.updateHash b) (buf ++ [b]))
        generalize nextLoop start left (c1.updateHash b) (buf ++ [b]) = r at hnext ⊢
        cases hnext with
        | chunk hadv hending hlives hmore =>
          rw [List.append_assoc] at hmore ⊢
          exact .chunk (htakes.toAdvances.trans hadv) (hending.trans htakes.ending)
            (fun hc => hlives (htakes.lives hc)) (hchunks.trans hmore)
        | ended he hspent hmore =>
          exact .ended (he.trans htakes.ending) hspent (hchunks.trans hmore)
        | stalled hstalled => exact .stalled fun hc => hstalled (htakes.lives hc)
    · simp only [hread]
      cases hend : c.ending with
      | other e => exact .ended hend.symm hspent (by simp [Chunker.chunks, hnil, hend, chunked])
      | eof =>
        by_cases hbuf : buf = []
        · have hout : Outcome c start buf (.error .eof, c1) :=
            .ended hend.symm hspent (by simp [Chunker.chunks, hnil, hbuf, chunked])
          simpa [hbuf] using hout
        · have hout : Outcome c start buf (.ok (emitChunk start (buf ++ [])), c1) :=
            .chunk hadv (hspent.ending.trans hend.symm) (fun _ => hspent.lives)
              (by simp [Chunker.chunks, hnil, hbuf, hend, hspent.remaining, chunked])
          simpa [hbuf] using hout
    · simp only [hread]
      exact .stalled hstalled

lemma next_outcome (c : Chunker) : Outcome c c.offset [] c.next :=
  nextLoop_outcome c [] (by simp)

/-- **A chunk is the next part of the stream**, not empty, whatever the reads. -/
theorem next_ok {chunk : Chunk} (h : c.next = (.ok chunk, c')) :
    chunk = emitChunk c.offset chunk.data ∧ chunk.data ≠ [] ∧ Advances c c' chunk.data ∧
      chunk.data.length ≤ max 1 c.geometry.limit := by
  have hout := next_outcome c
  rw [h] at hout
  cases hout with
  | chunk hadv _ _ hchunks =>
    obtain ⟨hne, hlen⟩ := length_chunked (by simp) (hchunks ▸ List.mem_cons_self)
    exact ⟨rfl, hne, hadv, hlen⟩

/-- The end is reported when nothing is left. -/
theorem next_eof (h : c.next = (.error .eof, c')) : c.remaining = [] := by
  have hout := next_outcome c
  rw [h] at hout
  cases hout with
  | ended hend _ hchunks =>
    have hflat := (flatten_chunked c.geometry (c.ending = .eof) c.rolling [] c.remaining).2
    rw [show chunked _ _ _ _ _ = [] from hchunks] at hflat
    exact (hflat (by simp [← hend])).symm

/-! ## Whole streams -/

/-- The chunks that up to `fuel` calls give, and the error that ends them. -/
def drain : ℕ → Chunker → List Chunk × Option ReadErr
  | 0, _ => ([], none)
  | fuel + 1, c =>
    match c.next with
    | (.error e, _) => ([], some e)
    | (.ok chunk, c) => (chunk :: (drain fuel c).1, (drain fuel c).2)

/-- Chunks with the given bytes, one behind the other. -/
def placed : ℕ → List Bytes → List Chunk
  | _, [] => []
  | start, data :: datas => emitChunk start data :: placed (start + data.length) datas

/-- **The calls of `Next` refine `chunked`**, however the reader splits the stream. -/
theorem drain_eq_placed {fuel : ℕ} (hlives : c.Lives) (hfuel : (c.chunks []).length < fuel) :
    drain fuel c = (placed c.offset (c.chunks []), some c.ending) := by
  induction fuel generalizing c with
  | zero => omega
  | succ fuel ih =>
    have hout := next_outcome c
    rw [drain]
    generalize c.next = r at hout
    cases hout with
    | chunk hadv hending hlives' hchunks =>
      rw [hchunks] at hfuel ⊢
      simp only
      rw [ih (hlives' hlives) (Nat.lt_of_succ_lt_succ hfuel), hadv.offset, hending]
      rfl
    | ended he _ hchunks => rw [hchunks, he]; rfl
    | stalled hstalled => exact absurd hlives hstalled

/-- A stream that comes in two reads, the first of them empty. -/
theorem drain_eq_placed_split : ∃ c : Chunker, c.remaining = [4, 5, 6] ∧
    drain 4 c = (placed 0 (c.chunks []), some .eof) :=
  ⟨new ⟨1, 2, 1⟩ [⟨[], none⟩, ⟨[4, 5, 6], some .eof⟩], rfl,
    drain_eq_placed (by simp [Lives, Lively, new, maxConsecutiveEmptyReads]) (by decide +kernel)⟩

/-! ## The rolling hash of a chunker -/

/-- `Reset`. -/
def reset (c : Chunker) (reads : List Read) (offset : ℕ) : Chunker :=
  ⟨c.geometry, reads, [], false, none, offset, .new⟩

/-- The states of a chunker, with the bytes that it has read since it was made or reset. -/
inductive Fed : Chunker → Bytes → Prop
  | new (g : Geometry) (reads : List Read) : Fed (new g reads) []
  | reset {c : Chunker} {bytes : Bytes} (h : Fed c bytes) (reads : List Read) (offset : ℕ) :
      Fed (c.reset reads offset) []
  | byte {c c' : Chunker} {bytes : Bytes} {b : UInt8} (h : Fed c bytes)
      (hread : c.readByte = (.ok b, c')) : Fed (c'.updateHash b) (bytes ++ [b])
  | failed {c c' : Chunker} {bytes : Bytes} {e : ReadErr} (h : Fed c bytes)
      (hread : c.readByte = (.error e, c')) : Fed c' bytes

lemma readByte_rolling (c : Chunker) : c.readByte.2.rolling = c.rolling := by
  have hfill : ∀ rs empty, (c.fill rs empty).2.rolling = c.rolling := by
    intro rs empty
    fun_induction fill c rs empty <;> first | rfl | assumption
  unfold readByte
  repeat' split
  all_goals first | rfl | exact hfill _ _

lemma Fed.nextLoop {start left : ℕ} {buf bytes : Bytes} (h : Fed c bytes) :
    ∃ more, Fed (nextLoop start left c buf).2 (bytes ++ more) ∧
      ∀ chunk, (Chunker.nextLoop start left c buf).1 = .ok chunk → chunk.data = buf ++ more := by
  fun_induction Chunker.nextLoop start left c buf generalizing bytes with
  | case1 left c buf c' hread hbuf =>
    exact ⟨[], by simpa using h.failed hread, by rintro _ ⟨⟩; simp [emitChunk]⟩
  | case2 left c buf c' hread hbuf => exact ⟨[], by simpa using h.failed hread, by simp⟩
  | case3 left c buf e c' hread => exact ⟨[], by simpa using h.failed hread, by simp⟩
  | case4 left c buf b c' hread _ hcut => exact ⟨[b], h.byte hread, by rintro _ ⟨⟩; rfl⟩
  | case5 c buf b c' hread _ hcut => exact ⟨[b], h.byte hread, by rintro _ ⟨⟩; rfl⟩
  | case6 c buf b c' hread _ _ hcut left =>
    rename_i ih
    obtain ⟨more, hfed, hdata⟩ := ih (h.byte hread)
    refine ⟨b :: more, by simpa using hfed, fun chunk hchunk => ?_⟩
    rw [hdata chunk hchunk, List.append_assoc, List.singleton_append]

/-- **The rolling hash is the hash of the last window**, at every byte, after any number of chunks
and after `Reset`; and `Next` feeds the bytes of its chunk. -/
theorem Fed.rolling_holds {bytes : Bytes} (h : Fed c bytes) : c.rolling.Holds bytes ∧
    ∃ more, Fed c.next.2 (bytes ++ more) ∧ ∀ chunk, c.next.1 = .ok chunk → chunk.data = more := by
  refine ⟨?_, h.nextLoop⟩
  induction h with
  | new | reset => exact .new
  | @byte c c' bytes b _ hread ih =>
    have hrolling := c.readByte_rolling
    rw [hread] at hrolling
    exact (hrolling ▸ ih).update b
  | @failed c c' bytes e _ hread ih =>
    have hrolling := c.readByte_rolling
    rw [hread] at hrolling
    exact hrolling ▸ ih

/-- A chunker at the start of a hundred bytes. -/
def hundred : Chunker := new ⟨50, 60, 0xFFFF⟩ [⟨(List.range 100).map UInt8.ofNat, some .eof⟩]

/-- It cuts off a chunk that is longer than the window. -/
theorem rolling_holds_cut : ∃ chunk c, hundred.next = (.ok chunk, c) ∧
    windowSize < chunk.data.length ∧ chunk.data.length < 100 ∧ c.rolling.Holds chunk.data := by
  have hcut : (hundred.next.1.toOption.any fun chunk =>
      windowSize < chunk.data.length ∧ chunk.data.length < 100) = true := by decide +kernel
  have hstart : Fed hundred [] := .new _ _
  obtain ⟨-, more, hfed, hdata⟩ := hstart.rolling_holds
  generalize hundred.next = out at hcut hfed hdata
  obtain ⟨_ | chunk, c⟩ := out
  · cases hcut
  · have hlen : windowSize < chunk.data.length ∧ chunk.data.length < 100 := by
      simpa [Except.toOption] using hcut
    obtain rfl := hdata chunk rfl
    exact ⟨chunk, c, rfl, hlen.1, hlen.2, hfed.rolling_holds.1⟩

end Chunker

end DiskNexus.Chunking
