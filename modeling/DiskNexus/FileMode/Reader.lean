import DiskNexus.Lib.Yields
import DiskNexus.Manifest.Catalog

/-!
# The stream of a file backup

A backup of files reads them one after the other as one stream. `Walk` has laid the files out in it
with the sizes that it saw. A file that has become shorter is filled up with zeros, and of a longer
one the beginning is read.
-/

namespace DiskNexus.FileMode

open Binary Streams
open Manifest (FileEntry)

/-- A file that contributes to the stream. -/
def HasData (f : FileEntry) : Prop := ¬ (f.isDir = true ∨ f.isSymlink = true ∨ f.size = 0)

instance (f : FileEntry) : Decidable (HasData f) := inferInstanceAs (Decidable (¬ _))

/-- The loop of `Walk` that assigns the `int64` stream offsets, and the total size. -/
def assignOffsets : ℤ → List FileEntry → List FileEntry × ℤ
  | offset, [] => ([], offset)
  | offset, f :: fs =>
    if HasData f then
      let (fs, total) := assignOffsets (Int.bmod (offset + f.size) (2 ^ 64)) fs
      ({ f with streamOffset := offset, streamLength := f.size } :: fs, total)
    else
      let (fs, total) := assignOffsets offset fs
      (f :: fs, total)

/-- `fileRef`, with the bytes that the file has when it is read. -/
structure FileRef where
  content : Bytes
  streamLen : ℕ

/-- `MultiFileReader`: the files from the current one on, and the bytes read from it if it is open.
-/
structure MultiFileReader where
  fileEntries : List FileRef
  totalSize : ℤ
  rest : List FileRef
  bytesRead : Option ℕ
  padRemaining : ℕ

/-- The files with data; `actual` says what they hold when they are read. -/
def fileRefs (actual : FileEntry → Bytes) : List FileEntry → List FileRef
  | [] => []
  | f :: fs =>
    if HasData f then ⟨actual f, f.streamLength.toNat⟩ :: fileRefs actual fs else fileRefs actual fs

/-- `NewMultiFileReader`. -/
def newMultiFileReader (actual : FileEntry → Bytes) (catalog : List FileEntry × ℤ) :
    MultiFileReader :=
  ⟨fileRefs actual catalog.1, catalog.2, fileRefs actual catalog.1, none, 0⟩

namespace MultiFileReader

/-- One round of the loop of `Read`, for `room` bytes. A read of a file gives at least one byte and
at most `short + 1`, or the end of the file. -/
def round (r : MultiFileReader) (room short : ℕ) : Option (Bytes × MultiFileReader) :=
  if 0 < r.padRemaining then
    let want := min room r.padRemaining
    some (List.replicate want 0, { r with padRemaining := r.padRemaining - want })
  else
    match r.rest with
    | [] => none
    | ref :: rest =>
      let start := r.bytesRead.getD 0
      let want := min room (ref.streamLen - start)
      let data := (ref.content.drop start).take (min want (short + 1))
      let bytesRead := start + data.length
      if ref.streamLen ≤ bytesRead then some (data, { r with rest := rest, bytesRead := none })
      else if data = [] then
        some (data, { r with rest := rest, bytesRead := none,
                             padRemaining := ref.streamLen - bytesRead })
      else some (data, { r with bytesRead := some bytesRead })

/-- The loop of `Read`, with the number of rounds it may take. -/
def loop : ℕ → (ℕ → ℕ) → ℕ → MultiFileReader → Bytes × MultiFileReader
  | 0, _, _, r => ([], r)
  | n + 1, short, room, r =>
    if room = 0 then ([], r)
    else
      match r.round room (short n) with
      | none => ([], r)
      | some (data, r) =>
        let (more, r) := loop n short (room - data.length) r
        (data ++ more, r)

/-- `Read` into a buffer of `call.1` bytes, where `call.2` says how short the reads of the files
fall. A round fills some of the buffer or finishes a file. -/
def read (r : MultiFileReader) (call : ℕ × (ℕ → ℕ)) : Option Bytes × MultiFileReader :=
  let (data, r') := loop (call.1 + r.rest.length) call.2 call.1 r
  if data = [] ∧ 0 < call.1 then (none, r') else (some data, r')

/-- The loop of `SeekTo` over the files. -/
def seekFiles : List FileRef → ℕ → List FileRef × Option ℕ
  | [], _ => ([], none)
  | ref :: rest, off =>
    if off < ref.streamLen then (ref :: rest, some off) else seekFiles rest (off - ref.streamLen)

/-- `SeekTo`. -/
def seekTo (r : MultiFileReader) (off : ℤ) : Except String MultiFileReader :=
  if off < 0 ∨ r.totalSize < off then .error s!"SeekTo {off} out of range [0,{r.totalSize}]"
  else
    let found := seekFiles r.fileEntries off.toNat
    .ok { r with rest := found.1, bytesRead := found.2, padRemaining := 0 }

end MultiFileReader

/-! ## What is delivered -/

/-- The part of the stream for a file, filled up with zeros. -/
def padded (content : Bytes) (n : ℕ) : Bytes :=
  content.take n ++ List.replicate (n - content.length) 0

@[simp] lemma length_padded (content : Bytes) (n : ℕ) : (padded content n).length = n := by
  rw [padded, List.length_append, List.length_take, List.length_replicate]
  omega

/-- What a file has of its part. -/
lemma take_drop_padded {content : Bytes} {n start k : ℕ} (hn : start + k ≤ n)
    (hk : start + k ≤ content.length) :
    ((padded content n).drop start).take k = (content.drop start).take k := by
  rw [List.take_drop, List.take_drop, padded,
    List.take_append_of_le_length (by rw [List.length_take]; omega), List.take_take,
    Nat.min_eq_left hn]

/-- Behind the end of a file its part is zeros. -/
lemma drop_padded {content : Bytes} {n start : ℕ} (h : content.length ≤ start) :
    (padded content n).drop start = List.replicate (n - start) 0 := by
  rw [padded, List.drop_append, List.drop_eq_nil_of_le (by rw [List.length_take]; omega),
    List.nil_append, List.drop_replicate, List.length_take]
  congr 1
  omega

/-- The stream of files. -/
def streamOf (refs : List FileRef) : Bytes :=
  refs.flatMap fun ref => padded ref.content ref.streamLen

namespace MultiFileReader

/-- What a reader has still to deliver. -/
def held (r : MultiFileReader) : Bytes :=
  List.replicate r.padRemaining 0 ++ (streamOf r.rest).drop (r.bytesRead.getD 0)

/-- A file that is open has bytes left. -/
def Open (r : MultiFileReader) : Prop :=
  (∀ ref ∈ r.rest, 0 < ref.streamLen) ∧
    ∀ n, r.bytesRead = some n → ∃ ref rest, r.rest = ref :: rest ∧ n < ref.streamLen ∧
      r.padRemaining = 0

variable {r r' : MultiFileReader} {room short : ℕ} {data : Bytes}

/-- What is held while a file is current. -/
lemma held_of_rest {ref : FileRef} {rest : List FileRef} {start : ℕ} (hpad : r.padRemaining = 0)
    (hrest : r.rest = ref :: rest) (hstart : r.bytesRead.getD 0 = start)
    (hlt : start ≤ ref.streamLen) :
    r.held = (padded ref.content ref.streamLen).drop start ++ streamOf rest := by
  rw [held, hpad, hrest, hstart, streamOf, List.flatMap_cons,
    List.drop_append_of_le_length (by rwa [length_padded])]
  rfl

/-- **One round** hands out the beginning of what is held, and does not do nothing. -/
lemma round_some (hr : r.Open) (hroom : 0 < room) (h : r.round room short = some (data, r')) :
    r'.Open ∧ r.held = data ++ r'.held ∧ data.length ≤ room ∧
      r'.rest.length + (room - data.length) < r.rest.length + room := by
  obtain ⟨hpos, hopen⟩ := hr
  unfold round at h
  split at h
  · -- zeros that are owed
    cases h
    refine ⟨⟨hpos, fun n hn => ?_⟩, ?_, ?_, ?_⟩
    · obtain ⟨-, -, -, -, hzero⟩ := hopen n hn
      omega
    · simp only [held]
      rw [← List.append_assoc, List.replicate_append_replicate]
      congr 2
      omega
    · rw [List.length_replicate]
      omega
    · simp only [List.length_replicate]
      omega
  have hpad : r.padRemaining = 0 := by omega
  split at h
  · cases h
  rename_i ref rest hrest
  have hlt : r.bytesRead.getD 0 < ref.streamLen := by
    cases hread : r.bytesRead with
    | none => exact hpos ref (by rw [hrest]; exact (.head _))
    | some n =>
      obtain ⟨ref', rest', hrest', hn, -⟩ := hopen n hread
      cases hrest.symm.trans hrest'
      exact hn
  simp only at h
  generalize hstart : r.bytesRead.getD 0 = start at h hlt
  generalize hdata : (ref.content.drop start).take
    (min (min room (ref.streamLen - start)) (short + 1)) = piece at h
  have hpos' : ∀ ref ∈ rest, 0 < ref.streamLen := fun ref' h' =>
    hpos ref' (by rw [hrest]; exact .tail _ h')
  have hlen : piece.length = min (min (min room (ref.streamLen - start)) (short + 1))
      (ref.content.length - start) := by
    rw [← hdata, List.length_take, List.length_drop]
  -- the piece, and what is left of the part of the file
  have hheld : r.held = piece ++ ((padded ref.content ref.streamLen).drop (start + piece.length) ++
      streamOf rest) := by
    have hpiece : ((padded ref.content ref.streamLen).drop start).take piece.length = piece := by
      by_cases hin : start ≤ ref.content.length
      · rw [take_drop_padded (by omega) (by omega)]
        exact (List.prefix_iff_eq_take.1 (hdata ▸ List.take_prefix _ _)).symm
      · rw [List.eq_nil_of_length_eq_zero (show piece.length = 0 by omega)]
        rfl
    rw [held_of_rest hpad hrest hstart hlt.le, ← List.append_assoc, ← List.drop_drop]
    congr 1
    conv_lhs => rw [← List.take_append_drop piece.length
      ((padded ref.content ref.streamLen).drop start), hpiece]
  have hfit : piece.length ≤ room := by omega
  split at h
  · -- the file is finished
    rename_i hdone
    cases h
    refine ⟨⟨hpos', by rintro n ⟨⟩⟩, ?_, hfit, by simp only [hrest, List.length_cons]; omega⟩
    rw [hheld, List.drop_eq_nil_of_le (by rw [length_padded]; exact hdone)]
    simp [held, hpad]
  split at h
  · -- it ends too soon
    rename_i hshort hempty
    cases h
    subst hempty
    refine ⟨⟨hpos', by rintro n ⟨⟩⟩, ?_, hfit, by simp only [hrest, List.length_cons]; omega⟩
    rw [hheld, List.length_nil, Nat.add_zero,
      drop_padded (by simp only [List.length_nil] at hlen; omega)]
    simp [held]
  · rename_i hmore hsome
    cases h
    have hne : data.length ≠ 0 := fun h => hsome (List.length_eq_zero_iff.1 h)
    refine ⟨⟨hpos, ?_⟩, ?_, hfit, by simp only; omega⟩
    · rintro n ⟨⟩
      exact ⟨ref, rest, hrest, by omega, hpad⟩
    · have hrest' := @held_of_rest { r with bytesRead := some (start + data.length) } ref rest
        (start + data.length) hpad hrest rfl (by omega)
      rw [hheld, hrest']

lemma round_none (h : r.round room short = none) : r.held = [] := by
  unfold round at h
  split at h
  · cases h
  rename_i hpad
  split at h
  · rename_i hrest
    simp [held, hrest, streamOf, Nat.eq_zero_of_not_pos hpad]
  · simp only at h
    split at h
    · cases h
    · split at h <;> cases h

/-- **The loop of `Read`** fills the buffer, or empties the reader. -/
lemma loop_eq (n : ℕ) (short : ℕ → ℕ) (hr : r.Open) (hn : r.rest.length + room ≤ n) :
    (loop n short room r).2.Open ∧
    r.held = (loop n short room r).1 ++ (loop n short room r).2.held ∧
      (loop n short room r).1.length ≤ room ∧
      ((loop n short room r).1.length < room → (loop n short room r).2.held = []) := by
  induction n generalizing r room with
  | zero =>
    have hroom : room = 0 := by omega
    subst hroom
    exact ⟨hr, rfl, le_rfl, fun h => absurd h (Nat.not_lt_zero _)⟩
  | succ n ih =>
    rw [loop]
    split_ifs with hroom
    · exact ⟨hr, rfl, Nat.zero_le _, fun h => absurd h (by simp [hroom])⟩
    split
    · rename_i hround
      exact ⟨hr, rfl, Nat.zero_le _, fun _ => round_none hround⟩
    · rename_i data r' hround
      obtain ⟨hr', hheld, hfit, hless⟩ := round_some hr (by omega) hround
      have hroom' : r'.rest.length + (room - data.length) ≤ n := by omega
      obtain ⟨hopen, hsplit, hlen, hfull⟩ := ih hr' hroom'
      simp only [List.append_assoc, List.length_append]
      exact ⟨hopen, by rw [hheld, ← hsplit], by omega, fun h => hfull (by omega)⟩

/-- A reader hands out what it holds. -/
lemma yields_held (hr : r.Open) : Yields Prod.fst read r r.held := by
  refine @yields_of_step _ _ Prod.fst read held Open (fun r call hr => ?_) r hr
  obtain ⟨hopen, hsplit, hlen, hfull⟩ :=
    @loop_eq r call.1 (call.1 + r.rest.length) call.2 hr (by omega)
  unfold read
  simp only
  split
  · rename_i hnil
    refine ⟨hopen, hnil.2, ?_, hfull (by rw [hnil.1]; exact hnil.2)⟩
    rw [hsplit, hnil.1, hfull (by rw [hnil.1]; exact hnil.2)]
    rfl
  · rename_i hsome
    exact ⟨hopen, hsplit, hlen, fun h => Nat.eq_zero_of_not_pos fun hpos => hsome ⟨h, hpos⟩⟩

/-- The files from an offset on. -/
lemma seekFiles_eq (refs : List FileRef) (off : ℕ) (hpos : ∀ ref ∈ refs, 0 < ref.streamLen)
    (total : ℤ) (all : List FileRef) :
    Open ⟨all, total, (seekFiles refs off).1, (seekFiles refs off).2, 0⟩ ∧
      held ⟨all, total, (seekFiles refs off).1, (seekFiles refs off).2, 0⟩ =
        (streamOf refs).drop off := by
  induction refs generalizing off with
  | nil => exact ⟨⟨by rintro ref ⟨⟩, by rintro n ⟨⟩⟩, by simp [seekFiles, held, streamOf]⟩
  | cons ref refs ih =>
    rw [seekFiles]
    split_ifs with hlt
    · refine ⟨⟨hpos, ?_⟩, rfl⟩
      rintro n ⟨⟩
      exact ⟨ref, refs, rfl, hlt, rfl⟩
    · obtain ⟨hopen, hheld⟩ := ih (off - ref.streamLen)
        fun ref' h => hpos ref' (.tail _ h)
      have hnil : (padded ref.content ref.streamLen).drop off = [] :=
        List.drop_eq_nil_of_le (by rw [length_padded]; omega)
      refine ⟨hopen, hheld.trans ?_⟩
      rw [streamOf, streamOf, List.flatMap_cons, List.drop_append, hnil, length_padded,
        List.nil_append]

end MultiFileReader

/-- The bytes of the files with data. -/
def dataSize (files : List FileEntry) : ℤ := ((files.filter HasData).map FileEntry.size).sum

lemma dataSize_nonneg {files : List FileEntry} (hsize : ∀ f ∈ files, 0 ≤ f.size) :
    0 ≤ dataSize files :=
  List.sum_nonneg fun n hn => by
    obtain ⟨f, hf, rfl⟩ := List.mem_map.1 hn
    exact hsize f (List.mem_of_mem_filter hf)

/-- **The layout of the stream**: each file has the part that its entry says. -/
lemma assignOffsets_eq (actual : FileEntry → Bytes) {files : List FileEntry}
    (hsize : ∀ f ∈ files, 0 ≤ f.size) {offset : ℤ} (hoffset : 0 ≤ offset)
    (hbound : offset + dataSize files < 2 ^ 63) {stream : Bytes}
    (hstream : stream = streamOf (fileRefs actual (assignOffsets offset files).1)) :
    offset + stream.length = (assignOffsets offset files).2 ∧
      (∀ ref ∈ fileRefs actual (assignOffsets offset files).1, 0 < ref.streamLen) ∧
      ∀ f ∈ (assignOffsets offset files).1, HasData f →
        f.streamLength = f.size ∧ offset ≤ f.streamOffset ∧
          (stream.drop (f.streamOffset - offset).toNat).take f.streamLength.toNat =
            padded (actual f) f.streamLength.toNat := by
  subst hstream
  induction files generalizing offset with
  | nil => exact ⟨by simp [assignOffsets, fileRefs, streamOf], by rintro f ⟨⟩, by rintro f ⟨⟩⟩
  | cons f files ih =>
    obtain ⟨hf, hfiles⟩ := List.forall_mem_cons.1 hsize
    rw [assignOffsets]
    split_ifs with hdata
    · have hcons : dataSize (f :: files) = f.size + dataSize files := by
        simp [dataSize, hdata]
      have hrest := dataSize_nonneg hfiles
      have hwrap : Int.bmod (offset + f.size) (2 ^ 64) = offset + f.size :=
        Int.bmod_eq_of_le (by omega) (by omega)
      rw [hwrap]
      obtain ⟨htotal, hpos, hparts⟩ :=
        @ih hfiles (offset + f.size) (by omega) (by omega)
      have hsome : 0 < f.size := lt_of_le_of_ne hf fun h => hdata (.inr (.inr h.symm))
      have hrefs : fileRefs actual ({ f with streamOffset := offset, streamLength := f.size } ::
          (assignOffsets (offset + f.size) files).1) =
            ⟨actual { f with streamOffset := offset, streamLength := f.size }, f.size.toNat⟩ ::
              fileRefs actual (assignOffsets (offset + f.size) files).1 := if_pos hdata
      rw [hrefs]
      refine ⟨?_, List.forall_mem_cons.2 ⟨by simp only; omega, hpos⟩, fun g hg hgdata => ?_⟩
      · rw [← htotal, streamOf, List.flatMap_cons, List.length_append, length_padded, ← streamOf]
        push_cast
        omega
      rw [streamOf, List.flatMap_cons, ← streamOf]
      rcases List.mem_cons.1 hg with rfl | hg
      · refine ⟨rfl, le_rfl, ?_⟩
        simp only [Int.sub_self, Int.toNat_zero, List.drop_zero]
        exact List.take_left' (length_padded _ _)
      · obtain ⟨hlen, hoff, hpart⟩ := hparts g hg hgdata
        refine ⟨hlen, by omega, ?_⟩
        rw [List.drop_append, List.drop_eq_nil_of_le (by simp only [length_padded]; omega),
          List.nil_append, length_padded, ← hpart]
        congr 2
        simp only
        omega
    · have hskip : dataSize (f :: files) = dataSize files := by
        simp [dataSize, hdata]
      obtain ⟨htotal, hpos, hparts⟩ := ih hfiles hoffset (by omega)
      have hrefs : fileRefs actual (f :: (assignOffsets offset files).1) =
          fileRefs actual (assignOffsets offset files).1 := if_neg hdata
      rw [hrefs]
      refine ⟨htotal, hpos, fun g hg hgdata => ?_⟩
      rcases List.mem_cons.1 hg with rfl | hg
      · exact absurd hgdata hdata
      · exact hparts g hg hgdata

/-- **The stream of a file backup** is that of its catalog: it has the total size, with each file's
first bytes and zeros behind them in its place, however the calls and the reads cut it, and from any
offset on after a seek. -/
theorem multiFileReader_yields (actual : FileEntry → Bytes) {files : List FileEntry}
    (hsize : ∀ f ∈ files, 0 ≤ f.size) (hbound : dataSize files < 2 ^ 63)
    {catalog : List FileEntry × ℤ}
    (hcatalog : catalog = assignOffsets 0 files) {stream : Bytes}
    (hstream : stream = streamOf (fileRefs actual catalog.1)) :
    (stream.length : ℤ) = catalog.2 ∧
      (∀ f ∈ catalog.1, HasData f → f.streamLength = f.size ∧ 0 ≤ f.streamOffset ∧
        (stream.drop f.streamOffset.toNat).take f.streamLength.toNat =
          padded (actual f) f.streamLength.toNat) ∧
      Yields Prod.fst MultiFileReader.read (newMultiFileReader actual catalog) stream ∧
      ∀ (r : MultiFileReader) (off : ℤ), r.fileEntries = fileRefs actual catalog.1 →
        r.totalSize = catalog.2 → 0 ≤ off → off ≤ catalog.2 → ∃ r', r.seekTo off = .ok r' ∧
          Yields Prod.fst MultiFileReader.read r' (stream.drop off.toNat) := by
  subst hcatalog
  obtain ⟨htotal, hpos, hparts⟩ := assignOffsets_eq actual hsize le_rfl (by omega) hstream
  simp only [Int.sub_zero] at hparts
  refine ⟨by omega, hparts, ?_, fun r off hentries htot h1 h2 => ?_⟩
  · have hheld : (newMultiFileReader actual (assignOffsets 0 files)).held = stream := by
      rw [hstream]
      rfl
    rw [← hheld]
    exact MultiFileReader.yields_held ⟨hpos, by rintro n ⟨⟩⟩
  · obtain ⟨hopen, hheld⟩ := MultiFileReader.seekFiles_eq r.fileEntries off.toNat
      (hentries ▸ hpos) r.totalSize r.fileEntries
    refine ⟨_, if_neg (by omega), ?_⟩
    rw [hstream, ← hentries, ← hheld]
    exact MultiFileReader.yields_held hopen

/-- A file of two bytes, an empty one, and one of three bytes. -/
def threeFiles : List FileEntry := [2, 0, 3].map fun n => { Manifest.inlineFile with size := n }

/-- The first file has lost a byte, and the last one has got one. -/
def changed (f : FileEntry) : Bytes := if f.size = 2 then [7] else [8, 9, 10, 11]

theorem multiFileReader_yields_changed :
    Yields Prod.fst MultiFileReader.read
        (newMultiFileReader changed (assignOffsets 0 threeFiles)) [7, 0, 8, 9, 10] ∧
      ∃ r, (newMultiFileReader changed (assignOffsets 0 threeFiles)).seekTo 1 = .ok r ∧
        Yields Prod.fst MultiFileReader.read r [0, 8, 9, 10] := by
  obtain ⟨-, -, hyields, hseek⟩ := multiFileReader_yields changed
    (show ∀ f ∈ threeFiles, 0 ≤ f.size by decide) (by decide) rfl rfl
  exact ⟨hyields, hseek _ 1 rfl rfl (by decide) (by decide)⟩

end DiskNexus.FileMode
