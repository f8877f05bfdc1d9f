import DiskNexus.Restore.Files

/-!
# Restoring files of a volume

A file of a volume is restored extent by extent: the chunks that an extent reaches into are written
one behind the other from its offset in the file on. Nothing compares what was written for an extent
with its length.
-/

namespace DiskNexus.Restore

open Binary Sha256 Store Index Overwrite Segments
open Manifest (Entry FileEntry VolumeExtent IsInt64 wrapInt64)

section Code

variable (R : Restorer) (frames : ℕ × ℕ → Option Bytes) (writeFails : ℕ × ℕ → Bool)

/-- The loop over the entries of the extent number `k`: the bytes written for it, and the file. -/
def writeChunks (k : ℕ) (ext : VolumeExtent) (a b : ℤ) :
    ℕ → List Entry → ℕ → Bytes → Except Failure ℕ × Bytes
  | _, [], extWritten, out => (.ok extWritten, out)
  | i, e :: es, extWritten, out =>
    match verifiedChunk R (frames (k, i)) e with
    | .error msg => (.error (.error msg), out)
    | .ok data =>
      match sliceOf a b e data with
      | none => (.error .panicked, out)
      | some bytes =>
        let off := ext.fileOffset + extWritten
        if off < 0 then (.error (.error "negative offset"), out)
        else if writeFails (k, i) then (.error (.error "write"), out)
        else writeChunks k ext a b (i + 1) es (extWritten + bytes.length)
          (overwrite 0 out off.toNat bytes)

/-- The loop over the extents: the bytes written in all, and the file. -/
def writeExtents (ea : EntryAccessor) :
    ℕ → List VolumeExtent → ℕ → Bytes → Except Failure ℕ × Bytes
  | _, [], total, out => (.ok total, out)
  | k, ext :: exts, total, out =>
    let extStart := ext.volumeOffset
    let extEnd := wrapInt64 (ext.volumeOffset + ext.length)
    match entriesBetween "extent" ea extStart extEnd with
    | .error e => (.error (.error e), out)
    | .ok chunk =>
      match writeChunks R frames writeFails k ext extStart extEnd 0 chunk 0 out with
      | (.error e, out) => (.error e, out)
      | (.ok extWritten, out) => writeExtents ea (k + 1) exts (total + extWritten) out

/-- `restoreVolumeFile`, with what its path holds before and after. -/
def restoreVolumeFile (createFails truncateFails : Bool) (f : FileEntry) (ea : EntryAccessor)
    (existing : Option Bytes) : Except Failure ℤ × Option Bytes :=
  if createFails then (.error (.error "create"), existing)
  else if f.volumeExtents = [] then (.ok 0, some [])
  else
    match writeExtents R frames writeFails ea 0 f.volumeExtents 0 [] with
    | (.error (.error e), _) => (.error (.error e), none)
    | (.error .panicked, out) => (.error .panicked, some out)
    | (.ok total, out) =>
      if 0 < f.size ∧ (total : ℤ) ≠ f.size then
        if truncateFails then (.error (.error "setting logical size"), none)
        else (.ok (min total f.size), some (resize 0 out f.size.toNat))
      else (.ok total, some out)

end Code

/-! ## The file as the volume has it -/

/-- The extents lie within the file, with `int64` fields. -/
structure ExtentsWithin (f : FileEntry) : Prop where
  fileOffset : ∀ ext ∈ f.volumeExtents, 0 ≤ ext.fileOffset
  length : ∀ ext ∈ f.volumeExtents, 0 ≤ ext.length ∧ ext.length < 2 ^ 63
  fileEnd : ∀ ext ∈ f.volumeExtents, ext.fileOffset + ext.length ≤ f.size
  volumeOffset : ∀ ext ∈ f.volumeExtents, IsInt64 ext.volumeOffset

/-- The file has its size, the bytes of the volume in its extents, and zeros elsewhere. -/
structure VolumeExact (v : ℤ → UInt8) (f : FileEntry) (out : Bytes) : Prop where
  size : (out.length : ℤ) = f.size
  inside : ∀ ext ∈ f.volumeExtents, ∀ j : ℕ, (j : ℤ) < ext.length →
    out.getD (ext.fileOffset.toNat + j) 0 = v (ext.volumeOffset + j)
  outside : ∀ i : ℕ, (i : ℤ) < f.size →
    (∀ ext ∈ f.volumeExtents, ¬ (ext.fileOffset ≤ i ∧ (i : ℤ) < ext.fileOffset + ext.length)) →
      out.getD i 0 = 0

/-- Extents that map the same byte of the file agree on it. -/
def Agree (v : ℤ → UInt8) (exts : List VolumeExtent) : Prop :=
  ∀ ext ∈ exts, ∀ ext' ∈ exts, ∀ j j' : ℕ, (j : ℤ) < ext.length → (j' : ℤ) < ext'.length →
    ext.fileOffset + j = ext'.fileOffset + j' →
      v (ext.volumeOffset + j) = v (ext'.volumeOffset + j')

/-- The extents map all of the file that they should: the entries cover them, they agree on a volume
with these entries, and the number of the bytes mapped is the size of the file only if they reach
its end. -/
structure Mapped (R : Restorer) (frames : ℕ × ℕ → Option Bytes) (es : List Entry) (f : FileEntry) :
    Prop where
  covered : ∀ ext ∈ f.volumeExtents, ∀ x, ext.volumeOffset ≤ x →
    x < ext.volumeOffset + ext.length → Covered es x
  agree : ∀ v, Describes R frames es v → Agree v f.volumeExtents
  empty : f.volumeExtents = [] → f.size = 0
  reaches : (f.volumeExtents.map VolumeExtent.length).sum = f.size → f.size = 0 ∨
    ∃ ext ∈ f.volumeExtents, 0 < ext.length ∧ ext.fileOffset + ext.length = f.size

/-- The bytes of an extent, with its place in the file. -/
def extentPiece (v : ℤ → UInt8) (ext : VolumeExtent) : ℕ × Bytes :=
  (ext.fileOffset.toNat, slice v ext.volumeOffset ext.length.toNat)

section Extents

variable {R : Restorer} {frames : ℕ × ℕ → Option Bytes} {writeFails : ℕ × ℕ → Bool}
  {ea : EntryAccessor} {es chunk : List Entry} {v : ℤ → UInt8} {a b : ℤ} {ext : VolumeExtent}

/-- The chunks of an extent are written one behind the other. -/
lemma writeChunks_ok (hdesc : Describes R frames es v) (hsub : ∀ e ∈ chunk, e ∈ es)
    (hend : ∀ e ∈ chunk, entryEnd e = (span e).stop) (hab : a ≤ b)
    (hmeets : ∀ e ∈ chunk, (span e).Meets a b) (hfile : 0 ≤ ext.fileOffset) {k i n : ℕ}
    {before out : Bytes} {w : ℕ} {written : Bytes} (hw : written.length = w)
    (h : writeChunks R frames writeFails k ext a b i chunk w
      (overwrite 0 before ext.fileOffset.toNat written) = (.ok n, out)) :
    n = w + (gather v a b (chunk.map span)).length ∧
      out = overwrite 0 before ext.fileOffset.toNat (written ++ gather v a b (chunk.map span)) := by
  induction chunk generalizing i w written with
  | nil =>
    cases h
    simp [gather]
  | cons e chunk ih =>
    unfold writeChunks at h
    cases hchunk : verifiedChunk R (frames (k, i)) e with
    | error msg =>
      rw [hchunk] at h
      cases h
    | ok data =>
      have hdata := hdesc e (hsub e (.head _)) (k, i) data hchunk
      have hslice := sliceOf_eq (hend e (.head _)) hab (hmeets e (.head _)) v
      rw [← hdata] at hslice
      have hoff : (ext.fileOffset + (w : ℤ)).toNat = ext.fileOffset.toNat + written.length := by
        omega
      rw [hchunk] at h
      simp only [hslice] at h
      rw [if_neg (by omega), hoff, overwrite_overwrite] at h
      split at h
      · cases h
      · obtain ⟨hn, hout⟩ := ih (fun e' he' => hsub e' (.tail _ he'))
          (fun e' he' => hend e' (.tail _ he'))
          (fun e' he' => hmeets e' (.tail _ he'))
          (by rw [List.length_append, hw]) h
        rw [List.map_cons, gather_cons, List.length_append]
        exact ⟨by omega, by rw [hout, List.append_assoc]⟩

/-- A covered extent is written whole. -/
lemma writeChunks_covered (hea : ea.Serves es) (hes : Sorted es) (hdesc : Describes R frames es v)
    (hfile : 0 ≤ ext.fileOffset) (hlen : 0 ≤ ext.length) (hvol : IsInt64 ext.volumeOffset)
    (hcov : ∀ x, ext.volumeOffset ≤ x → x < ext.volumeOffset + ext.length → Covered es x)
    (hbetween : entriesBetween "extent" ea ext.volumeOffset
      (wrapInt64 (ext.volumeOffset + ext.length)) = .ok chunk) {k n : ℕ} {before out : Bytes}
    (h : writeChunks R frames writeFails k ext ext.volumeOffset
      (wrapInt64 (ext.volumeOffset + ext.length)) 0 chunk 0 before = (.ok n, out)) :
    (n : ℤ) = ext.length ∧
      out = overwrite 0 before (extentPiece v ext).1 (extentPiece v ext).2 := by
  -- what is covered ends at an `int64`
  have hwrap : wrapInt64 (ext.volumeOffset + ext.length) = ext.volumeOffset + ext.length := by
    refine wrapInt64_eq ⟨by have := hvol.1; omega, ?_⟩
    rcases hlen.lt_or_eq with hpos | hzero
    · obtain ⟨e, he, hcovers⟩ := hcov (ext.volumeOffset + ext.length - 1) (by omega) (by omega)
      have := hes.upper e he
      have := hcovers.2
      omega
    · have := hvol.2
      omega
  rw [hwrap] at hbetween h
  obtain ⟨hsub, hmeets, hall⟩ := entriesBetween_ok hea hes hbetween
  have hab : ext.volumeOffset ≤ ext.volumeOffset + ext.length := by omega
  have hfrom := hes.from hsub hab hmeets
  have hnil : overwrite 0 before ext.fileOffset.toNat [] = before := if_pos rfl
  obtain ⟨hn, hout⟩ := writeChunks_ok hdesc (fun e he => hsub.subset he)
    (fun e he => entryEnd_eq hes (hsub.subset he)) hab hmeets hfile List.length_nil h
  have hgather : ((gather v ext.volumeOffset (ext.volumeOffset + ext.length)
      (chunk.map span)).length : ℤ) = ext.volumeOffset + ext.length - ext.volumeOffset :=
    (length_gather_eq_iff hfrom).2 ((covered_iff hsub hall).2 hcov)
  refine ⟨by omega, ?_⟩
  rw [hout, List.nil_append, gather_eq_slice hfrom hgather, extentPiece]
  congr 2
  omega

/-- Covered extents are all written, each at its place. -/
lemma writeExtents_covered (hea : ea.Serves es) (hes : Sorted es) (hdesc : Describes R frames es v)
    {exts : List VolumeExtent} (hfile : ∀ ext ∈ exts, 0 ≤ ext.fileOffset)
    (hlen : ∀ ext ∈ exts, 0 ≤ ext.length) (hvol : ∀ ext ∈ exts, IsInt64 ext.volumeOffset)
    (hcov : ∀ ext ∈ exts, ∀ x, ext.volumeOffset ≤ x → x < ext.volumeOffset + ext.length →
      Covered es x) {k total n : ℕ} {before out : Bytes}
    (h : writeExtents R frames writeFails ea k exts total before = (.ok n, out)) :
    (n : ℤ) = total + (exts.map VolumeExtent.length).sum ∧
      out = patch 0 before (exts.map (extentPiece v)) := by
  induction exts generalizing k total before with
  | nil =>
    cases h
    simp [patch]
  | cons ext exts ih =>
    unfold writeExtents at h
    simp only at h
    cases hbetween : entriesBetween "extent" ea ext.volumeOffset
        (wrapInt64 (ext.volumeOffset + ext.length)) with
    | error msg =>
      rw [hbetween] at h
      cases h
    | ok chunk =>
      rw [hbetween] at h
      simp only at h
      split at h
      · cases h
      · rename_i w out' hwrite
        obtain ⟨hw, hout'⟩ := writeChunks_covered hea hes hdesc (hfile ext (.head _))
          (hlen ext (.head _)) (hvol ext (.head _)) (hcov ext (.head _))
          hbetween hwrite
        obtain ⟨hn, hout⟩ := ih (fun e he => hfile e (.tail _ he))
          (fun e he => hlen e (.tail _ he))
          (fun e he => hvol e (.tail _ he))
          (fun e he => hcov e (.tail _ he)) h
        rw [List.map_cons, List.sum_cons, List.map_cons]
        refine ⟨by push_cast at hn; omega, ?_⟩
        rw [hout, hout']
        rfl

end Extents

section Exact

variable {R : Restorer} {frames : ℕ × ℕ → Option Bytes} {writeFails : ℕ × ℕ → Bool}
  {createFails truncateFails : Bool} {ea : EntryAccessor} {es : List Entry} {v : ℤ → UInt8}
  {f : FileEntry} {existing : Option Bytes} {n : ℤ} {out : Bytes}

/-- What a restore of covered extents leaves: the extents at their places, and the size of the file
unless as many bytes were mapped. -/
lemma restoreVolumeFile_covered (hea : ea.Serves es) (hes : Sorted es)
    (hdesc : Describes R frames es v) (hwithin : ExtentsWithin f)
    (hcov : ∀ ext ∈ f.volumeExtents, ∀ x, ext.volumeOffset ≤ x →
      x < ext.volumeOffset + ext.length → Covered es x)
    (h : restoreVolumeFile R frames writeFails createFails truncateFails f ea existing =
      (.ok n, some out)) :
    out = if f.volumeExtents ≠ [] ∧ 0 < f.size ∧
        (f.volumeExtents.map VolumeExtent.length).sum ≠ f.size then
      resize 0 (patch 0 [] (f.volumeExtents.map (extentPiece v))) f.size.toNat
    else patch 0 [] (f.volumeExtents.map (extentPiece v)) := by
  unfold restoreVolumeFile at h
  split at h
  · cases h
  · split at h
    · rename_i hnil
      cases h
      rw [hnil, if_neg (by simp)]
      rfl
    · rename_i hne
      split at h
      · cases h
      · cases h
      · rename_i total out' hwrite
        obtain ⟨htotal, hout'⟩ := writeExtents_covered hea hes hdesc hwithin.fileOffset
          (fun ext hext => (hwithin.length ext hext).1) hwithin.volumeOffset hcov hwrite
        rw [Nat.cast_zero, zero_add] at htotal
        rw [htotal] at h
        split at h
        · rename_i hsize
          split at h
          · cases h
          · cases h
            rw [if_pos ⟨hne, hsize⟩, hout']
        · rename_i hsize
          cases h
          rw [if_neg fun hcond => hsize hcond.2, hout']

/-- The bytes of an extent. -/
lemma getD_extentPiece {ext : VolumeExtent} {j : ℕ} (hj : (j : ℤ) < ext.length) :
    (extentPiece v ext).2.getD j 0 = v (ext.volumeOffset + j) := by
  have hlt : j < (slice v ext.volumeOffset ext.length.toNat).length := by
    rw [length_slice]
    omega
  rw [extentPiece, List.getD_eq_getElem _ _ hlt, getElem_slice]

lemma covers_extentPiece {ext : VolumeExtent} (hfile : 0 ≤ ext.fileOffset) (hlen : 0 ≤ ext.length)
    {i : ℕ} : Overwrite.Covers (extentPiece v ext) i ↔
      ext.fileOffset ≤ i ∧ (i : ℤ) < ext.fileOffset + ext.length := by
  unfold Overwrite.Covers extentPiece
  simp only [length_slice]
  omega

/-- Extents that agree are in the file they are written to. -/
lemma patch_extents (hwithin : ExtentsWithin f) (hagree : Agree v f.volumeExtents) :
    (∀ ext ∈ f.volumeExtents, ∀ j : ℕ, (j : ℤ) < ext.length →
      (patch 0 [] (f.volumeExtents.map (extentPiece v))).getD (ext.fileOffset.toNat + j) 0 =
        v (ext.volumeOffset + j)) ∧
    ∀ i : ℕ, (∀ ext ∈ f.volumeExtents,
      ¬ (ext.fileOffset ≤ i ∧ (i : ℤ) < ext.fileOffset + ext.length)) →
        (patch 0 [] (f.volumeExtents.map (extentPiece v))).getD i 0 = 0 := by
  constructor
  · intro ext hext j hj
    have hfile := hwithin.fileOffset ext hext
    have hlen := (hwithin.length ext hext).1
    obtain ⟨p, hp, hcov, hval⟩ | ⟨hnone, -⟩ := getD_patch_cases 0 []
      (f.volumeExtents.map (extentPiece v)) (ext.fileOffset.toNat + j)
    · obtain ⟨ext', hext', rfl⟩ := List.mem_map.1 hp
      have hfile' := hwithin.fileOffset ext' hext'
      have hcov' := (covers_extentPiece hfile' (hwithin.length ext' hext').1).1 hcov
      have hbefore : (extentPiece v ext').1 = ext'.fileOffset.toNat := rfl
      rw [hval, getD_extentPiece (by rw [hbefore]; omega)]
      exact (hagree ext hext ext' hext' j _ hj (by rw [hbefore]; omega)
        (by rw [hbefore]; omega)).symm
    · refine absurd ?_ (hnone _ (List.mem_map_of_mem hext))
      exact (covers_extentPiece hfile hlen).2 (by omega)
  · intro i houtside
    obtain ⟨p, hp, hcov, -⟩ | ⟨-, hval⟩ := getD_patch_cases 0 []
      (f.volumeExtents.map (extentPiece v)) i
    · obtain ⟨ext, hext, rfl⟩ := List.mem_map.1 hp
      exact absurd ((covers_extentPiece (hwithin.fileOffset ext hext)
        (hwithin.length ext hext).1).1 hcov) (houtside ext hext)
    · rw [hval]
      rfl

/-- The extents end at the size of the file if one of them reaches it. -/
lemma length_patch_extents (hwithin : ExtentsWithin f) (hsize : 0 ≤ f.size) :
    ((patch 0 [] (f.volumeExtents.map (extentPiece v))).length : ℤ) = f.size ↔
      f.size = 0 ∨ ∃ ext ∈ f.volumeExtents, 0 < ext.length ∧ ext.fileOffset + ext.length =
        f.size := by
  obtain ⟨hend, hle⟩ := length_patch_nil 0 (f.volumeExtents.map (extentPiece v))
  have hpiece : ∀ ext ∈ f.volumeExtents, (extentPiece v ext).1 + (extentPiece v ext).2.length =
      (ext.fileOffset + ext.length).toNat := by
    intro ext hext
    have := hwithin.fileOffset ext hext
    have := (hwithin.length ext hext).1
    unfold extentPiece
    simp only [length_slice]
    omega
  have hempty : ∀ ext : VolumeExtent, (extentPiece v ext).2 ≠ [] ↔ 0 < ext.length := by
    intro ext
    rw [← List.length_pos_iff, extentPiece, length_slice]
    omega
  -- no extent goes beyond the size
  have hbound : ((patch 0 [] (f.volumeExtents.map (extentPiece v))).length : ℤ) ≤ f.size := by
    obtain hnil | ⟨p, hp, -, hlen⟩ := hend
    · rw [hnil]
      exact hsize
    · obtain ⟨ext, hext, rfl⟩ := List.mem_map.1 hp
      rw [hpiece ext hext] at hlen
      have := hwithin.fileEnd ext hext
      omega
  constructor
  · intro heq
    obtain hnil | ⟨p, hp, hne, hlen⟩ := hend
    · rw [hnil] at heq
      exact .inl heq.symm
    · obtain ⟨ext, hext, rfl⟩ := List.mem_map.1 hp
      rw [hpiece ext hext] at hlen
      have := hwithin.fileOffset ext hext
      have := (hwithin.length ext hext).1
      exact .inr ⟨ext, hext, (hempty ext).1 hne, by omega⟩
  · rintro (hzero | ⟨ext, hext, hpos, hreach⟩)
    · omega
    · have := hle _ (List.mem_map_of_mem hext) ((hempty ext).2 hpos)
      rw [hpiece ext hext] at this
      omega

/-- A volume that differs where no entry covers it is described as well. -/
lemma Describes.update (hdesc : Describes R frames es v) {x : ℤ} (hx : ¬ Covered es x) (b : UInt8) :
    Describes R frames es (Function.update v x b) := by
  intro e he i data hdata
  rw [hdesc e he i data hdata]
  refine List.map_congr_left fun j hj => ?_
  rw [Function.update_of_ne]
  rintro rfl
  refine hx ⟨e, he, ?_, ?_⟩
  · change e.volumeOffset ≤ _
    omega
  · change _ < e.volumeOffset + (e.chunkLength : ℤ)
    have := List.mem_range.1 hj
    omega

/-- **When a restored file is the one of the volume.** For a restore that succeeded, the file is
that of every volume the entries can be of, exactly if the extents map all that they should.

**Proof sketch.** A byte that no entry covers may have any value in the volume. If all is covered,
the file has the bytes of the volume if the extents agree, and its size if it was changed to it or
if an extent ends there. -/
theorem restoreVolumeFile_exact_iff (hea : ea.Serves es) (hes : Sorted es)
    (hdesc : Describes R frames es v) (hwithin : ExtentsWithin f)
    (h : restoreVolumeFile R frames writeFails createFails truncateFails f ea existing =
      (.ok n, some out)) :
    (∀ v', Describes R frames es v' → VolumeExact v' f out) ↔ Mapped R frames es f := by
  constructor
  · intro hexact
    have hv := hexact v hdesc
    have hcov : ∀ ext ∈ f.volumeExtents, ∀ x, ext.volumeOffset ≤ x →
        x < ext.volumeOffset + ext.length → Covered es x := by
      intro ext hext x hx hxlt
      by_contra hgap
      have hj : ((x - ext.volumeOffset).toNat : ℤ) < ext.length := by omega
      have hat : ext.volumeOffset + ((x - ext.volumeOffset).toNat : ℤ) = x := by omega
      have h1 := hv.inside ext hext _ hj
      have h2 := (hexact _ (hdesc.update hgap (v x + 1))).inside ext hext _ hj
      rw [hat] at h1 h2
      rw [Function.update_self, h1] at h2
      exact absurd h2 (by simp)
    have hout := restoreVolumeFile_covered hea hes hdesc hwithin hcov h
    have hsize : 0 ≤ f.size := by rw [← hv.size]; exact Int.natCast_nonneg _
    refine ⟨hcov, fun v' hdesc' ext hext ext' hext' j j' hj hj' heq => ?_, fun hnil => ?_,
      fun hsum => ?_⟩
    · have hv' := hexact v' hdesc'
      have hfile := hwithin.fileOffset ext hext
      have hfile' := hwithin.fileOffset ext' hext'
      have hplace : ext.fileOffset.toNat + j = ext'.fileOffset.toNat + j' := by omega
      rw [← hv'.inside ext hext j hj, ← hv'.inside ext' hext' j' hj', hplace]
    · rw [hnil, if_neg (by simp)] at hout
      rw [← hv.size, hout]
      rfl
    · rw [if_neg (by simp [hsum])] at hout
      refine (length_patch_extents (v := v) hwithin hsize).1 ?_
      rw [← hout, hv.size]
  · intro hmap v' hdesc'
    have hout := restoreVolumeFile_covered hea hes hdesc' hwithin hmap.covered h
    obtain ⟨hinside, houtside⟩ := patch_extents hwithin (hmap.agree v' hdesc')
    by_cases hresize : f.volumeExtents ≠ [] ∧ 0 < f.size ∧
        (f.volumeExtents.map VolumeExtent.length).sum ≠ f.size
    · rw [if_pos hresize] at hout
      refine ⟨?_, fun ext hext j hj => ?_, fun i hi hnone => ?_⟩
      · rw [hout, length_resize]
        omega
      · have := hwithin.fileEnd ext hext
        have := hwithin.fileOffset ext hext
        rw [hout, getD_resize _ _ (by omega), hinside ext hext j hj]
      · rw [hout, getD_resize _ _ (by omega), houtside i hnone]
    · rw [if_neg hresize] at hout
      have hsize : (out.length : ℤ) = f.size := by
        rw [hout]
        by_cases hnil : f.volumeExtents = []
        · rw [hnil, hmap.empty hnil]
          rfl
        · have hnonneg : 0 ≤ f.size := by
            obtain ⟨ext, hext⟩ := List.exists_mem_of_ne_nil _ hnil
            have := hwithin.fileEnd ext hext
            have := hwithin.fileOffset ext hext
            have := (hwithin.length ext hext).1
            omega
          refine (length_patch_extents hwithin hnonneg).2 ?_
          rcases hnonneg.lt_or_eq with hpos | hzero
          · exact hmap.reaches (by_contra fun hsum => hresize ⟨hnil, hpos, hsum⟩)
          · exact .inl hzero.symm
      exact ⟨hsize, fun ext hext j hj => by rw [hout, hinside ext hext j hj],
        fun i _ hnone => by rw [hout, houtside i hnone]⟩

end Exact

/-- A file of the given size with the given extents. -/
def extentFile (extents : List VolumeExtent) (size : ℤ) : FileEntry :=
  { rangeFile 0 0 with size := size, volumeExtents := extents }

/-- Two extents in the wrong order, one over the boundary of two chunks, and two holes. -/
theorem restoreVolumeFile_exact_iff_holes :
    ∃ out, restoreVolumeFile twoChunkRestorer (fun _ => none) (fun _ => false) false false
        (extentFile [⟨4, 5, 3⟩, ⟨0, 11, 2⟩] 8) (sliceEntryAccessor gapped) none =
        (.ok 5, some out) ∧
      VolumeExact gappedStream (extentFile [⟨4, 5, 3⟩, ⟨0, 11, 2⟩] 8) out := by
  have hrun : restoreVolumeFile twoChunkRestorer (fun _ => none) (fun _ => false) false false
      (extentFile [⟨4, 5, 3⟩, ⟨0, 11, 2⟩] 8) (sliceEntryAccessor gapped) none =
        (.ok 5, some [1, 2, 0, 0, 2, 3, 4, 0]) := by decide +kernel
  refine ⟨_, hrun, (restoreVolumeFile_exact_iff (serves_slice gapped) gapped_sorted gapped_describes
    ⟨by decide, by decide, by decide, by decide⟩ hrun).2 ⟨?_, fun v hv => ?_, by decide, by decide⟩
      gappedStream gapped_describes⟩
  · intro ext hext x hx hxlt
    simp only [extentFile, List.mem_cons, List.not_mem_nil, or_false] at hext
    rw [covered_gapped]
    rcases hext with rfl | rfl
    · simp only at hx hxlt
      omega
    · simp only at hx hxlt
      omega
  · intro ext hext ext' hext' j j' hj hj' heq
    simp only [extentFile, List.mem_cons, List.not_mem_nil, or_false] at hext hext'
    rcases hext with rfl | rfl <;> rcases hext' with rfl | rfl <;> simp only at hj hj' heq ⊢
    · rw [Int.add_left_cancel heq]
    · omega
    · omega
    · rw [Int.add_left_cancel heq]

/-- An extent that reaches one byte into a gap: the restore succeeds, and the last byte is a zero.
-/
theorem restoreVolumeFile_gap :
    restoreVolumeFile twoChunkRestorer (fun _ => none) (fun _ => false) false false
        (extentFile [⟨0, 4, 6⟩] 6) (sliceEntryAccessor gapped) none =
          (.ok 5, some [1, 2, 3, 4, 5, 0]) ∧
      Sorted gapped ∧ ExtentsWithin (extentFile [⟨0, 4, 6⟩] 6) ∧
      Describes twoChunkRestorer (fun _ : ℕ × ℕ => none) gapped gappedStream ∧
      ¬ VolumeExact gappedStream (extentFile [⟨0, 4, 6⟩] 6) [1, 2, 3, 4, 5, 0] := by
  refine ⟨by decide +kernel, gapped_sorted, ⟨by decide, by decide, by decide, by decide⟩,
    gapped_describes, fun hexact => ?_⟩
  have := hexact.inside ⟨0, 4, 6⟩ (List.mem_singleton_self _) 5 (by decide)
  exact absurd this (by decide)

end DiskNexus.Restore
