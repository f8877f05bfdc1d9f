import DiskNexus.Index.Opening
import DiskNexus.Index.Rebuild
import DiskNexus.Store.Acknowledged

/-!
# A rebuild that fails

`Rebuild` removes the old hash index before it knows that the packs can be read. When it fails, what
is left of the index are the frames it had streamed by then, or nothing after a pack whose name does
not parse.

## Main results

`rebuild_error_iff`, `rebuild_error_lost`
-/

namespace DiskNexus.Index

open Binary Sha256 Files Store

/-- What a failed rebuild cannot lose: it fails before it changes a file, or the hash is in a
pending delta, or in a frame that was streamed before the failure. -/
def Kept (inp : RebuildInput) (d : RepoDir) (h : Hash) : Prop :=
  (∃ e, inp.prepare = .error e) ∨ (∃ e, PendingEntry d e ∧ e.strongHash = h) ∨
    ∃ prep message, inp.prepare = .ok prep ∧
      (seen inp.codec prep.packs prep.ctx).1 = .closed message ∧
      ∃ f ∈ (seen inp.codec prep.packs prep.ctx).2,
        inp.hasher.strong (prep.normalizer f.raw) = h

/-- No streamed chunk has the zero hash, which the hash table takes for an empty slot. -/
def NonzeroHashes (inp : RebuildInput) : Prop :=
  ∀ prep, inp.prepare = .ok prep → ∀ f ∈ (seen inp.codec prep.packs prep.ctx).2,
    inp.hasher.strong (prep.normalizer f.raw) ≠ .zero

/-- The walk of a rebuild. -/
lemma rebuildPacks_scanned {inp : RebuildInput} {prep : Prepared} {x : HashIndex}
    (hne : ∀ f ∈ (seen inp.codec prep.packs prep.ctx).2,
      inp.hasher.strong (prep.normalizer f.raw) ≠ .zero)
    (hx : x.Good) (hmode : x.noHtab = false) (hfile : x.file = [])
    (hcontent : x.content = fun _ => none) :
    ∃ s, rebuildPacks inp.codec (rebuildFrame inp.hasher prep.normalizer inp.flushEvery)
        prep.packs prep.ctx ⟨prep.bloom, some x, 0⟩ =
          ((seen inp.codec prep.packs prep.ctx).1, s) ∧
      Scanned inp.hasher prep.normalizer (seen inp.codec prep.packs prep.ctx).2 s :=
  rebuildPacks_sim (fun _ _ _ hs hf => rebuildFrame_scanned hs hf) hne
    ⟨x, rfl, hx, hmode, hfile, hcontent⟩

/-- What a failed rebuild leaves: the directory it found, but for the index file perhaps. -/
lemma rebuild_error_dir {inp : RebuildInput} (hidx : inp.rebuildHashIndex = true)
    (hne : NonzeroHashes inp) {d : RepoDir} {message : String}
    (herr : (rebuild inp d).1 = .error message) :
    ((∃ e, inp.prepare = .error e) ∧ (rebuild inp d).2 = d) ∨
      ∃ prep file, inp.prepare = .ok prep ∧
        (rebuild inp d).2.lookup .hashIndex = some file ∧ IndexFile file ∧
        (∀ f, ¬ f.Working → f ≠ .hashIndex → (rebuild inp d).2.lookup f = d.lookup f) ∧
        ∀ h, (fileMap file h).isSome ↔
          ∃ message, (seen inp.codec prep.packs prep.ctx).1 = .closed message ∧
            ∃ f ∈ (seen inp.codec prep.packs prep.ctx).2,
              inp.hasher.strong (prep.normalizer f.raw) = h := by
  cases hprep : inp.prepare with
  | error e => exact .inl ⟨⟨e, rfl⟩, by simp [rebuild, hprep]⟩
  | ok prep =>
    right
    obtain ⟨x, d1, hfresh, hgood, hmode, hfile, hcontent, hd1, hsame⟩ := freshIndex_ok hidx d
    obtain ⟨s, hwalk, hscanned⟩ := rebuildPacks_scanned (hne prep hprep) hgood hmode hfile hcontent
    obtain ⟨y, hy, hygood, -, hyfile, hycontent⟩ := hscanned.index
    obtain ⟨hclose, ⟨file, hlookup, hindexFile, hmap⟩, hother⟩ :=
      HashIndex.close_ok hygood (hyfile.symm ▸ hd1)
    have hempty : IndexFile [] :=
      ⟨by simp [decodeEntries, decodeN], by simp [decodeEntries, decodeN]⟩
    cases hout : (seen inp.codec prep.packs prep.ctx).1 with
    | abandoned e =>
      have hdir : (rebuild inp d).2 = d1 := by
        simp only [rebuild, hprep, hfresh, hwalk, hout]
      rw [hdir]
      refine ⟨prep, [], rfl, hd1, hempty, hsame, fun h => ?_⟩
      simp [hout, fileMap, decodeEntries, decodeN]
    | closed e =>
      have hdir : (rebuild inp d).2 = (y.close d1).2 := by
        simp only [rebuild, hprep, hfresh, hwalk, hout, hy]
      rw [hdir]
      refine ⟨prep, file, rfl, hlookup, hindexFile, fun f hf hne => ?_, fun h => ?_⟩
      · rw [hother f hf hne, hsame f hf hne]
      · rw [hmap, hycontent, isSome_overlay, List.map_map]
        simp [hout, Frame.entry]
    | done =>
      -- the walk completed, and nothing fails behind it
      obtain ⟨d2, -, hsave, -⟩ := @saveIndex_ok inp y hygood (saveBloom inp s.bloom d1)
        (by rw [lookup_saveBloom, hd1, hyfile])
      simp [rebuild, hprep, hfresh, hwalk, hout, hy, hsave] at herr

/-- **A failed rebuild** leaves an index that opens and resolves every hash it resolved before,
exactly if each of them is kept: in a pending delta, or by a frame that was streamed before the
failure, or because nothing had been changed yet. -/
theorem rebuild_error_iff {inp : RebuildInput} (hidx : inp.rebuildHashIndex = true)
    (hne : NonzeroHashes inp) {d : RepoDir} (hd : Openable d) {message : String}
    (herr : (rebuild inp d).1 = .error message) (nbits nbits' : UInt64) :
    (∃ y, (newDedupIndex none nbits false (rebuild inp d).2).1 = .ok y ∧
      ∀ y₀, (newDedupIndex none nbits' false d).1 = .ok y₀ →
        ∀ h, (y₀.lookupDirect h).isSome → (y.lookupDirect h).isSome) ↔
      ∀ h, Resolvable d h → Kept inp d h := by
  obtain ⟨y1, hy1, hlookup1⟩ := lookupDirect_keyless hd nbits'
  rcases rebuild_error_dir hidx hne herr with ⟨hprep, hdir⟩ | ⟨prep, file, hprep, hlookup, hfile,
    hsame, hmap⟩
  · -- nothing has been changed
    obtain ⟨y, hy, hlookup⟩ := lookupDirect_keyless hd nbits
    refine ⟨fun _ _ _ => .inl hprep, fun _ => ⟨y, by rw [hdir]; exact hy, ?_⟩⟩
    intro y₀ hy0 h hh
    rw [hy1] at hy0
    cases hy0
    exact (hlookup h).2 ((hlookup1 h).1 hh)
  · obtain ⟨hopen, hpending⟩ := hd.update
      (fun f hf _ hne => hsame f hf.not_working hne)
      (by rw [hsame .bloom (fun h => h) (by simp)]; exact hd.bloom)
      (by rw [hlookup]; exact hfile)
    have hres : ∀ h, Resolvable (rebuild inp d).2 h ↔ Kept inp d h := by
      intro h
      unfold Resolvable Kept
      rw [hlookup, Option.getD_some, hmap]
      simp only [hpending, hprep, reduceCtorEq, exists_false, false_or]
      rw [or_comm]
      refine or_congr_right ⟨fun ⟨m, h⟩ => ⟨prep, m, rfl, h⟩, ?_⟩
      rintro ⟨prep', m, heq, h⟩
      cases heq
      exact ⟨m, h⟩
    obtain ⟨y, hy, hlookup'⟩ := lookupDirect_keyless hopen nbits
    constructor
    · rintro ⟨y', hy', hall⟩ h hh
      rw [hy] at hy'
      cases hy'
      exact (hres h).1 ((hlookup' h).1 (hall y1 hy1 h ((hlookup1 h).2 hh)))
    · intro hkept
      refine ⟨y, hy, fun y₀ hy0 h hh => ?_⟩
      rw [hy1] at hy0
      cases hy0
      exact (hlookup' h).2 ((hres h).2 (hkept h ((hlookup1 h).1 hh)))

/-! ## One chunk, one pack -/

/-- A pack that holds the chunk `[7]`. -/
def onePack : PackFile := ⟨"0000.pack", some 0, true, encodeFrame (Zstd.rawFrame [7]) 1, none⟩

/-- The rebuild of an unencrypted repository of that pack. -/
def onePackRebuild (ctx : Ctx) : RebuildInput where
  repoExists := true
  config := .ok ⟨false, .ok id⟩
  packs := .ok [onePack]
  rebuildBloom := false
  rebuildHashIndex := true
  codec := ChunkStore.plainCodec
  indexKey := none
  nonces := fun _ => []
  deltaFlushEvery := 0
  expectedChunks := 0
  nbits := fun _ => 64
  hasher := .std
  ctx := ctx

lemma onePackRebuild_prepare (ctx : Ctx) :
    (onePackRebuild ctx).prepare = .ok ⟨id, [onePack], ctx, none⟩ := rfl

/-- The index before: the chunk at the start of the pack. -/
def onePackIndex : RepoDir := indexDir [⟨sum256 [7], 0, 0, 1⟩]

lemma onePackIndex_openable : Openable onePackIndex :=
  indexDir_openable (by decide +kernel) (by decide +kernel)

/-- A rebuild cancelled after its first frame keeps that chunk. -/
theorem rebuild_error_iff_kept :
    (rebuild (onePackRebuild (some 2)) onePackIndex).1 =
        .error "streaming pack 0000.pack: context canceled" ∧
      Resolvable onePackIndex (sum256 [7]) ∧
      ∃ y, (newDedupIndex none 64 false
          (rebuild (onePackRebuild (some 2)) onePackIndex).2).1 = .ok y ∧
        ∀ y₀, (newDedupIndex none 64 false onePackIndex).1 = .ok y₀ →
          ∀ h, (y₀.lookupDirect h).isSome → (y.lookupDirect h).isSome := by
  have herr : (rebuild (onePackRebuild (some 2)) onePackIndex).1 =
      .error "streaming pack 0000.pack: context canceled" := by decide +kernel
  have hseen : seen ChunkStore.plainCodec [onePack] (some 2) =
      (.closed "streaming pack 0000.pack: context canceled", [⟨0, 0, 1, [7]⟩]) := by
    decide +kernel
  have hne : NonzeroHashes (onePackRebuild (some 2)) := by
    intro prep hprep f hf
    rw [onePackRebuild_prepare] at hprep
    cases hprep
    rw [show (onePackRebuild (some 2)).codec = ChunkStore.plainCodec from rfl, hseen,
      List.mem_singleton] at hf
    subst hf
    decide +kernel
  have hkept : ∀ h, Resolvable onePackIndex h → Kept (onePackRebuild (some 2)) onePackIndex h := by
    intro h hh
    rw [onePackIndex, resolvable_indexDir, List.map_singleton, List.mem_singleton] at hh
    refine .inr (.inr ⟨_, _, onePackRebuild_prepare _, congrArg Prod.fst hseen,
      ⟨0, 0, 1, [7]⟩, ?_, hh.symm⟩)
    rw [show (onePackRebuild (some 2)).codec = ChunkStore.plainCodec from rfl, hseen]
    exact List.mem_singleton_self _
  refine ⟨herr, ?_, (rebuild_error_iff rfl hne onePackIndex_openable herr 64 64).2 hkept⟩
  rw [onePackIndex, resolvable_indexDir]
  exact List.mem_singleton_self _

/-- **A forgotten chunk.** A rebuild that is cancelled before its first pack leaves an empty index.
-/
theorem rebuild_error_lost :
    (rebuild (onePackRebuild (some 0)) onePackIndex).1 = .error "context canceled" ∧
      (newDedupIndex none 64 false onePackIndex).1.toOption.map
        (fun y => (y.lookupDirect (sum256 [7])).isSome) = some true ∧
      (newDedupIndex none 64 false
        (rebuild (onePackRebuild (some 0)) onePackIndex).2).1.toOption.map
        (fun y => (y.lookupDirect (sum256 [7])).isSome) = some false := by
  decide +kernel

end DiskNexus.Index
