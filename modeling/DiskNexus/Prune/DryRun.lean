import DiskNexus.Prune.ReadIndex

/-!
# A dry run

A dry run of `prune.Run` still scans the index, and the scan writes: it creates a missing
`hash-index.db`, flushes pending deltas into that file, and under a key removes what stands under
the plaintext names, or leaves working copies there when it fails half way.

## Main results

`dryRun_same_iff`, `dryRun_rewrites_index`
-/

namespace DiskNexus.Prune

open Binary Sha256 Files Index Store

/-- A file of the index directory. -/
def Repository.indexFile (r : Repository) (f : FileName) : Option Bytes :=
  r.dirs.index.bind (·.lookup f)

/-- Two repositories with the same manifests, packs, index and bloom files and delta objects. -/
structure SameFiles (r r' : Repository) : Prop where
  manifests : r'.manifests = r.manifests
  chunks : r'.dirs.chunks = r.dirs.chunks
  staging : r'.dirs.staging = r.dirs.staging
  oldChunks : r'.dirs.oldChunks = r.dirs.oldChunks
  oldIndex : r'.dirs.oldIndex = r.dirs.oldIndex
  index : ∀ f, f.Persistent → r'.indexFile f = r.indexFile f

lemma SameFiles.refl (r : Repository) : SameFiles r r := ⟨rfl, rfl, rfl, rfl, rfl, fun _ _ => rfl⟩

/-- A scan without a key that changes no file: it fails before it creates anything, or the index
file is there and the pending deltas, if they read, are in it already. -/
def PlainScanHarmless (d : Dir) : Prop :=
  (d.lookup .hashIndexEnc).isSome ∨ (d.lookup .bloomEnc).isSome ∨
    bloomLoads (d.lookup .bloom) = false ∨
    ∃ file, d.lookup .hashIndex = some file ∧
      ∀ es, pendingDeltas none d = .ok es → mergedFile file es = file

/-- A scan under a key that changes no file: the working copies that it leaves when it fails are
there already; if it loads the bloom filter, no plaintext was there to be removed. -/
def KeyedScanHarmless (k : Cipher) (d : Dir) : Prop :=
  ∀ bloom, workingCopy k d .bloomEnc .bloom = some bloom →
    match workingCopy k d .hashIndexEnc .hashIndex with
    | none => d.lookup .bloom = bloom
    | some file =>
      if bloomLoads bloom then
        d.lookup .bloom = none ∧
          d.lookup .hashIndex =
            if (pendingDeltas (some k) d).toOption.isSome then none else some (file.getD [])
      else d.lookup .bloom = bloom ∧ d.lookup .hashIndex = file

/-- A scan that changes no file. -/
def ScanHarmless (key : Option Cipher) (d : Dir) : Prop :=
  match key with
  | none => PlainScanHarmless d
  | some k => KeyedScanHarmless k d

/-- A dry run that changes no file: it does not get to the index, or the scan is harmless. -/
def Harmless (inp : Input) (r : Repository) : Prop :=
  pruneRecoveryPending r.dirs ∨
    ∀ cfg hs, inp.config = .ok cfg → collectReferencedHashes r.manifests = .ok hs →
      ScanHarmless (cfg.effective.indexKeyFor inp.key) (r.dirs.index.getD ∅)

/-! ## Scans -/

/-- A scan leaves a directory unchanged if it leaves two files so. -/
lemma Leaves.same_iff {d d' : Dir} {s : Scan} (h : Leaves d d' s) :
    (∀ f, f.Persistent → d'.lookup f = d.lookup f) ↔
      d.lookup .bloom = s.bloom ∧ d.lookup .hashIndex = s.hashIndex := by
  constructor
  · intro hsame
    rw [← h.bloom, ← h.hashIndex, hsame .bloom trivial, hsame .hashIndex trivial]
    exact ⟨rfl, rfl⟩
  · rintro ⟨hbloom, hindex⟩ f hf
    by_cases h1 : f = .bloom
    · rw [h1, h.bloom, hbloom]
    · by_cases h2 : f = .hashIndex
      · rw [h2, h.hashIndex, hindex]
      · exact h.rest f hf h1 h2

lemma scanPlain_same_iff (d : Dir) :
    d.lookup .bloom = (scanPlain d).bloom ∧ d.lookup .hashIndex = (scanPlain d).hashIndex ↔
      PlainScanHarmless d := by
  unfold scanPlain PlainScanHarmless
  split
  · rename_i hstop
    refine iff_of_true ⟨rfl, rfl⟩ ?_
    rcases hstop with h | h | h
    · exact .inl h
    · exact .inr (.inl h)
    · exact .inr (.inr (.inl (by simpa using h)))
  · rename_i hgo
    obtain ⟨h1, h2, h3⟩ := not_or.1 hgo |>.imp id not_or.1
    have h3 : bloomLoads (d.lookup .bloom) = true := by simpa using h3
    simp only [h1, h2, h3, Bool.true_eq_false, false_or]
    cases hindex : d.lookup .hashIndex with
    | none => cases pendingDeltas none d <;> simp
    | some file => cases pendingDeltas none d <;> simp [eq_comm]

lemma scanKeyed_same_iff (k : Cipher) (d : Dir) :
    d.lookup .bloom = (scanKeyed k d).bloom ∧ d.lookup .hashIndex = (scanKeyed k d).hashIndex ↔
      KeyedScanHarmless k d := by
  unfold scanKeyed KeyedScanHarmless
  cases workingCopy k d .bloomEnc .bloom with
  | none => simp
  | some bloom =>
    cases workingCopy k d .hashIndexEnc .hashIndex with
    | none => simp
    | some file =>
      cases hloads : bloomLoads bloom with
      | false => simp [hloads]
      | true => cases pendingDeltas (some k) d <;> simp [hloads, Except.toOption]

/-- **A scan is harmless** exactly if it says so. -/
lemma readIndex_same_iff (key : Option Cipher) (nbits : UInt64) (d : Dir) :
    (∀ f, f.Persistent → (readIndex key nbits d).2.lookup f = d.lookup f) ↔
      ScanHarmless key d := by
  rw [(readIndex_eq_scan key nbits d).2.same_iff]
  cases key with
  | none => exact scanPlain_same_iff d
  | some k => exact scanKeyed_same_iff k d

/-! ## Dry runs -/

lemma Repository.indexFile_eq (r : Repository) (f : FileName) :
    r.indexFile f = (r.dirs.index.getD ∅).lookup f := by
  unfold Repository.indexFile
  cases r.dirs.index <;> rfl

/-- A dry run that gets to the index leaves what the scan of it leaves. -/
lemma runRecovered_dry {inp : Input} (hdry : inp.dryRun = true) {r : Repository} {cfg : RepoConfig}
    {hs : List Hash} (hcfg : inp.config = .ok cfg)
    (hcollect : collectReferencedHashes r.manifests = .ok hs) :
    (runRecovered inp r).2 = { r with dirs := { r.dirs with
      index := some (readIndex (cfg.effective.indexKeyFor inp.key)
        (inp.nbits readOpenExpectedChunks) (r.dirs.index.getD ∅)).2 } } := by
  unfold runRecovered
  simp only [hcfg, hcollect]
  rcases readIndex (cfg.effective.indexKeyFor inp.key) (inp.nbits readOpenExpectedChunks)
    (r.dirs.index.getD ∅) with ⟨_ | all, d⟩
  · rfl
  · simp only [runWith, hdry, if_true]

/-- **A dry run changes nothing exactly if it is harmless**, whether it returns a result or an
error.

**Proof sketch.** Only the scan of the index writes, as its specification says
(`readIndex_eq_scan`). -/
theorem dryRun_same_iff (inp : Input) (hdry : inp.dryRun = true) (r : Repository) :
    SameFiles r (run inp r).2 ↔ Harmless inp r := by
  unfold run Harmless
  rw [if_pos hdry]
  by_cases hpending : pruneRecoveryPending r.dirs
  · rw [if_pos hpending]
    exact iff_of_true (.refl r) (.inl hpending)
  rw [if_neg hpending]
  have hstop : (runRecovered inp r).2 = r → (∀ cfg hs, inp.config = .ok cfg →
      collectReferencedHashes r.manifests ≠ .ok hs) → (SameFiles r (runRecovered inp r).2 ↔
      pruneRecoveryPending r.dirs ∨ ∀ cfg hs, inp.config = .ok cfg →
        collectReferencedHashes r.manifests = .ok hs →
          ScanHarmless (cfg.effective.indexKeyFor inp.key) (r.dirs.index.getD ∅)) := by
    intro hsame hno
    rw [hsame]
    exact iff_of_true (.refl r) (.inr fun cfg hs hcfg hcollect =>
      absurd hcollect (hno cfg hs hcfg))
  cases hcfg : inp.config with
  | error e =>
    refine (hstop ?_ ?_).trans (by rw [hcfg])
    · simp only [runRecovered, hcfg]
    · simp [hcfg]
  | ok cfg =>
    cases hcollect : collectReferencedHashes r.manifests with
    | error e =>
      refine (hstop ?_ ?_).trans (by rw [hcfg, hcollect])
      · simp only [runRecovered, hcfg, hcollect]
      · simp [hcollect]
    | ok hs =>
      rw [runRecovered_dry hdry hcfg hcollect]
      have hscan := readIndex_same_iff (cfg.effective.indexKeyFor inp.key)
        (inp.nbits readOpenExpectedChunks) (r.dirs.index.getD ∅)
      constructor
      · intro hsame
        refine .inr ?_
        rintro _ _ ⟨⟩ -
        refine hscan.1 fun f hf => ?_
        rw [← r.indexFile_eq, ← hsame.index f hf]
        rfl
      · rintro (h | h)
        · exact absurd h hpending
        · refine ⟨rfl, rfl, rfl, rfl, rfl, fun f hf => ?_⟩
          rw [r.indexFile_eq, ← hscan.2 (h cfg hs rfl rfl) f hf]
          rfl

/-! ## One pending delta -/

/-- A dry run over an unencrypted repository. -/
def dryInput : Input where
  dryRun := true
  key := none
  extraReferencedHashes := []
  config := .ok ⟨0, false, .none, .ok none⟩
  compress := id
  decompress := some
  weak := fun _ => 0
  nbits := fun _ => 64
  nonces := fun _ => []
  generations := ([1], [2])
  cancelled := fun _ => false
  faults := fun _ => .none
  closeFails := false

/-- No backups. -/
def noManifests : Manifests := ⟨none, [], []⟩

/-- An empty index file, and a delta of one chunk that nobody has folded yet. -/
def pendingIndex : RepoDir :=
  ((∅ : RepoDir).insert FileName.hashIndex []).insert (FileName.delta "a" false)
    (marshalDelta [⟨.fill 7, 1, 0, 0, 5⟩])

/-- A repository with that index. -/
def pendingRepository : Repository where
  dirs := ⟨some ∅, some pendingIndex, none, none, none⟩
  manifests := noManifests

/-- A backup of one chunk. The delta that brought it into the index file is still pending. -/
def mergedRepository : Repository where
  dirs := ⟨some ((∅ : RepoDir).insert (FileName.pack 0) (encodeFrame [1] 1)),
    some (((∅ : RepoDir).insert FileName.hashIndex (encodeEntries [⟨.fill 7, 0, 0, 1⟩])).insert
      (FileName.delta "a" false) (marshalDelta [⟨.fill 7, 1, 0, 0, 1⟩])), none, none, none⟩
  manifests := ⟨none, [("b", ⟨none, some (.ok ⟨[.fill 7], []⟩), none⟩)], []⟩

/-- The dry run counts the chunk, and the delta adds nothing to the index file. -/
theorem dryRun_same_merged :
    (run dryInput mergedRepository).1.toOption.map (fun r => (r.totalChunks, r.orphanedChunks)) =
        some (1, 0) ∧
      SameFiles mergedRepository (run dryInput mergedRepository).2 := by
  refine ⟨by decide +kernel, (dryRun_same_iff dryInput rfl mergedRepository).2 (.inr ?_)⟩
  rintro _ hs ⟨⟩ -
  refine .inr (.inr (.inr ⟨_, rfl, fun es hes => ?_⟩))
  have hpending : (pendingDeltas none (mergedRepository.dirs.index.getD ∅)).toOption =
      some [⟨.fill 7, 1, 0, 0, 1⟩] := by decide +kernel
  rw [hes] at hpending
  cases hpending
  decide +kernel

/-- **A dry run rewrites the index file**: reading all entries flushes a pending delta into it. -/
theorem dryRun_rewrites_index :
    (run dryInput pendingRepository).1.toOption.map (·.totalChunks) = some 1 ∧
      pendingRepository.indexFile .hashIndex = some [] ∧
      (run dryInput pendingRepository).2.indexFile .hashIndex =
        some (encodeEntries [⟨⟨List.replicate 32 7, rfl⟩, 0, 0, 5⟩]) := by
  decide +kernel

end DiskNexus.Prune
