import DiskNexus.Index.RebuildFail
import DiskNexus.Store.History

/-!
# What a rebuild finds

`Rebuild` walks a pack frame by frame from its start, and a payload that is cut short or does not
decode ends the whole rebuild. Packs that are sequences of frames are walked to their end.

## Main results

`rebuild_finds`, `rebuild_torn`
-/

namespace DiskNexus.Index

open Binary Sha256 Files Store Store.ChunkStore

/-! ## Pack files -/

/-- The name of a pack, `%04d.pack`. -/
def packName (n : ℕ) : String :=
  let digits := toString n
  String.ofList (List.replicate (4 - digits.length) '0') ++ digits ++ ".pack"

/-- A pack of the repository as the walk finds it. -/
def packFile (packs : Packs) (n : ℕ) : PackFile :=
  ⟨packName n, if n < 2 ^ 32 then some (UInt32.ofNat n) else none, true, fileOf packs n, none⟩

/-- `listPackFiles`: the packs in ascending numeric order. -/
def packFiles (packs : Packs) : List PackFile :=
  (packs.keys.mergeSort fun a b => a ≤ b).map (packFile packs)

variable {p : PackFile} {n : ℕ} {c : Codec} {fs : List (Bytes × Bytes)} {packs : Packs}
  {stray : ℕ → Bytes} {datas : List Bytes} {frames : ℕ → List (Bytes × Bytes)} {g : Bytes × Bytes}

/-! ## Walking over frames -/

lemma readFull_of_le (hfault : p.fault = none) {offset : ℕ} (h : offset + n ≤ p.data.length) :
    p.readFull offset n = .ok ((p.data.drop offset).take n) := by
  unfold PackFile.readFull
  rw [hfault]
  simp only
  rw [if_pos]
  rw [List.length_take, List.length_drop]
  omega

lemma readFull_of_lt {p : PackFile} (hfault : p.fault = none) {offset n : ℕ}
    (h : p.data.length < offset + n) : p.readFull offset n = .error .eof ∨ n = 0 := by
  by_cases hn : n = 0
  · exact .inr hn
  left
  unfold PackFile.readFull
  rw [hfault]
  simp only [Option.isSome_none, Bool.false_eq_true, if_false]
  rw [if_neg]
  rw [List.length_take, List.length_drop]
  omega

/-- The payload of a frame decodes to its chunk. -/
lemma wellFramed_decode {frame data : Bytes} (h : WellFramed c frame data) :
    c.decode (frame.drop 8) = .ok data := by
  have hreads := h.reads
  have hlen := h.length
  have htake : (frame.drop 8).take (statedLen frame) = frame.drop 8 :=
    List.take_of_length_le (by rw [List.length_drop]; omega)
  unfold retrieveFromFrame at hreads
  rw [if_neg (by omega), if_neg (by omega), htake] at hreads
  cases hdec : c.decode (frame.drop 8) with
  | ok d => simpa [hdec] using hreads
  | error e => cases e <;> simp [hdec] at hreads

/-- The raw length a frame states. -/
def statedRaw (frame : Bytes) : UInt32 := UInt32.ofNat (ofLE ((frame.take 8).drop 4))

/-- The walk reads a frame where it begins. -/
lemma readFrame_framed (hfault : p.fault = none) {before frame after data : Bytes}
    (hdata : p.data = before ++ (frame ++ after)) (hf : WellFramed c frame data) :
    readFrame c p before.length =
      .frame (statedRaw frame) data (before.length + frame.length) := by
  have hlen := hf.length
  have htotal : p.data.length = before.length + (frame.length + after.length) := by
    rw [hdata, List.length_append, List.length_append]
  have hheader : (p.data.drop before.length).take 8 = frame.take 8 := by
    rw [hdata, List.drop_left, List.take_append_of_le_length (by omega)]
  have hcomp : ofLE ((frame.take 8).take 4) = statedLen frame := by
    rw [List.take_take, statedLen]
    rfl
  have hpayload : (p.data.drop (before.length + 8)).take (statedLen frame) = frame.drop 8 := by
    rw [hdata, ← List.drop_drop, List.drop_left, List.drop_append_of_le_length (by omega),
      List.take_left']
    rw [List.length_drop]
    omega
  unfold readFrame
  rw [readFull_of_le hfault (by omega), hheader]
  simp only [hcomp]
  rw [readFull_of_le hfault (by omega), hpayload]
  simp only [wellFramed_decode hf]
  rw [statedRaw, hlen]

/-- Fewer bytes than a header are the end of a pack. -/
lemma readFrame_stray (hfault : p.fault = none) {before stray : Bytes}
    (hdata : p.data = before ++ stray) (hstray : stray.length < 8) :
    readFrame c p before.length = .done := by
  have htotal : p.data.length = before.length + stray.length := by
    rw [hdata, List.length_append]
  rcases @readFull_of_lt p hfault before.length 8 (by omega) with h | h
  · simp [readFrame, h]
  · cases h

/-- What the walk records of the frames of a pack from an offset on. -/
def records (packNum : UInt32) : ℕ → List (Bytes × Bytes) → List Frame
  | _, [] => []
  | offset, f :: fs =>
    ⟨packNum, offset, statedRaw f.1, f.2⟩ :: records packNum (offset + f.1.length) fs

/-- The walk over a sequence of frames. -/
lemma streamFrames_framed {c : Codec} {p : PackFile} (hfault : p.fault = none) (packNum : UInt32)
    {fs : List (Bytes × Bytes)} (hfs : ∀ f ∈ fs, WellFramed c f.1 f.2) {before stray : Bytes}
    (hdata : p.data = before ++ (fs.flatMap Prod.fst ++ stray)) (hstray : stray.length < 8)
    {fuel : ℕ} (hfuel : fs.length < fuel) (acc : List Frame) :
    streamFrames c record p packNum fuel before.length none acc =
      (.ok (), none, acc ++ records packNum before.length fs) := by
  induction fs generalizing before fuel acc with
  | nil =>
    obtain ⟨fuel, rfl⟩ : ∃ n, fuel = n + 1 := ⟨fuel - 1, by simp at hfuel; omega⟩
    simp only [streamFrames, Ctx.check, readFrame_stray hfault hdata hstray, records,
      List.append_nil]
  | cons f fs ih =>
    obtain ⟨fuel, rfl⟩ : ∃ n, fuel = n + 1 := ⟨fuel - 1, by simp at hfuel; omega⟩
    have hdata' : p.data = before ++ (f.1 ++ (fs.flatMap Prod.fst ++ stray)) := by
      rw [hdata, List.flatMap_cons, List.append_assoc]
    have hdata'' : p.data = before ++ f.1 ++ (fs.flatMap Prod.fst ++ stray) := by
      rw [hdata', List.append_assoc]
    have hnext := ih (fun g hg => hfs g (.tail _ hg)) hdata''
      (by simpa using hfuel) (acc ++ [⟨packNum, before.length, statedRaw f.1, f.2⟩])
    rw [List.length_append] at hnext
    simp only [streamFrames, Ctx.check, readFrame_framed hfault hdata' (hfs f (.head _)),
      record, hnext, records, List.append_assoc, List.singleton_append]

/-- A frame has eight bytes at least. -/
lemma length_le_flatMap (hfs : ∀ f ∈ fs, WellFramed c f.1 f.2) :
    fs.length ≤ (fs.flatMap Prod.fst).length := by
  induction fs with
  | nil => exact le_rfl
  | cons f fs ih =>
    have hf := (hfs f (.head _)).length
    have hrest := ih fun g hg => hfs g (.tail _ hg)
    rw [List.flatMap_cons, List.length_append, List.length_cons]
    omega

/-- The walk over packs that are sequences of frames comes to its end. -/
lemma rebuildPacks_framed (hi : Intact c (fileOf packs) stray datas frames)
    (hstray : ∀ n, (stray n).length < 8) {ns : List ℕ} (hns : ∀ n ∈ ns, n < 2 ^ 32)
    (acc : List Frame) :
    rebuildPacks c record (ns.map (packFile packs)) none acc =
      (.done, acc ++ ns.flatMap fun n => records (UInt32.ofNat n) 0 (frames n)) := by
  induction ns generalizing acc with
  | nil => simp [rebuildPacks]
  | cons n ns ih =>
    have hfuel : (frames n).length < (fileOf packs n).length + 1 := by
      have := length_le_flatMap (hi.framed n)
      rw [hi.file_eq, List.length_append]
      omega
    have hstream : streamPack c record (packFile packs n) (UInt32.ofNat n) none acc =
        (.ok (), none, acc ++ records (UInt32.ofNat n) 0 (frames n)) := by
      have hopens : (packFile packs n).opens = true := rfl
      exact @streamFrames_framed c (packFile packs n) rfl _ (frames n) (hi.framed n) [] (stray n)
        (hi.file_eq n) (hstray n) _ hfuel acc
    have hnum : (packFile packs n).number = some (UInt32.ofNat n) := by
      simp only [packFile]
      rw [if_pos (hns n (.head _))]
    rw [List.map_cons, rebuildPacks]
    simp only [Ctx.check, hnum, hstream]
    rw [ih fun m hm => hns m (.tail _ hm)]
    simp

/-! ## Where the frames lie -/

/-- A recorded frame lies in the pack at its offset. -/
lemma mem_records {packNum : UInt32} {offset : ℕ} {f : Frame} (hf : f ∈ records packNum offset fs) :
    f.packNum = packNum ∧ ∃ fs1 g fs2, fs = fs1 ++ g :: fs2 ∧
      f.offset = offset + (fs1.flatMap Prod.fst).length ∧ f.raw = g.2 := by
  induction fs generalizing offset with
  | nil => cases hf
  | cons g fs ih =>
    rcases List.mem_cons.1 hf with rfl | hf
    · exact ⟨rfl, [], g, fs, rfl, by simp, rfl⟩
    · obtain ⟨hnum, fs1, g', fs2, rfl, hoff, hraw⟩ := ih hf
      refine ⟨hnum, g :: fs1, g', fs2, rfl, ?_, hraw⟩
      rw [hoff, List.flatMap_cons, List.length_append]
      omega

/-- Every frame is recorded. -/
lemma exists_mem_records (packNum : UInt32) (offset : ℕ) (hg : g ∈ fs) :
    ∃ f ∈ records packNum offset fs, f.raw = g.2 := by
  induction fs generalizing offset with
  | nil => cases hg
  | cons a fs ih =>
    rcases List.mem_cons.1 hg with rfl | hg
    · exact ⟨_, List.mem_cons_self, rfl⟩
    · obtain ⟨f, hf, hraw⟩ := ih (offset + a.1.length) hg
      exact ⟨f, .tail _ hf, hraw⟩

/-- A pack with a frame in it exists. -/
lemma mem_packs_of_frames (hi : Intact c (fileOf packs) stray datas frames) (hg : g ∈ frames n) :
    n ∈ packs := by
  rw [← AList.lookup_isSome]
  by_contra hnone
  have hempty : fileOf packs n = [] := by
    rw [fileOf, Option.not_isSome_iff_eq_none.1 hnone]
    rfl
  have hlen := (hi.framed n g hg).length
  obtain ⟨fs1, fs2, hsplit⟩ := List.append_of_mem hg
  have hfile := hi.file_eq n
  rw [hempty, hsplit, List.flatMap_append, List.flatMap_cons] at hfile
  have hlength := congrArg List.length hfile
  simp only [List.length_nil, List.length_append] at hlength
  omega

/-- The chunk of a frame can be retrieved from where the frame lies. -/
lemma retrieve_framed (hi : Intact c (fileOf packs) stray datas frames)
    {fs1 fs2 : List (Bytes × Bytes)} (hsplit : frames n = fs1 ++ g :: fs2) (maxPackSize : ℤ) :
    (newChunkStore packs c maxPackSize).retrieve n (fs1.flatMap Prod.fst).length = .ok g.2 := by
  have hg : g ∈ frames n := by rw [hsplit]; simp
  have hframed := hi.framed n g hg
  obtain ⟨file, hlookup⟩ := Option.isSome_iff_exists.1
    (AList.lookup_isSome.2 (mem_packs_of_frames hi hg))
  have hat : FrameAt packs n (fs1.flatMap Prod.fst).length g.1 := by
    refine ⟨fs1.flatMap Prod.fst, fs2.flatMap Prod.fst ++ stray n, ?_, rfl⟩
    have hfile : file = fileOf packs n := by rw [fileOf, hlookup]; rfl
    rw [hlookup, hfile, hi.file_eq, hsplit, List.flatMap_append, List.flatMap_cons]
    simp
  exact @retrieve_of_frameAt (newChunkStore packs c maxPackSize) _ _ _ _ hat hframed.reads
    hframed.bound

/-! ## The pre-scan -/

lemma countFrames_ok {p : PackFile} (hfault : p.fault = none) (fuel offset : ℕ) :
    ∃ n, countFrames p fuel offset = .ok n := by
  induction fuel generalizing offset with
  | zero => exact ⟨0, rfl⟩
  | succ fuel ih =>
    unfold countFrames
    by_cases h : offset + 8 ≤ p.data.length
    · rw [readFull_of_le hfault h]
      obtain ⟨n, hn⟩ := ih (offset + (8 + ofLE (((p.data.drop offset).take 8).take 4)))
      exact ⟨n + 1, by simp only [hn]⟩
    · rcases @readFull_of_lt p hfault offset 8 (by omega) with h | h
      · exact ⟨0, by rw [h]⟩
      · cases h

lemma countPackChunks_ok (packs : Packs) (ns : List ℕ) :
    ∃ n, countPackChunks (ns.map (packFile packs)) none = (.ok n, none) := by
  induction ns with
  | nil => exact ⟨0, rfl⟩
  | cons m ns ih =>
    obtain ⟨n, hn⟩ := ih
    obtain ⟨k, hk⟩ := @countFrames_ok (packFile packs m) rfl ((packFile packs m).data.length + 1) 0
    have hopens : (packFile packs m).opens = true := rfl
    refine ⟨k + n, ?_⟩
    rw [List.map_cons, countPackChunks]
    simp only [Ctx.check, hopens, if_true, hk, hn]

/-! ## The rebuild -/

/-- A rebuild of a readable repository that is not cancelled. -/
structure Uninterrupted (inp : RebuildInput) (codec : Codec) (packs : Packs)
    (normalizer : Bytes → Bytes) : Prop where
  repoExists : inp.repoExists = true
  config : inp.config = .ok ⟨false, .ok normalizer⟩
  packs : inp.packs = .ok (packFiles packs)
  rebuildHashIndex : inp.rebuildHashIndex = true
  codec : inp.codec = codec
  ctx : inp.ctx = none
  key : ∀ k, inp.indexKey = some k → ∀ nonce data,
    k.decryptWithAAD (k.encryptWithAAD nonce data) = some data

/-- The checks and the pre-scan succeed, unless there is no pack. -/
lemma Uninterrupted.prepare {inp : RebuildInput} {codec : Codec} {normalizer : Bytes → Bytes}
    (h : Uninterrupted inp codec packs normalizer) (hn : n ∈ packs) :
    ∃ bloom, inp.prepare = .ok ⟨normalizer, packFiles packs, none, bloom⟩ := by
  have hne : packFiles packs ≠ [] := by
    intro hnil
    rw [packFiles, List.map_eq_nil_iff] at hnil
    have hmem : n ∈ packs.keys.mergeSort fun a b => a ≤ b :=
      (List.mergeSort_perm _ _).mem_iff.2 (AList.mem_keys.1 hn)
    rw [hnil] at hmem
    cases hmem
  obtain ⟨total, htotal⟩ : ∃ total, inp.totalChunks (packFiles packs) = (.ok total, none) := by
    unfold RebuildInput.totalChunks
    rw [h.ctx]
    split
    · obtain ⟨k, hk⟩ := countPackChunks_ok packs (packs.keys.mergeSort fun a b => a ≤ b)
      exact ⟨k, by rw [packFiles, hk]⟩
    · exact ⟨_, rfl⟩
  unfold RebuildInput.prepare
  rw [h.repoExists, h.config, h.packs]
  obtain ⟨p, ps, hps⟩ := List.exists_cons_of_ne_nil hne
  simp only [Bool.not_true, Bool.false_eq_true, if_false, htotal]
  exact ⟨_, rfl⟩

/-- The index file a rebuild persists: as it is, or decrypted. -/
def persistedIndex (inp : RebuildInput) (d : RepoDir) : Option Bytes :=
  match inp.indexKey with
  | none => d.lookup .hashIndex
  | some k => (d.lookup .hashIndexEnc).bind k.decryptWithAAD

/-- A rebuild that ends persists an index of the frames it has seen. -/
lemma rebuild_done {inp : RebuildInput} {codec : Codec} {normalizer : Bytes → Bytes}
    (h : Uninterrupted inp codec packs normalizer) (hn : n ∈ packs) {fs : List Frame}
    (hseen : seen codec (packFiles packs) none = (.done, fs))
    (hne : ∀ f ∈ fs, inp.hasher.strong (normalizer f.raw) ≠ .zero) (d : RepoDir) :
    ∃ k d' file, rebuild inp d = (.ok k, d') ∧ persistedIndex inp d' = some file ∧
      IndexFile file ∧
      fileMap file = overlay (fun _ => none) (fs.map (Frame.entry inp.hasher normalizer)) := by
  obtain ⟨bloom, hprep⟩ := h.prepare hn
  obtain ⟨x, d1, hfresh, hgood, hmode, hfile, hcontent, hd1, -⟩ :=
    freshIndex_ok h.rebuildHashIndex d
  have hseen' : seen inp.codec (packFiles packs) none = (.done, fs) := by rw [h.codec, hseen]
  obtain ⟨s, hwalk, hscanned⟩ := @rebuildPacks_scanned inp
    ⟨normalizer, packFiles packs, none, bloom⟩ x (by rw [hseen']; exact hne) hgood hmode hfile
    hcontent
  simp only [hseen'] at hwalk hscanned
  obtain ⟨y, hy, hygood, -, hyfile, hycontent⟩ := hscanned.index
  obtain ⟨d', file, hsave, hindexFile, hmap, hpersist⟩ := @saveIndex_ok inp y hygood
    (saveBloom inp s.bloom d1) (by rw [lookup_saveBloom, hd1, hyfile])
  refine ⟨s.chunksScanned, d', file, ?_, ?_, hindexFile, hmap.trans hycontent⟩
  · simp only [rebuild, hprep, hfresh, hwalk, hy, hsave]
  · unfold persistedIndex
    cases hk : inp.indexKey with
    | none => simpa only [hk] using hpersist
    | some k =>
      rw [hk] at hpersist
      simp only at hpersist ⊢
      rw [hpersist, Option.bind_some]
      exact h.key k hk _ _

/-- **A rebuild after a clean history of sessions**: the hash of every acknowledged chunk resolves,
in the index the rebuild persists, to a place where the chunk is retrieved.

**Proof sketch.** The packs are sequences of the acknowledged frames, so the walk records all of
them. The entry under a hash is that of the last frame with the hash, which is the acknowledged
chunk where no two share a hash. -/
theorem rebuild_finds {codec : Codec} (hc : codec.Lawful) {maxPackSize : ℤ}
    {ws : List WriterSession} (hclean : CleanHistory codec maxPackSize [] ∅ ws)
    {inp : RebuildInput} {normalizer : Bytes → Bytes}
    (hinp : Uninterrupted inp codec (runHistory codec maxPackSize ∅ ws).2 normalizer)
    (hsize : ∀ n, (fileOf (runHistory codec maxPackSize ∅ ws).2 n).length < 2 ^ 63)
    (hne : ∀ a ∈ ackData codec (runHistory codec maxPackSize ∅ ws).1,
      inp.hasher.strong (normalizer a) ≠ .zero)
    (hinj : ∀ a ∈ ackData codec (runHistory codec maxPackSize ∅ ws).1,
      ∀ b ∈ ackData codec (runHistory codec maxPackSize ∅ ws).1,
        inp.hasher.strong (normalizer a) = inp.hasher.strong (normalizer b) → a = b)
    (d : RepoDir) :
    ∀ a ∈ (runHistory codec maxPackSize ∅ ws).1, ∀ data, a.call.ownData codec = .ok data →
      ∃ k d' file x e, rebuild inp d = (.ok k, d') ∧ persistedIndex inp d' = some file ∧
        (newHashIndex (d'.insert .hashIndex file) false).1 = .ok x ∧
        x.lookup (inp.hasher.strong (normalizer data)) = some e ∧
        (newChunkStore (runHistory codec maxPackSize ∅ ws).2 codec maxPackSize).retrieve
          e.packNumber.toNat e.storeOffset.toNat = .ok data := by
  intro a ha data hown
  set packs := (runHistory codec maxPackSize ∅ ws).2 with hpacks
  have hempty : Intact codec (fileOf ∅) noStray [] fun _ => [] :=
    ⟨fun n => rfl, by simp, by simp⟩
  obtain ⟨stray, frames, hi, hstray, hbound⟩ := runHistory_intact hc hclean hempty
    (by simp [noStray]) (by simp)
  rw [List.nil_append, ← hpacks] at hi
  have hdata : data ∈ ackData codec (runHistory codec maxPackSize ∅ ws).1 :=
    List.mem_filterMap.2 ⟨a, ha, by rw [hown]; rfl⟩
  obtain ⟨n, g, hg, hgdata⟩ := (hi.mem_datas data).1 hdata
  have hn := mem_packs_of_frames hi hg
  -- the walk
  set ns := packs.keys.mergeSort fun a b => a ≤ b with hns
  have hmem : ∀ m, m ∈ ns ↔ m ∈ packs := by
    intro m
    rw [hns, (List.mergeSort_perm _ _).mem_iff, AList.mem_keys]
  set fs := ns.flatMap fun n => records (UInt32.ofNat n) 0 (frames n) with hfs
  have hseen : seen codec (packFiles packs) none = (.done, fs) := by
    rw [seen, packFiles, rebuildPacks_framed hi hstray (fun m hm => hbound m ((hmem m).1 hm)),
      List.nil_append]
  have hraw : ∀ f ∈ fs, f.raw ∈ ackData codec (runHistory codec maxPackSize ∅ ws).1 := by
    intro f hf
    obtain ⟨m, -, hf⟩ := List.mem_flatMap.1 hf
    obtain ⟨-, fs1, g', fs2, hsplit, -, hraw⟩ := mem_records hf
    exact (hi.mem_datas _).2 ⟨m, g', by rw [hsplit]; simp, hraw.symm⟩
  obtain ⟨k, d', file, hrebuild, hpersist, hfile, hmap⟩ :=
    rebuild_done hinp hn hseen (fun f hf => hne _ (hraw f hf)) d
  -- the index
  have hfile' : IndexFile (((d'.insert .hashIndex file).lookup .hashIndex).getD []) := by
    rw [AList.lookup_insert]
    exact hfile
  obtain ⟨x, hx, hgood, hcontent, hmode, -⟩ := newHashIndex_ok hfile' false
  have hlookup : x.lookup = overlay (fun _ => none)
      (fs.map (Frame.entry inp.hasher normalizer)) := by
    rw [HashIndex.lookup_eq_content (by rw [hgood.mode, hmode]; rfl), hcontent,
      AList.lookup_insert, Option.getD_some, hmap]
  obtain ⟨f0, hf0, hf0raw⟩ := exists_mem_records (UInt32.ofNat n) 0 hg
  have hsome : (x.lookup (inp.hasher.strong (normalizer data))).isSome := by
    rw [hlookup, isSome_overlay]
    refine .inr (List.mem_map.2 ⟨Frame.entry inp.hasher normalizer f0, ?_, ?_⟩)
    · exact List.mem_map_of_mem (List.mem_flatMap.2 ⟨n, (hmem n).2 hn, hf0⟩)
    · rw [Frame.entry, hf0raw, hgdata]
  obtain ⟨e, he⟩ := Option.isSome_iff_exists.1 hsome
  refine ⟨k, d', file, x, e, hrebuild, hpersist, hx, he, ?_⟩
  -- the entry is that of some frame with the same hash, hence with the same chunk
  rw [hlookup] at he
  obtain ⟨hemem, hehash⟩ : e ∈ fs.map (Frame.entry inp.hasher normalizer) ∧
      e.strongHash = inp.hasher.strong (normalizer data) := by
    rcases mem_of_overlay he with h | h
    · exact h
    · cases h
  obtain ⟨f, hf, rfl⟩ := List.mem_map.1 hemem
  have hfdata : f.raw = data := hinj _ (hraw f hf) _ hdata hehash
  obtain ⟨m, hm, hfm⟩ := List.mem_flatMap.1 hf
  obtain ⟨hnum, fs1, g', fs2, hsplit, hoff, hraw'⟩ := mem_records hfm
  have hm' : m < 2 ^ 32 := hbound m ((hmem m).1 hm)
  have hlen : (fs1.flatMap Prod.fst).length < 2 ^ 64 := by
    have hlt := hsize m
    rw [hi.file_eq, hsplit, List.flatMap_append, List.length_append, List.length_append] at hlt
    omega
  have hretrieve := retrieve_framed hi hsplit maxPackSize
  rw [Nat.zero_add] at hoff
  simp only [Frame.entry]
  rw [hnum, hoff, UInt32.toNat_ofNat_of_lt' hm', UInt64.toNat_ofNat_of_lt' hlen, ← hfdata, hraw']
  exact hretrieve

/-! ## Two sessions -/

/-- The rebuild of a repository without key and normalizer. -/
def plainRebuild (packs : Packs) : RebuildInput :=
  { onePackRebuild none with packs := .ok (packFiles packs) }

lemma plainRebuild_uninterrupted (packs : Packs) :
    Uninterrupted (plainRebuild packs) plainCodec packs id :=
  ⟨rfl, rfl, rfl, rfl, rfl, rfl, by rintro k ⟨⟩⟩

/-- Two sessions that die in the header of their second frame. The second finds the pack full. -/
def cleanSessions : List WriterSession :=
  [⟨[.store none [7] .none, .store none [8] ⟨false, none, some 3, none⟩], 25⟩,
    ⟨[.store none [9] .none, .store none [8] ⟨false, none, some 3, none⟩], 25⟩]

/-- A missing pack is short. -/
lemma length_fileOf_lt {bound : ℕ} (hpos : 0 < bound)
    (h : ∀ n ∈ packs.keys, (fileOf packs n).length < bound) (n : ℕ) :
    (fileOf packs n).length < bound := by
  by_cases hn : n ∈ packs
  · exact h n (AList.mem_keys.1 hn)
  · rw [fileOf, AList.lookup_eq_none.2 hn]
    exact hpos

/-- A rebuild after the two sessions resolves the second chunk. -/
theorem rebuild_finds_cleanSessions :
    ∃ k d' file x e,
      rebuild (plainRebuild (runHistory plainCodec 46 ∅ cleanSessions).2) ∅ = (.ok k, d') ∧
        persistedIndex (plainRebuild (runHistory plainCodec 46 ∅ cleanSessions).2) d' =
          some file ∧
        (newHashIndex (d'.insert .hashIndex file) false).1 = .ok x ∧
        x.lookup (sum256 [9]) = some e ∧
        (newChunkStore (runHistory plainCodec 46 ∅ cleanSessions).2 plainCodec 46).retrieve
          e.packNumber.toNat e.storeOffset.toNat = .ok [9] := by
  have hclean : CleanHistory plainCodec 46 [] ∅ cleanSessions := by decide +kernel
  have hsize : ∀ n, (fileOf (runHistory plainCodec 46 ∅ cleanSessions).2 n).length <
      2 ^ 63 := length_fileOf_lt (by decide) (by decide +kernel)
  have hne : ∀ a ∈ ackData plainCodec (runHistory plainCodec 46 ∅ cleanSessions).1,
      Hasher.std.strong (id a) ≠ .zero := by decide +kernel
  have hinj : ∀ a ∈ ackData plainCodec (runHistory plainCodec 46 ∅ cleanSessions).1,
      ∀ b ∈ ackData plainCodec (runHistory plainCodec 46 ∅ cleanSessions).1,
        Hasher.std.strong (id a) = Hasher.std.strong (id b) → a = b := by decide +kernel
  have hmem : ⟨.store none [9] .none, 1, 0⟩ ∈
      (runHistory plainCodec 46 ∅ cleanSessions).1 := by decide +kernel
  exact rebuild_finds plainCodec_lawful hclean (plainRebuild_uninterrupted _) hsize hne hinj ∅ _
    hmem [9] rfl

/-- Two sessions, with a torn frame of the first. -/
def tornSessions : List WriterSession :=
  [⟨[.store none [7] .none, .store none [8] ⟨false, none, none, some 3⟩], 33⟩,
    ⟨[.store none [9] .none], 55⟩]

/-- **A torn frame hides what follows it**: the chunk `[9]` of the second session. -/
theorem rebuild_torn :
    ⟨.store none [9] .none, 0, 33⟩ ∈ (runHistory plainCodec (2 ^ 27) ∅ tornSessions).1 ∧
      (rebuild (plainRebuild (runHistory plainCodec (2 ^ 27) ∅ tornSessions).2) ∅).1 =
        .error "streaming pack 0000.pack: decompressing frame at offset 22" ∧
      (newDedupIndex none 64 false
        (rebuild (plainRebuild
          (runHistory plainCodec (2 ^ 27) ∅ tornSessions).2) ∅).2).1.toOption.map
          (fun y => (y.lookupDirect (sum256 [9])).isSome) = some false := by
  decide +kernel

end DiskNexus.Index
