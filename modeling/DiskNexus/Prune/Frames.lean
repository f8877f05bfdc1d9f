import DiskNexus.Prune.Preserves

/-!
# The frames that a prune leaves

A pack is a sequence of frames, each of which states its own length. A prune that has something to
drop writes every pack anew. The new packs hold the frames of the entries that outlive it and no
other, whether or not some other part of the repository still counts on one.

## Main results

`rewriteLoop_filled`, `holds_run_iff`
-/

namespace DiskNexus.Prune

open Binary Sha256 Files Index Store

/-! ## The frames of a pack -/

/-- The scan of a pack, up to a frame that is cut short or too long. -/
def scanFrames : ℕ → Bytes → List Bytes
  | 0, _ => []
  | fuel + 1, file =>
    let size := 8 + statedLen file
    if statedLen file ≤ maxChunkFrameLen ∧ size ≤ file.length then
      file.take size :: scanFrames fuel (file.drop size)
    else []

/-- The frames of a pack; a frame has a byte at least, so its length is enough fuel. -/
def packFrames (file : Bytes) : List Bytes := scanFrames file.length file

/-- A frame at the front of a file. -/
lemma scanFrames_append {frame : Bytes} (hbound : statedLen frame ≤ maxChunkFrameLen)
    (hlen : frame.length = 8 + statedLen frame) (fuel : ℕ) (rest : Bytes) :
    scanFrames (fuel + 1) (frame ++ rest) = frame :: scanFrames fuel rest := by
  have hstated : statedLen (frame ++ rest) = statedLen frame := by
    rw [statedLen, statedLen, List.take_append_of_le_length (by omega)]
  rw [scanFrames, hstated, ← hlen, if_pos ⟨hbound, by simp⟩, List.take_left, List.drop_left]

lemma scanFrames_flatMap {c : Codec} {fs : List (Bytes × Bytes)}
    (hfs : ∀ f ∈ fs, WellFramed c f.1 f.2) {fuel : ℕ}
    (hfuel : (fs.flatMap Prod.fst).length ≤ fuel) :
    scanFrames fuel (fs.flatMap Prod.fst) = fs.map Prod.fst := by
  induction fs generalizing fuel with
  | nil => cases fuel <;> simp [scanFrames, maxChunkFrameLen]
  | cons f fs ih =>
    have hf := hfs f (.head _)
    rw [List.flatMap_cons, List.length_append, hf.length] at hfuel
    obtain ⟨fuel, rfl⟩ : ∃ k, fuel = k + 1 := ⟨fuel - 1, by omega⟩
    rw [List.flatMap_cons, List.map_cons, scanFrames_append hf.bound hf.length,
      ih (fun g hg => hfs g (.tail _ hg)) (by omega)]

/-- The frames of a sequence of frames. -/
lemma packFrames_flatMap {c : Codec} {fs : List (Bytes × Bytes)}
    (hfs : ∀ f ∈ fs, WellFramed c f.1 f.2) : packFrames (fs.flatMap Prod.fst) = fs.map Prod.fst :=
  scanFrames_flatMap hfs le_rfl

/-- A frame that one of the packs of a repository holds. -/
def Holds (r : Repo) (frame : Bytes) : Prop :=
  ∃ n, frame ∈ packFrames (fileOf (packsOf (r.chunks.getD ∅)) n)

lemma holds_iff {r : Repo} {frame : Bytes} :
    Holds r frame ↔ ∃ p ∈ (packsOf (r.chunks.getD ∅)).entries, frame ∈ packFrames p.2 := by
  unfold Holds fileOf
  constructor
  · rintro ⟨n, hn⟩
    cases hlookup : (packsOf (r.chunks.getD ∅)).lookup n with
    | none => rw [hlookup] at hn; cases hn
    | some file =>
      rw [hlookup] at hn
      exact ⟨⟨n, file⟩, AList.mem_lookup_iff.1 hlookup, hn⟩
  · rintro ⟨⟨n, file⟩, hmem, hframe⟩
    exact ⟨n, by rw [AList.mem_lookup_iff.2 hmem]; exact hframe⟩

instance (r : Repo) (frame : Bytes) : Decidable (Holds r frame) := decidable_of_iff' _ holds_iff

/-! ## Packs that are filled with frames -/

/-- The packs are sequences of the frames in `held`. -/
def Filled (c : Codec) (file : ℕ → Bytes) (held : List (Bytes × Bytes)) : Prop :=
  ∃ frames, Intact c file noStray (held.map Prod.snd) frames ∧ ∀ f, f ∈ held ↔ ∃ n, f ∈ frames n

lemma Filled.append {c : Codec} {file : ℕ → Bytes} {held : List (Bytes × Bytes)}
    (h : Filled c file held) (n : ℕ) {frame data : Bytes} (hf : WellFramed c frame data) :
    Filled c (Function.update file n (file n ++ frame)) (held ++ [(frame, data)]) := by
  obtain ⟨frames, hintact, hmem⟩ := h
  refine ⟨Function.update frames n (frames n ++ [(frame, data)]), ?_, fun f => ?_⟩
  · rw [List.map_append]
    exact hintact.append rfl hf
  · rw [List.mem_append, List.mem_singleton, hmem]
    constructor
    · rintro (⟨m, hm⟩ | rfl)
      · refine ⟨m, ?_⟩
        rw [Function.update_apply]
        split
        · subst m
          exact List.mem_append_left _ hm
        · exact hm
      · exact ⟨n, by simp⟩
    · rintro ⟨m, hm⟩
      rw [Function.update_apply] at hm
      split at hm
      · exact (List.mem_append.1 hm).imp (fun hm => ⟨n, hm⟩) List.mem_singleton.1
      · exact .inl ⟨m, hm⟩

/-- The scan of filled packs meets what they are filled with. -/
lemma Filled.mem_packFrames {c : Codec} {file : ℕ → Bytes} {held : List (Bytes × Bytes)}
    (h : Filled c file held) (frame : Bytes) :
    (∃ n, frame ∈ packFrames (file n)) ↔ ∃ data, (frame, data) ∈ held := by
  obtain ⟨frames, hintact, hmem⟩ := h
  have hfile : ∀ n, packFrames (file n) = (frames n).map Prod.fst := fun n => by
    rw [hintact.file_eq n, noStray, List.append_nil, packFrames_flatMap (hintact.framed n)]
  simp only [hfile, hmem, List.mem_map, Prod.exists, exists_and_right, exists_eq_right]
  exact exists_comm

/-! ## The copy -/

section Copy

variable {inp : Input} {normalizer : Option (Bytes → Bytes)} {old : ChunkStore}
    {key : Option Cipher}
  {done : List IndexEntry} {i : ℕ} {s s' : Staged}

/-- One chunk adds its frame. -/
lemma Filled.step {e : IndexEntry} (hold : old.codec = inp.codec) (hs : Copying old key done s)
    (hfilled : Filled old.codec (fileOf s.store.packs) (done.filterMap (readFrame old)))
    (h : rewriteChunk inp normalizer old i e s = (.ok (), s')) :
    Filled old.codec (fileOf s'.store.packs) ((done ++ [e]).filterMap (readFrame old)) := by
  have hs' := hs.step hold h
  obtain ⟨frame, data, r, store, weakHash, hraw, hstore, hdecode, rfl⟩ := rewriteChunk_ok h
  have hread : readFrame old e = some (frame, data) := readFrame_of_raw hraw (hold ▸ hdecode)
  obtain ⟨hbound, hlen, hdata⟩ := readFrame_inv hread
  obtain ⟨_, hframe, hview, -⟩ := ChunkStore.call_view hs.settled
    (c := .storeRaw frame (inp.faults i)) hstore
  cases hframe
  rw [ChunkStore.view_of_settled hs'.settled, ChunkStore.view_of_settled hs.settled] at hview
  rw [hview, List.filterMap_append, List.filterMap_cons_some hread, List.filterMap_nil]
  exact hfilled.append r.packNum ⟨hlen, hbound, hdata⟩

/-- **The copy** fills the packs with the frames of its entries. -/
theorem rewriteLoop_filled {es : List IndexEntry} (hold : old.codec = inp.codec)
    (hs : Copying old key done s)
    (hfilled : Filled old.codec (fileOf s.store.packs) (done.filterMap (readFrame old)))
    (h : rewriteLoop inp normalizer old i es s = (.ok (), s')) :
    Filled old.codec (fileOf s'.store.packs) ((done ++ es).filterMap (readFrame old)) := by
  induction es generalizing i s done with
  | nil =>
    cases h
    rwa [List.append_nil]
  | cons e es ih =>
    unfold rewriteLoop at h
    rcases hstep : rewriteChunk inp normalizer old i e s with ⟨_ | _, s1⟩ <;> rw [hstep] at h
    · cases h
    · have := ih (hs.step hold hstep) (hfilled.step hold hs hstep) h
      rwa [List.append_assoc] at this

/-- Empty packs. -/
lemma filled_fresh (c : Codec) (cfg : RepoConfig) (x : DedupIndex) :
    Filled c (fileOf (freshStaged inp cfg x).store.packs) [] :=
  ⟨fun _ => [], ⟨fun _ => rfl, by simp, by simp⟩, by simp⟩

end Copy

/-! ## Runs -/

/-- A frame that a prune leaves: the packs stay, or an entry that outlives the prune has it. -/
def Keeps (inp : Input) (cfg : RepoConfig) (r : Repository) (frame : Bytes) : Prop :=
  ∃ all, indexEntries inp cfg r.dirs = some all ∧
    ((NothingToPrune inp r.manifests all ∧ Holds r.dirs frame) ∨
      (¬ NothingToPrune inp r.manifests all ∧ ∃ e data, Survives inp cfg r e ∧
        readFrame (chunkStore inp cfg r.dirs) e = some (frame, data)))

/-- The packs after a rewrite hold the frames of the entries that outlive it. -/
lemma holds_rewriteAndSwap {inp : Input} {cfg : RepoConfig} {kept : List IndexEntry}
    {result result' : Result} {c : Option Dir} {i : Dir} {m : Manifests} {r' : Repository}
    (h : rewriteAndSwap inp cfg kept result ⟨⟨c, some i, none, none, none⟩, m⟩ = (.ok result', r'))
    (frame : Bytes) :
    Holds r'.dirs frame ↔ ∃ e ∈ kept, ∃ data,
      readFrame (.newChunkStore (packsOf (c.getD ∅)) inp.codec cfg.packFileMaxSize) e =
        some (frame, data) := by
  obtain ⟨x, normalizer, s, hindex, hkey, hloop, hdirs⟩ := rewriteAndSwap_loop h
  have hfilled := rewriteLoop_filled rfl (freshStaged_copying rfl hindex hkey)
    (filled_fresh _ cfg x) hloop
  have hfile : ∀ n, fileOf (packsOf (r'.dirs.chunks.getD ∅)) n = fileOf s.store.packs n :=
    fun n => by
    rw [hdirs, fileOf, Option.getD_some, lookup_packsOf_staged, fileOf]
  unfold Holds
  simp only [hfile]
  rw [hfilled.mem_packFrames]
  simp only [List.nil_append, List.mem_filterMap, List.mem_insertionSort]
  constructor
  · rintro ⟨data, e, he, hread⟩
    exact ⟨e, he, data, hread⟩
  · rintro ⟨e, he, data, hread⟩
    exact ⟨data, e, he, hread⟩

/-- **The frames after a prune** that succeeds: it leaves the packs, or fills new ones. -/
theorem holds_run_iff {inp : Input} {cfg : RepoConfig} {r r' : Repository} {result : Result}
    (hdry : inp.dryRun = false) (hconfig : inp.config = .ok cfg)
    (hrun : run inp r = (.ok result, r')) (frame : Bytes) :
    Holds r'.dirs frame ↔ Keeps inp cfg.effective { r with dirs := r.dirs.recovered } frame := by
  obtain ⟨all, hall, hend⟩ := run_ok hdry hconfig hrun
  unfold Keeps
  simp only [hall, Option.some.injEq, exists_eq_left']
  rcases hend with ⟨hnothing, hchunks, -⟩ | ⟨hsome, kept, c, i, result0, hkept, -, hc, hrewrite⟩
  · rw [Holds, hchunks, ← Holds]
    simp only [hnothing, true_and, not_true_eq_false, false_and, or_false]
  · rw [holds_rewriteAndSwap hrewrite, ← hc]
    simp only [hsome, false_and, not_false_eq_true, true_and, false_or, hkept, exists_and_left]
    rfl

end DiskNexus.Prune
