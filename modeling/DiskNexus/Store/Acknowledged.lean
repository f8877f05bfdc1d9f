import DiskNexus.Lib.Zstd
import DiskNexus.Store.ChunkStore

/-!
# Acknowledged frames under write failures

A run of operations on one store, in which any filesystem call may fail and the caller goes on. A
write that failed part way leaves bytes that the offset counter does not count: until the next
rotation the places the store returns are not where it writes.

## Main results

`runCalls_retrieve`, `runCalls_keeps_readable`, `runCalls_lost`
-/

namespace DiskNexus.Store.ChunkStore

open Binary

/-- An operation that succeeded and the place it returned. -/
structure Ack where
  call : Call
  packNum : ℕ
  offset : ℕ
  deriving DecidableEq

/-- Run the operations in turn, collecting those that succeed. -/
def runCalls : ChunkStore → List Call → List Ack × ChunkStore
  | s, [] => ([], s)
  | s, c :: cs =>
    match s.call c with
    | (.ok r, s') => (⟨c, r.packNum, r.offset⟩ :: (runCalls s' cs).1, (runCalls s' cs).2)
    | (.error _, s') => runCalls s' cs

/-- The chunk an operation is to keep. -/
def Call.ownData (c : Codec) : Call → Except String Bytes
  | .store _ data _ => .ok data
  | .storeRaw frame _ => retrieveFromFrame c frame

/-- The payload of an operation passes the bound that reading applies. -/
def Call.Fits (c : Codec) : Call → Prop
  | .store nonce data _ => ∀ payload ∈ encodeChunk c nonce data, payload.length ≤ maxChunkFrameLen
  | .storeRaw frame _ => statedLen frame ≤ maxChunkFrameLen

instance (c : Codec) : (call : Call) → Decidable (call.Fits c)
  | .store nonce data _ => inferInstanceAs (Decidable (∀ payload ∈ encodeChunk c nonce data, _))
  | .storeRaw _ _ => inferInstanceAs (Decidable (_ ≤ _))

/-- No leftover bytes are behind the counter, unless the operation begins a new pack anyway. -/
def CleanCall (s : ChunkStore) (c : Call) : Prop :=
  c.Fits s.codec ∧ ∀ frame ∈ c.frame s.codec, s.currentPack = .opened →
    s.Aligned ∨ s.Full frame.length

instance (s : ChunkStore) (c : Call) : Decidable (s.CleanCall c) :=
  inferInstanceAs (Decidable (_ ∧ ∀ frame ∈ c.frame s.codec, _))

/-- Every operation of the run that succeeds starts clean. -/
def CleanRun : ChunkStore → List Call → Prop
  | _, [] => True
  | s, c :: cs => ((s.call c).1.toOption.isSome → s.CleanCall c) ∧ CleanRun (s.call c).2 cs

instance decidableCleanRun : (s : ChunkStore) → (cs : List Call) → Decidable (CleanRun s cs)
  | _, [] => isTrue trivial
  | s, c :: cs =>
    have := decidableCleanRun (s.call c).2 cs
    inferInstanceAs (Decidable (_ ∧ _))

/-! ## Frames stay where they are -/

/-- A frame lies at an offset of a pack file. -/
def FrameAt (packs : Packs) (packNum offset : ℕ) (frame : Bytes) : Prop :=
  ∃ before after, packs.lookup packNum = some (before ++ frame ++ after) ∧
    before.length = offset

/-- Growing pack files keep their frames. -/
lemma FrameAt.mono {a b : Packs} {packNum offset : ℕ} {frame : Bytes} (hab : Grows a b)
    (h : FrameAt a packNum offset frame) : FrameAt b packNum offset frame := by
  obtain ⟨before, after, hlookup, hlen⟩ := h
  obtain ⟨more, hmore⟩ := hab _ _ hlookup
  exact ⟨before, after ++ more, by rw [hmore, List.append_assoc _ after], hlen⟩

/-- Reading a frame where it lies. -/
lemma retrieve_of_frameAt {s : ChunkStore} {packNum offset : ℕ} {frame data : Bytes}
    (h : FrameAt s.packs packNum offset frame)
    (hread : retrieveFromFrame s.codec frame = .ok data)
    (hbound : statedLen frame ≤ maxChunkFrameLen) : s.retrieve packNum offset = .ok data := by
  obtain ⟨before, after, hlookup, rfl⟩ := h
  rw [retrieve, hlookup]
  exact retrieveAt_eq_retrieveFromFrame hread hbound

/-- An operation that succeeds on a clean store puts its frame where it says. -/
lemma call_frameAt {s s' : ChunkStore} {c : Call} {r : Stored} (h : s.call c = (.ok r, s'))
    (hclean : s.CleanCall c) :
    ∃ frame, c.frame s.codec = some frame ∧ FrameAt s'.packs r.packNum r.offset frame := by
  obtain ⟨frame, s1, hframe, hprep, hopen, rfl, rfl⟩ := call_ok h
  exact ⟨frame, hframe, s1.currentFile, [], by simp [appended],
    hprep.aligned hopen (hclean.2 frame hframe)⟩

/-- A frame that fits the bound reads back as the operation's own data. -/
lemma frame_reads {c : Codec} (hc : c.Lawful) {call : Call} {frame data : Bytes}
    (hframe : call.frame c = some frame) (hfits : call.Fits c)
    (hown : call.ownData c = .ok data) :
    retrieveFromFrame c frame = .ok data ∧ statedLen frame ≤ maxChunkFrameLen := by
  cases call with
  | store nonce chunk f =>
    obtain rfl : chunk = data := Except.ok.inj hown
    obtain ⟨payload, hpayload, rfl⟩ := Option.map_eq_some_iff.1 hframe
    have hlen : payload.length ≤ maxChunkFrameLen := hfits payload hpayload
    have hlt : payload.length < 2 ^ 32 := by
      unfold maxChunkFrameLen at hlen
      omega
    have hdec : c.decode payload = .ok chunk := by
      unfold encodeChunk at hpayload
      cases hk : c.key with
      | none =>
        have henc : c.encode [] chunk = payload := by
          simpa [Codec.encode, hk] using hpayload
        exact henc ▸ hc.decode_encode [] chunk
      | some k =>
        rw [hk] at hpayload
        obtain ⟨n, -, henc⟩ := Option.map_eq_some_iff.1 hpayload
        have henc : c.encode n chunk = payload := by
          simpa [Codec.encode, hk] using henc
        exact henc ▸ hc.decode_encode n chunk
    exact ⟨retrieveFromFrame_encodeFrame _ hlt hdec, by rwa [statedLen_encodeFrame _ hlt]⟩
  | storeRaw raw f =>
    obtain rfl : raw = frame := Option.some.inj hframe
    exact ⟨hown, hfits⟩

/-! ## Runs -/

lemma runCalls_extends (s : ChunkStore) (calls : List Call) :
    Extends s (runCalls s calls).2 := by
  induction calls generalizing s with
  | nil => exact .refl s
  | cons c cs ih =>
    have hc := call_extends s c
    unfold runCalls
    generalize s.call c = e at hc
    obtain ⟨_ | r, s'⟩ := e
    · exact hc.trans (ih s')
    · exact hc.trans (ih s')

/-- Every successful operation of a clean run left its frame where it said. -/
lemma runCalls_frameAt {s : ChunkStore} {calls : List Call} (h : CleanRun s calls) :
    ∀ a ∈ (runCalls s calls).1, ∃ frame, a.call.frame s.codec = some frame ∧
      a.call.Fits s.codec ∧ FrameAt (runCalls s calls).2.packs a.packNum a.offset frame := by
  induction calls generalizing s with
  | nil => simp [runCalls]
  | cons c cs ih =>
    obtain ⟨hclean, hrest⟩ := h
    have hcodec := (call_extends s c).codec
    unfold runCalls
    rcases hcall : s.call c with ⟨_ | r, s'⟩ <;> simp only [hcall] at hclean hrest hcodec ⊢
    · rw [← hcodec]
      exact ih hrest
    · intro a ha
      rcases List.mem_cons.1 ha with rfl | ha
      · obtain ⟨frame, hframe, hat⟩ := call_frameAt hcall (hclean rfl)
        exact ⟨frame, hframe, (hclean rfl).1, hat.mono (runCalls_extends s' cs).grows⟩
      · rw [← hcodec]
        exact ih hrest a ha

/-- **Acknowledged frames.** In every run, over any pack files, in which no operation that succeeds
writes behind leftover bytes of a failed write and its payload passes the read bound, an operation
that succeeded returned a place where its own data is read back at the end of the run. -/
theorem runCalls_retrieve {s : ChunkStore} (hc : s.codec.Lawful) {calls : List Call}
    (h : CleanRun s calls) :
    ∀ a ∈ (runCalls s calls).1, ∀ data, a.call.ownData s.codec = .ok data →
      (runCalls s calls).2.retrieve a.packNum a.offset = .ok data := by
  intro a ha data hown
  obtain ⟨frame, hframe, hfits, hat⟩ := runCalls_frameAt h a ha
  obtain ⟨hread, hbound⟩ := frame_reads hc hframe hfits hown
  refine retrieve_of_frameAt hat ?_ hbound
  rw [(runCalls_extends s calls).codec]
  exact hread

/-- What is read of a file is read of it when it has grown. -/
lemma take_drop_append {file : Bytes} {offset n : ℕ} (more : Bytes)
    (h : ¬ ((file.drop offset).take n).length < n) :
    ((file ++ more).drop offset).take n = (file.drop offset).take n := by
  rw [List.length_take, List.length_drop] at h
  rcases Nat.eq_zero_or_pos n with rfl | hn
  · rfl
  · rw [List.drop_append_of_le_length (by omega), List.take_append_of_le_length (by simp; omega)]

/-- **What can be read stays readable**, whatever fails in a run. -/
theorem runCalls_keeps_readable {s : ChunkStore} {packNum offset : ℕ} {data : Bytes}
    (calls : List Call) (h : s.retrieve packNum offset = .ok data) :
    (runCalls s calls).2.retrieve packNum offset = .ok data := by
  have hext := runCalls_extends s calls
  unfold retrieve at h ⊢
  split at h
  · cases h
  rename_i file hfile
  obtain ⟨more, hmore⟩ := hext.grows _ _ hfile
  rw [hmore, hext.codec]
  simp only [retrieveAt] at h ⊢
  split_ifs at h with hheader hbound hpayload
  rwa [take_drop_append more hheader, if_neg hheader, if_neg hbound,
    take_drop_append more hpayload, if_neg hpayload]

/-- A repository without a key that stores short chunks uncompressed. -/
def plainCodec : Codec := ⟨Zstd.rawFrame, Zstd.readRawFrame, none⟩

lemma plainCodec_lawful : plainCodec.Lawful where
  decompress_compress := Zstd.readRawFrame_rawFrame
  decrypt_encrypt := by simp [plainCodec]

/-- Two chunks, the first write of the second one failing before it put a byte in the file and then
retried, and a third whose write leaves three bytes. -/
theorem runCalls_retrieve_retry :
    let s := newChunkStore ∅ plainCodec (2 ^ 27)
    let calls := [Call.store none [7] .none, Call.store none [9] ⟨false, none, some 0, none⟩,
      Call.store none [9] .none, Call.store none [5] ⟨false, none, none, some 3⟩]
    CleanRun s calls ∧ ⟨Call.store none [9] .none, 0, 22⟩ ∈ (runCalls s calls).1 ∧
      (runCalls s calls).2.retrieve 0 22 = .ok [9] := by
  intro s calls
  have hclean : CleanRun s calls := by decide +kernel
  have hmem : ⟨Call.store none [9] .none, 0, 22⟩ ∈ (runCalls s calls).1 := by decide +kernel
  exact ⟨hclean, hmem, runCalls_retrieve plainCodec_lawful hclean _ hmem [9] rfl⟩

/-- A chunk, and a write that stops after three bytes. -/
theorem runCalls_keeps_readable_torn :
    ∃ s, (runCalls s [.store none [9] ⟨false, none, none, some 3⟩]).2.retrieve 0 0 = .ok [7] :=
  ⟨(runCalls (newChunkStore ∅ plainCodec 100) [.store none [7] .none]).2,
    runCalls_keeps_readable _ (by decide +kernel)⟩

/-- **A lost frame.** The first write stops after three bytes; the second call succeeds and returns
the place of the leftover bytes. -/
theorem runCalls_lost :
    let s := newChunkStore ∅ plainCodec (2 ^ 27)
    let calls := [Call.store none [7] ⟨false, none, none, some 3⟩, Call.store none [9] .none]
    (runCalls s calls).1 = [⟨Call.store none [9] .none, 0, 0⟩] ∧
      (runCalls s calls).2.retrieve 0 0 = .error "decompressing chunk" := by
  decide +kernel

end DiskNexus.Store.ChunkStore
