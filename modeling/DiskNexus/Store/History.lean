import DiskNexus.Store.Acknowledged

/-!
# Histories of writer sessions

A repository sees one writer session after another. Each opens the latest pack for appending,
without looking at its end, and may be cut at any byte of the pack it writes.

## Main results

`ChunkStore.call_view`, `runHistory_intact`
-/

namespace DiskNexus.Store

open Binary Function

/-! ## The acknowledged part of the packs -/

variable {s s' : ChunkStore} {data frame : Bytes} {e : String}

namespace ChunkStore

/-- The acknowledged part of every pack. -/
def view (s : ChunkStore) : ℕ → Bytes :=
  if s.currentPack = .opened then
    update (fileOf s.packs) s.currentPackNum (s.currentFile.take s.currentOffset)
  else fileOf s.packs

lemma view_of_settled (h : s.Settled) : s.view = fileOf s.packs := by
  unfold view
  split_ifs with hopen
  · rw [List.take_of_length_le (h hopen).le, currentFile_eq, update_eq_self]
  · rfl

/-- A step that leaves leftover bytes, at most, behind the acknowledged part. -/
structure Quiet (s s' : ChunkStore) : Prop where
  view : s'.view = s.view
  bounded : s.Bounded → s'.Bounded

lemma Ready.quiet {s1 : ChunkStore} (hs : s.Settled) (h : Ready s s1) : Quiet s s1 :=
  ⟨by rw [view_of_settled (h.settled hs), h.files, view_of_settled hs], h.bounded⟩

lemma Quiet.trans {s s1 s2 : ChunkStore} (h : Quiet s s1) (h' : Quiet s1 s2) : Quiet s s2 :=
  ⟨h'.view.trans h.view, fun hb => h'.bounded (h.bounded hb)⟩

lemma fileOf_extended (s : ChunkStore) (more : Bytes) :
    fileOf (s.extended more).packs =
      update (fileOf s.packs) s.currentPackNum (s.currentFile ++ more) :=
  fileOf_insert _ _ _

/-- Bytes behind the acknowledged part. -/
lemma extended_quiet (hopen : s.currentPack = .opened) (h : s.currentOffset ≤ s.currentFile.length)
    (more : Bytes) : Quiet s (s.extended more) := by
  refine ⟨?_, fun hb => extended_bounded hb more⟩
  have hopen' : (s.extended more).currentPack = .opened := hopen
  unfold view
  rw [if_pos hopen, if_pos hopen', fileOf_extended, currentFile_extended]
  have hnum : (s.extended more).currentPackNum = s.currentPackNum := rfl
  have hoff : (s.extended more).currentOffset = s.currentOffset := rfl
  rw [hnum, hoff, update_idem, List.take_append_of_le_length h]

/-- A frame that is written in full and counted. -/
lemma view_appended (h : s.Aligned) (frame : Bytes) :
    (s.appended frame).view =
      update s.view s.currentPackNum (s.view s.currentPackNum ++ frame) := by
  rw [view_of_settled (appended_settled h frame), view_of_settled fun _ => h]
  exact fileOf_insert _ _ _

/-- A frame that is appended once the pack is ready. -/
lemma Ready.appended {s1 : ChunkStore} (hs : s.Settled) (h : Ready s s1)
    (hopen : s1.currentPack = .opened) (frame : Bytes) :
    (s1.appended frame).view = update s.view s1.currentPackNum
        (s.view s1.currentPackNum ++ frame) ∧
      (s.Bounded → s1.currentPackNum < 2 ^ 32 ∧ (s1.appended frame).Bounded) := by
  rw [view_appended (h.settled hs hopen), (h.quiet hs).view]
  refine ⟨rfl, fun hb => ⟨(h.bounded hb).current, ?_⟩⟩
  have hbounded := extended_bounded (h.bounded hb) frame
  exact ⟨hbounded.current, hbounded.packs⟩

/-- A failed operation leaves the acknowledged part of the packs alone. -/
theorem call_error_quiet (hs : s.Settled) {c : Call} (h : s.call c = (.error e, s')) :
    Quiet s s' := by
  have hcall := call_outcome s c
  rw [h] at hcall
  cases hcall with
  | unwritten _ hready => exact hready.quiet hs
  | partly _ hready hopen part =>
    exact (hready.quiet hs).trans (extended_quiet hopen (hready.settled hs hopen).ge part)

/-- A successful operation appends its frame to the acknowledged part of one pack. -/
theorem call_view (hs : s.Settled) {c : Call} {r : Stored} (h : s.call c = (.ok r, s')) :
    ∃ frame, c.frame s.codec = some frame ∧
      s'.view = update s.view r.packNum (s.view r.packNum ++ frame) ∧
      (s.Bounded → r.packNum < 2 ^ 32 ∧ s'.Bounded) := by
  obtain ⟨frame, s1, hframe, hprep, hopen, rfl, rfl⟩ := call_ok h
  exact ⟨frame, hframe, hprep.1.appended hs hopen frame⟩

/-! ## Sessions -/

/-- An operation whose frame a walk over the pack can read. -/
def Call.Sound (c : Codec) (call : Call) : Prop :=
  call.Fits c ∧ match call with
    | .store _ _ _ => True
    | .storeRaw frame _ => frame.length = 8 + statedLen frame ∧
        (retrieveFromFrame c frame).toOption.isSome

instance (c : Codec) : (call : Call) → Decidable (call.Sound c)
  | .store _ _ _ => inferInstanceAs (Decidable (_ ∧ True))
  | .storeRaw frame _ => inferInstanceAs (Decidable (_ ∧ frame.length = 8 + statedLen frame ∧ _))

instance (s : ChunkStore) : Decidable s.Settled := inferInstanceAs (Decidable (_ → _))

/-- Every operation of the run is sound and finds no leftovers in the pack. -/
def SettledRun : ChunkStore → List Call → Prop
  | _, [] => True
  | s, c :: cs => (s.Settled ∧ c.Sound s.codec) ∧ SettledRun (s.call c).2 cs

instance decidableSettledRun : (s : ChunkStore) → (cs : List Call) → Decidable (SettledRun s cs)
  | _, [] => isTrue trivial
  | s, c :: cs =>
    have := decidableSettledRun (s.call c).2 cs
    inferInstanceAs (Decidable (_ ∧ _))

/-- What is left of the packs when the session is cut, with `keep` bytes of the open pack. -/
def cut (s : ChunkStore) (keep : ℕ) : Packs :=
  if s.currentPack = .opened then s.packs.insert s.currentPackNum (s.currentFile.take keep)
  else s.packs

end ChunkStore

open ChunkStore

/-- One session: its operations, and how many bytes of its current pack survive. -/
structure WriterSession where
  calls : List Call
  keep : ℕ

section History

variable (codec : Codec) (maxPackSize : ℤ)

/-- The operations of a session that succeeded, and the store at its end. -/
def WriterSession.run (packs : Packs) (w : WriterSession) : List Ack × ChunkStore :=
  runCalls (newChunkStore packs codec maxPackSize) w.calls

/-- The sessions in turn: what was acknowledged, and the packs in the end. -/
def runHistory : Packs → List WriterSession → List Ack × Packs
  | packs, [] => ([], packs)
  | packs, w :: ws =>
    let rest := runHistory ((w.run codec maxPackSize packs).2.cut w.keep) ws
    ((w.run codec maxPackSize packs).1 ++ rest.1, rest.2)

/-- The number of bytes a cut leaves of the pack being written. -/
def kept (s : ChunkStore) (keep : ℕ) : ℕ := (s.currentFile.take keep).length

/-- Every cut falls behind the last acknowledged frame, and less than a frame header later. A pack
in which a cut has left stray bytes, one of `dirty`, gets no more frames. -/
def CleanHistory : List ℕ → Packs → List WriterSession → Prop
  | _, _, [] => True
  | dirty, packs, w :: ws =>
    let s := (w.run codec maxPackSize packs).2
    SettledRun (newChunkStore packs codec maxPackSize) w.calls ∧
      (∀ a ∈ (w.run codec maxPackSize packs).1, a.packNum ∉ dirty) ∧
      (s.currentPack = .opened → s.currentOffset ≤ kept s w.keep ∧
        kept s w.keep < s.currentOffset + (if s.currentPackNum ∈ dirty then 1 else 8)) ∧
      CleanHistory (if s.currentPack = .opened ∧ s.currentOffset < kept s w.keep then
        s.currentPackNum :: dirty else dirty) (s.cut w.keep) ws

instance decidableCleanHistory : (dirty : List ℕ) → (packs : Packs) → (ws : List WriterSession) →
    Decidable (CleanHistory codec maxPackSize dirty packs ws)
  | _, _, [] => isTrue trivial
  | dirty, packs, w :: ws =>
    have := decidableCleanHistory
      (if (w.run codec maxPackSize packs).2.currentPack = .opened ∧
          (w.run codec maxPackSize packs).2.currentOffset <
            kept (w.run codec maxPackSize packs).2 w.keep then
        (w.run codec maxPackSize packs).2.currentPackNum :: dirty else dirty)
      ((w.run codec maxPackSize packs).2.cut w.keep) ws
    inferInstanceAs (Decidable (_ ∧ (∀ a ∈ _, _ ∉ _) ∧ (_ → _ ∧ _) ∧ _))

end History

/-! ## Packs as sequences of frames -/

/-- A frame that reads back as a chunk, of exactly the length it states. -/
structure WellFramed (c : Codec) (frame data : Bytes) : Prop where
  length : frame.length = 8 + statedLen frame
  bound : statedLen frame ≤ maxChunkFrameLen
  reads : retrieveFromFrame c frame = .ok data

/-- The packs are sequences of the frames of the given chunks, with a few stray bytes behind them.
-/
structure Intact (c : Codec) (file stray : ℕ → Bytes) (datas : List Bytes)
    (frames : ℕ → List (Bytes × Bytes)) : Prop where
  file_eq : ∀ n, file n = (frames n).flatMap Prod.fst ++ stray n
  framed : ∀ n, ∀ f ∈ frames n, WellFramed c f.1 f.2
  mem_datas : ∀ data, data ∈ datas ↔ ∃ n, ∃ f ∈ frames n, f.2 = data

/-- No stray bytes. -/
def noStray : ℕ → Bytes := fun _ => []

/-- The chunks of the operations that succeeded. -/
def ackData (c : Codec) (acks : List Ack) : List Bytes :=
  acks.filterMap fun a => (a.call.ownData c).toOption

/-- The frame of a sound operation. -/
lemma ChunkStore.Call.Sound.wellFramed {c : Codec} (hc : c.Lawful) {call : Call}
    (hframe : call.frame c = some frame) (hsound : call.Sound c) :
    ∃ data, call.ownData c = .ok data ∧ WellFramed c frame data := by
  obtain ⟨hfits, hraw⟩ := hsound
  obtain ⟨data, hown⟩ : ∃ data, call.ownData c = .ok data := by
    cases call with
    | store nonce data f => exact ⟨data, rfl⟩
    | storeRaw raw f =>
      cases hread : retrieveFromFrame c raw with
      | error e =>
        have hok : (retrieveFromFrame c raw).toOption.isSome := hraw.2
        rw [hread] at hok
        cases hok
      | ok data => exact ⟨data, hread⟩
  obtain ⟨hreads, hbound⟩ := frame_reads hc hframe hfits hown
  refine ⟨data, hown, ?_, hbound, hreads⟩
  cases call with
  | store nonce chunk f =>
    obtain ⟨payload, hpayload, rfl⟩ := Option.map_eq_some_iff.1 hframe
    have hlen : payload.length ≤ maxChunkFrameLen := hfits payload hpayload
    rw [length_encodeFrame, statedLen_encodeFrame]
    unfold maxChunkFrameLen at hlen
    omega
  | storeRaw raw f =>
    obtain rfl : raw = frame := Option.some.inj hframe
    exact hraw.1

/-- One more frame at the end of a pack. -/
lemma Intact.append {c : Codec} {file stray : ℕ → Bytes} {datas : List Bytes}
    {frames : ℕ → List (Bytes × Bytes)} (h : Intact c file stray datas frames) {n : ℕ}
    (hn : stray n = []) (hf : WellFramed c frame data) :
    Intact c (update file n (file n ++ frame)) stray (datas ++ [data])
      (update frames n (frames n ++ [(frame, data)])) := by
  refine ⟨fun m => ?_, fun m => ?_, fun d => ?_⟩
  · by_cases hm : m = n
    · subst hm
      simp [h.file_eq, hn]
    · simp [hm, h.file_eq m]
  · by_cases hm : m = n
    · subst hm
      rw [update_self]
      intro f hmem
      rcases List.mem_append.1 hmem with hmem | hmem
      · exact h.framed m f hmem
      · rw [List.mem_singleton] at hmem
        subst hmem
        exact hf
    · rw [update_of_ne hm]
      exact h.framed m
  · rw [List.mem_append, h.mem_datas, List.mem_singleton]
    constructor
    · rintro (⟨m, f, hmem, rfl⟩ | rfl)
      · refine ⟨m, f, ?_, rfl⟩
        by_cases hm : m = n
        · subst hm
          simp [hmem]
        · rwa [update_of_ne hm]
      · exact ⟨n, (frame, d), by simp, rfl⟩
    · rintro ⟨m, f, hmem, rfl⟩
      by_cases hm : m = n
      · subst hm
        rw [update_self] at hmem
        rcases List.mem_append.1 hmem with hmem | hmem
        · exact .inl ⟨m, f, hmem, rfl⟩
        · rw [List.mem_singleton] at hmem
          exact .inr (by rw [hmem])
      · rw [update_of_ne hm] at hmem
        exact .inl ⟨m, f, hmem, rfl⟩

/-! ## Clean histories -/

/-- The operations of a session append the frames of their chunks. -/
lemma runCalls_intact {s : ChunkStore} (hc : s.codec.Lawful) {calls : List Call}
    (h : SettledRun s calls) {stray : ℕ → Bytes} {datas : List Bytes}
    {frames : ℕ → List (Bytes × Bytes)} (hi : Intact s.codec s.view stray datas frames)
    (hclear : ∀ a ∈ (runCalls s calls).1, stray a.packNum = []) (hb : s.Bounded) :
    ∃ frames', Intact s.codec (runCalls s calls).2.view stray
        (datas ++ ackData s.codec (runCalls s calls).1) frames' ∧
      (runCalls s calls).2.Bounded := by
  induction calls generalizing s datas frames with
  | nil => exact ⟨frames, by simpa [runCalls, ackData] using hi, hb⟩
  | cons c cs ih =>
    obtain ⟨⟨hs, hsound⟩, hrest⟩ := h
    have hcodec := (call_extends s c).codec
    unfold runCalls at hclear ⊢
    rcases hcall : s.call c with ⟨e | r, s'⟩ <;> simp only [hcall] at hrest hcodec hclear ⊢
    · obtain ⟨hview, hbounded⟩ := call_error_quiet hs hcall
      rw [← hcodec]
      exact ih (hcodec ▸ hc) hrest (by rw [hcodec, hview]; exact hi) hclear (hbounded hb)
    · obtain ⟨frame, hframe, hview, hbounded⟩ := call_view hs hcall
      obtain ⟨data, hown, hframed⟩ := hsound.wellFramed hc hframe
      obtain ⟨hhere, hclear⟩ := List.forall_mem_cons.1 hclear
      have hi' := hi.append hhere hframed
      rw [← hview, ← hcodec] at hi'
      obtain ⟨frames', hi'', hb''⟩ := ih (hcodec ▸ hc) hrest hi' hclear (hbounded hb).2
      refine ⟨frames', ?_, hb''⟩
      rw [hcodec] at hi''
      simpa [ackData, hown, Except.toOption] using hi''

/-- What a cut behind the acknowledged part leaves. -/
lemma fileOf_cut {s : ChunkStore} {keep : ℕ}
    (h : s.currentPack = .opened → s.currentOffset ≤ kept s keep) :
    ∃ stray : ℕ → Bytes, (∀ n, fileOf (s.cut keep) n = s.view n ++ stray n) ∧
      ∀ n, (stray n).length = if s.currentPack = .opened ∧ n = s.currentPackNum then
        kept s keep - s.currentOffset else 0 := by
  by_cases hopen : s.currentPack = .opened
  · have hsplit : s.currentFile.take keep = s.currentFile.take s.currentOffset ++
        (s.currentFile.take keep).drop s.currentOffset := by
      have hle : s.currentOffset ≤ keep := by
        have h1 := h hopen
        have h2 := List.length_take_le keep s.currentFile
        rw [kept] at h1
        omega
      calc s.currentFile.take keep
          = (s.currentFile.take keep).take s.currentOffset ++
              (s.currentFile.take keep).drop s.currentOffset := (List.take_append_drop _ _).symm
        _ = _ := by rw [List.take_take, min_eq_left hle]
    refine ⟨update noStray s.currentPackNum
      ((s.currentFile.take keep).drop s.currentOffset), fun n => ?_, fun n => ?_⟩
    · unfold cut view
      rw [if_pos hopen, if_pos hopen, fileOf_insert]
      by_cases hn : n = s.currentPackNum
      · subst hn
        rw [update_self, update_self, update_self]
        exact hsplit
      · rw [update_of_ne hn, update_of_ne hn, update_of_ne hn]
        simp [noStray]
    · by_cases hn : n = s.currentPackNum
      · subst hn
        simp [hopen, kept]
      · simp [hn, noStray]
  · refine ⟨noStray, fun n => ?_, fun n => by simp [hopen, noStray]⟩
    unfold cut view
    rw [if_neg hopen, if_neg hopen]
    simp [noStray]

lemma bounded_cut (hb : s.Bounded) (keep : ℕ) : ∀ n ∈ s.cut keep, n < 2 ^ 32 := by
  unfold cut
  split
  · intro n hn
    rcases (AList.mem_insert _).1 hn with rfl | hn
    · exact hb.current
    · exact hb.packs n hn
  · exact hb.packs

/-- A store that is opened on packs whose numbers fit. -/
lemma newChunkStore_bounded {packs : Packs} (hp : ∀ n ∈ packs, n < 2 ^ 32) (codec : Codec)
    (maxPackSize : ℤ) : (newChunkStore packs codec maxPackSize).Bounded := by
  refine ⟨?_, hp⟩
  have hfold : ∀ (ns : List ℕ) (m : ℕ), m < 2 ^ 32 → (∀ n ∈ ns, n < 2 ^ 32) →
      ns.foldl max m < 2 ^ 32 := by
    intro ns
    induction ns with
    | nil => exact fun m hm _ => hm
    | cons a ns ih =>
      intro m hm hns
      exact ih _ (max_lt hm (hns a (.head _))) fun n hn =>
        hns n (.tail _ hn)
  exact hfold packs.keys 0 (by decide) fun n hn => hp n (AList.mem_keys.2 hn)

/-- **A clean history** leaves packs that are sequences of the frames of the acknowledged chunks,
and fewer stray bytes behind them than a frame header has.

**Proof sketch.** By induction on the sessions: a session appends frames to the packs without stray
bytes, and its cut makes at most one dirty. -/
theorem runHistory_intact {codec : Codec} (hc : codec.Lawful) {maxPackSize : ℤ} {dirty : List ℕ}
    {packs : Packs} {ws : List WriterSession} (h : CleanHistory codec maxPackSize dirty packs ws)
    {stray : ℕ → Bytes} {datas : List Bytes} {frames : ℕ → List (Bytes × Bytes)}
    (hi : Intact codec (fileOf packs) stray datas frames)
    (hstray : ∀ n, (stray n).length < 8 ∧ (stray n ≠ [] → n ∈ dirty))
    (hp : ∀ n ∈ packs, n < 2 ^ 32) :
    ∃ stray' frames', Intact codec (fileOf (runHistory codec maxPackSize packs ws).2) stray'
        (datas ++ ackData codec (runHistory codec maxPackSize packs ws).1) frames' ∧
      (∀ n, (stray' n).length < 8) ∧
      ∀ n ∈ (runHistory codec maxPackSize packs ws).2, n < 2 ^ 32 := by
  induction ws generalizing dirty packs stray datas frames with
  | nil =>
    exact ⟨stray, frames, by simpa [runHistory, ackData] using hi, fun n => (hstray n).1, hp⟩
  | cons w ws ih =>
    obtain ⟨hrun, hacks, hcut, hrest⟩ := h
    set s0 := newChunkStore packs codec maxPackSize with hs0
    have hview : s0.view = fileOf packs := by
      rfl
    obtain ⟨frames1, hi1, hb1⟩ := @runCalls_intact s0 hc w.calls hrun stray datas frames
      (by rw [hview]; exact hi) (fun a ha => by_contra fun hne => hacks a ha ((hstray _).2 hne))
      (newChunkStore_bounded hp codec maxPackSize)
    set s := (w.run codec maxPackSize packs).2 with hs
    have hi1 : Intact codec s.view stray
        (datas ++ ackData codec (w.run codec maxPackSize packs).1) frames1 := hi1
    obtain ⟨extra, hfile, hextra⟩ := @fileOf_cut s w.keep fun hopen => (hcut hopen).1
    have hi2 : Intact codec (fileOf (s.cut w.keep)) (fun n => stray n ++ extra n)
        (datas ++ ackData codec (w.run codec maxPackSize packs).1) frames1 := by
      refine ⟨fun n => ?_, hi1.framed, hi1.mem_datas⟩
      rw [hfile, hi1.file_eq, List.append_assoc]
    have hstray2 : ∀ n, (stray n ++ extra n).length < 8 ∧ (stray n ++ extra n ≠ [] →
        n ∈ if s.currentPack = .opened ∧ s.currentOffset < kept s w.keep then
          s.currentPackNum :: dirty else dirty) := by
      intro n
      obtain ⟨hshort, hdirty⟩ := hstray n
      have hlen := hextra n
      by_cases hcurrent : s.currentPack = .opened ∧ n = s.currentPackNum
      · obtain ⟨hopen, rfl⟩ := hcurrent
        obtain ⟨hle, hlt⟩ := hcut hopen
        rw [if_pos ⟨hopen, rfl⟩] at hlen
        rw [List.length_append]
        by_cases hmem : s.currentPackNum ∈ dirty
        · rw [if_pos hmem] at hlt
          refine ⟨by omega, fun _ => ?_⟩
          rw [if_neg (by omega)]
          exact hmem
        · have hnone : stray s.currentPackNum = [] := by_contra fun hne => hmem (hdirty hne)
          rw [if_neg hmem] at hlt
          refine ⟨by rw [hnone, List.length_nil]; omega, fun hne => ?_⟩
          rw [hnone, List.nil_append, ← List.length_pos_iff] at hne
          rw [if_pos ⟨hopen, by omega⟩]
          exact .head _
      · rw [if_neg hcurrent, List.length_eq_zero_iff] at hlen
        rw [hlen, List.append_nil]
        refine ⟨hshort, fun hne => ?_⟩
        split
        · exact .tail _ (hdirty hne)
        · exact hdirty hne
    obtain ⟨stray', frames', hi', hstray', hp'⟩ := ih hrest hi2 hstray2 (bounded_cut hb1 w.keep)
    refine ⟨stray', frames', ?_, hstray', hp'⟩
    have happend : ackData codec (runHistory codec maxPackSize packs (w :: ws)).1 =
        ackData codec (w.run codec maxPackSize packs).1 ++
          ackData codec (runHistory codec maxPackSize (s.cut w.keep) ws).1 := by
      simp [runHistory, ackData, ← hs]
    rw [happend, ← List.append_assoc]
    exact hi'

end DiskNexus.Store
