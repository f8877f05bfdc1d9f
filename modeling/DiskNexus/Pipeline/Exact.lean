import DiskNexus.Pipeline.Stages
import Mathlib.Data.Multiset.Range

/-!
# Schedules that lose no chunk

A state of the stages is exact if every chunk that the chunker sent is in one place and every stage
that has ended has left nothing behind. It is doomed if the backup cannot succeed any more. A
cancellation after the chunker's last look at the context makes the workers and the sequencer drop
what they hold, while `run` goes on to a success. `Guarded` says that the caller does not cancel
then.

## Main results

`Exact.step`, `Doomed.step`
-/

namespace DiskNexus.Pipeline

variable {σ ν α β ω δ : Type}

section Spec

variable (p : Program σ ν α β ω δ)

/-- Calling `Next` again and again gives these chunks. -/
inductive Emits (src₀ : σ) : List α → σ → Prop
  | nil : Emits src₀ [] src₀
  | snoc {cs : List α} {src src' : σ} {c : α} (h : Emits src₀ cs src)
      (hnext : p.next src = .chunk c src') : Emits src₀ (cs ++ [c]) src'

/-- The chunks of a stream, as `Next` gives them before `io.EOF`, and their digest. -/
def Chunks (src₀ : σ) (cs : List α) (digest : δ) : Prop :=
  ∃ src, Emits p src₀ cs src ∧ p.next src = .eof digest

/-- A worker can make `b` of the chunk `a`. -/
def Made (a : α) (b : β) : Prop := ∃ draw, p.prepare draw a = .ok b

/-- The store loop over prepared chunks. -/
def storeAll (w : ω) (bs : List β) : Except (String × ω) ω := bs.foldlM p.store w

/-- A backup that stores prepared chunks one after the other. -/
def sequential (w : ω) (bs : List β) (digest : δ) : Except (String × ω) ω :=
  storeAll p w bs >>= fun w => p.closeEntries w >>= fun w => p.finish w digest

lemma storeAll_append (w : ω) (bs : List β) (b : β) :
    storeAll p w (bs ++ [b]) = storeAll p w bs >>= fun w => p.store w b := by
  simp [storeAll, List.foldlM_append]

end Spec

/-! ## What the stages hold -/

/-- The number of the chunk a worker holds. -/
def Worker.seqs : Worker α β → Multiset ℕ
  | .preparing sc => {sc.seq}
  | .sending pc => {pc.seq}
  | _ => 0

/-- The numbers of the chunks the sequencer holds. -/
def Sequencer.seqs : Sequencer β → Multiset ℕ
  | .receiving heap _ => seqsOf heap
  | .merging heap _ => seqsOf heap
  | .sending heap pc _ => {pc.seq} + seqsOf heap
  | .draining heap => seqsOf heap
  | .flushing heap pc => {pc.seq} + seqsOf heap
  | _ => 0

/-- The numbers of the chunks between the chunker and the store loop. -/
def State.held (s : State σ α β ω δ) : Multiset ℕ :=
  seqsOf s.chunkCh.buf + (s.workers.map Worker.seqs).sum + seqsOf s.preparedCh.buf +
    s.sequencer.seqs

/-- The chunker reports the end without another look at the context. -/
def Committed (p : Program σ ν α β ω δ) (s : State σ α β ω δ) : Prop :=
  (∃ src seq digest, s.chunker = .reading src seq ∧ p.next src = .eof digest) ∨
    ∃ digest, s.chunkerDone = some (.ok digest)

/-- An action that does not cancel while chunks are on their way behind a chunker that is done. -/
def Guarded (p : Program σ ν α β ω δ) (s : State σ α β ω δ) : Act ν → Prop
  | .cancel => Committed p s → s.held = 0
  | _ => True

/-- A schedule of guarded actions. -/
def GuardedRun (p : Program σ ν α β ω δ) : State σ α β ω δ → List (Act ν) → Prop
  | _, [] => True
  | s, a :: as => Guarded p s a ∧ ∀ s', step p s a = some s' → GuardedRun p s' as

section Invariant

variable (p : Program σ ν α β ω δ) (src₀ : σ) (w₀ : ω)

/-- A prepared chunk carries the number of the chunk it was made of. -/
def Labelled (sent : List α) (x : Numbered β) : Prop :=
  ∃ a, sent[x.seq]? = some a ∧ Made p a x.item

/-- The chunker has sent these chunks. -/
def Chunker.Sound (sent : List α) : Chunker σ α → Option (Except String δ) → Prop
  | .checking src seq, done => Emits p src₀ sent src ∧ seq = sent.length ∧ done = none
  | .reading src seq, done => Emits p src₀ sent src ∧ seq = sent.length ∧ done = none
  | .sending src c seq, done => Emits p src₀ (sent ++ [c]) src ∧ seq = sent.length ∧ done = none
  | .returning, done => ∃ digest, Chunks p src₀ sent digest ∧ done = some (.ok digest)
  | .exited, done => ∃ digest, Chunks p src₀ sent digest ∧ done = some (.ok digest)

/-- A worker holds one of the chunks sent. -/
def Worker.Sound (sent : List α) : Worker α β → Prop
  | .preparing sc => sent[sc.seq]? = some sc.item
  | .sending pc => Labelled p sent pc
  | .cancelling => False
  | _ => True

/-- The sequencer has emitted the first `n` chunks and holds others in order. -/
def Sequencer.Sound (sent : List α) (n : ℕ) : Sequencer β → Prop
  | .receiving heap next => next = n ∧ heap.Pairwise Numbered.Le ∧
      (∀ x ∈ heap, Labelled p sent x) ∧ ∀ x ∈ heap, x.seq ≠ n
  | .merging heap next => next = n ∧ heap.Pairwise Numbered.Le ∧ ∀ x ∈ heap, Labelled p sent x
  | .sending heap pc next => next = n ∧ pc.seq = n ∧ heap.Pairwise Numbered.Le ∧
      ∀ x ∈ pc :: heap, Labelled p sent x
  | .draining heap => heap = []
  | .flushing _ _ => False
  | _ => True

/-- The sequencer's channel has ended. -/
def Sequencer.Ended : Sequencer β → Prop
  | .receiving _ _ => False
  | .merging _ _ => False
  | .sending _ _ _ => False
  | _ => True

/-- The chunk that the store loop is working on. -/
def Main.hand : Main β ω δ → List β
  | .storing _ pc => [pc]
  | _ => []

/-- The store loop has stored these chunks, and `run` goes on from there. -/
def Main.At (stored : List β) (done : Option (Except String δ)) : Main β ω δ → Prop
  | .receiving w => storeAll p w₀ stored = .ok w
  | .storing w _ => storeAll p w₀ stored = .ok w
  | .closing w => storeAll p w₀ stored = .ok w
  | .checking w => (storeAll p w₀ stored >>= p.closeEntries) = .ok w
  | .waiting w => (storeAll p w₀ stored >>= p.closeEntries) = .ok w
  | .finishing w digest => done = some (.ok digest) ∧
      (storeAll p w₀ stored >>= p.closeEntries) = .ok w
  | .succeeded w => ∃ digest, done = some (.ok digest) ∧ sequential p w₀ stored digest = .ok w
  | _ => False

/-- The store loop is over. -/
def Main.Ended : Main β ω δ → Prop
  | .receiving _ => False
  | .storing _ _ => False
  | _ => True

/-- `run` has read the report of the chunker. -/
def Main.Reported : Main β ω δ → Prop
  | .finishing _ _ => True
  | .succeeded _ => True
  | _ => False

/-- **No chunk is lost.** The chunker has sent `sent`, the sequencer has emitted `out`, the store
loop has stored `stored`; the numbers in between are all there, each once, and every stage that has
ended has left nothing behind. -/
structure Exact (s : State σ α β ω δ) (sent : List α) (out stored : List β) : Prop where
  chunker : s.chunker.Sound p src₀ sent s.chunkerDone
  chunkBuf : ∀ x ∈ s.chunkCh.buf, sent[x.seq]? = some x.item
  chunkClosed : s.chunkCh.closed = true → s.chunker = .exited
  workers : ∀ w ∈ s.workers, w.Sound p sent
  someWorker : s.workers ≠ []
  workerExited : .exited ∈ s.workers → s.chunkCh.closed = true ∧ s.chunkCh.buf = []
  preparedBuf : ∀ x ∈ s.preparedCh.buf, Labelled p sent x
  preparedClosed : s.preparedCh.closed = true → ∀ w ∈ s.workers, w = .exited
  sequencer : s.sequencer.Sound p sent out.length
  sequencerEnded : s.sequencer.Ended → s.preparedCh.closed = true ∧ s.preparedCh.buf = []
  orderedClosed : s.orderedCh.closed = true → s.sequencer = .exited
  made : List.Forall₂ (Made p) (sent.take out.length) out
  seqs : s.held + Multiset.range out.length = Multiset.range sent.length
  main : s.main.At p w₀ stored s.chunkerDone
  outs : stored ++ s.main.hand ++ s.orderedCh.buf.map Numbered.item = out
  mainEnded : s.main.Ended → s.orderedCh.closed = true ∧ s.orderedCh.buf = []
  workerErr : s.workerErr = none
  ctx : s.ctxErr = true → Committed p s ∧ s.held = 0

/-- The chunker has a look at the context or an error before it. -/
def Chunker.BeforeEnd : Chunker σ α → Prop
  | .checking _ _ => True
  | .reading src _ => ∀ digest, p.next src ≠ .eof digest
  | .sending _ _ _ => True
  | _ => False

/-- The chunker has reported. -/
def Chunker.Over : Chunker σ α → Prop
  | .returning => True
  | .exited => True
  | _ => False

/-- The chunker reports an error, now or later. -/
def Failing (s : State σ α β ω δ) : Prop :=
  (s.chunker.Over ∧ ∃ e, s.chunkerDone = some (.error e)) ∨
    s.chunkerDone = none ∧ s.ctxErr = true ∧ s.chunker.BeforeEnd p

/-- `run` has not looked for worker errors yet. -/
def Main.Early : Main β ω δ → Prop
  | .receiving _ => True
  | .storing _ _ => True
  | .closing _ => True
  | .checking _ => True
  | _ => False

/-- `run` has returned without a success. -/
def Main.Lost : Main β ω δ → Prop
  | .suspended _ => True
  | .failed _ _ => True
  | _ => False

/-- **The backup can no longer succeed.** -/
def Doomed (s : State σ α β ω δ) : Prop :=
  s.main.Lost ∨ s.workerErr.isSome ∧ s.main.Early ∨ Failing p s ∧ ¬ s.main.Reported

/-- A state is exact or doomed. -/
def Inv (s : State σ α β ω δ) : Prop :=
  (∃ sent out stored, Exact p src₀ w₀ s sent out stored) ∨ Doomed p s

end Invariant

section Doom

variable {p : Program σ ν α β ω δ} {s s' : State σ α β ω δ}

/-- A step that leaves `run`, the worker errors and the chunker alone keeps a backup doomed. -/
lemma Doomed.frame (h : Doomed p s) (hmain : s'.main = s.main) (herr : s'.workerErr = s.workerErr)
    (hchunker : s'.chunker = s.chunker) (hdone : s'.chunkerDone = s.chunkerDone)
    (hctx : s.ctxErr = true → s'.ctxErr = true) : Doomed p s' := by
  unfold Doomed Failing at *
  rw [hmain, herr, hchunker, hdone]
  rcases h with h | h | ⟨h | ⟨h1, h2, h3⟩, h'⟩
  · exact .inl h
  · exact .inr (.inl h)
  · exact .inr (.inr ⟨.inl h, h'⟩)
  · exact .inr (.inr ⟨.inr ⟨h1, hctx h2, h3⟩, h'⟩)

/-- A step of the chunker that keeps it failing keeps a backup doomed. -/
lemma Doomed.chunker (h : Doomed p s) (hmain : s'.main = s.main)
    (herr : s'.workerErr = s.workerErr) (hfail : Failing p s → Failing p s') : Doomed p s' := by
  unfold Doomed at *
  rw [hmain, herr]
  rcases h with h | h | ⟨h, h'⟩
  · exact .inl h
  · exact .inr (.inl h)
  · exact .inr (.inr ⟨hfail h, h'⟩)

/-- A step of `run` from a doomed state: there is a worker error that it has not checked for, or the
chunker's report is an error. -/
lemma Doomed.main (h : Doomed p s) (hlive : ¬ s.main.Lost) (herr : s'.workerErr = s.workerErr)
    (hchunker : s'.chunker = s.chunker) (hdone : s'.chunkerDone = s.chunkerDone)
    (hctx : s'.ctxErr = s.ctxErr)
    (hearly : s.workerErr.isSome → s.main.Early → s'.main.Early ∨ s'.main.Lost)
    (hreport : Failing p s → ¬ s.main.Reported → ¬ s'.main.Reported) : Doomed p s' := by
  have hfailing : Failing p s' ↔ Failing p s := by
    unfold Failing
    rw [hchunker, hdone, hctx]
  unfold Doomed at *
  rw [herr, hfailing]
  rcases h with h | ⟨h, h'⟩ | ⟨h, h'⟩
  · exact absurd h hlive
  · rcases hearly h h' with hm | hm
    · exact .inr (.inl ⟨h, hm⟩)
    · exact .inl hm
  · exact .inr (.inr ⟨h, hreport h h'⟩)

/-- **A doomed backup stays doomed.** -/
theorem Doomed.step {a : Act ν} (h : Doomed p s) (hs : Step p s s' a) : Doomed p s' := by
  have hnotOver : ∀ {c : Chunker σ α}, ¬ c.Over → s.chunker = c → Failing p s →
      s.chunkerDone = none ∧ s.ctxErr = true ∧ c.BeforeEnd p := by
    rintro c hc rfl (⟨hover, -⟩ | hbefore)
    · exact absurd hover hc
    · exact hbefore
  cases hs with
  | cancel | workerCancel | mainCancel => exact h.frame rfl rfl rfl rfl fun _ => rfl
  | chunkerCanceled | chunkerErr | chunkerQuit =>
    exact h.chunker rfl rfl fun _ => .inl ⟨trivial, _, rfl⟩
  | chunkerGoOn hc hctx =>
    refine h.chunker rfl rfl fun hfail => ?_
    have hctx' := (hnotOver id hc hfail).2.1
    rw [hctx] at hctx'
    cases hctx'
  | chunkerChunk hc | chunkerSend hc =>
    refine h.chunker rfl rfl fun hfail => ?_
    obtain ⟨hdone, hctx, -⟩ := hnotOver id hc hfail
    exact .inr ⟨hdone, hctx, trivial⟩
  | chunkerEOF hc hnext =>
    exact h.chunker rfl rfl fun hfail => absurd hnext ((hnotOver id hc hfail).2.2 _)
  | chunkerClose hc =>
    refine h.chunker rfl rfl ?_
    rintro (⟨-, hdone⟩ | ⟨-, -, hbefore⟩)
    · exact .inl ⟨trivial, hdone⟩
    · rw [hc] at hbefore
      exact hbefore.elim
  | workerErr hw he =>
    rcases h with h | ⟨-, h⟩ | h
    · exact .inl h
    · exact .inr (.inl ⟨rfl, h⟩)
    · exact .inr (.inr h)
  | mainRecv hm | mainStore hm | mainEnd hm | mainClose hm =>
    exact h.main (by rw [hm]; exact id) rfl rfl rfl rfl (fun _ _ => .inl trivial) fun _ _ => id
  | mainCheck hm herr =>
    refine h.main (by rw [hm]; exact id) rfl rfl rfl rfl (fun hsome _ => ?_) fun _ _ => id
    rw [herr] at hsome
    cases hsome
  | mainWait hm hdone =>
    refine h.main (by rw [hm]; exact id) rfl rfl rfl rfl (fun _ hearly => ?_) fun hfail _ => ?_
    · rw [hm] at hearly
      exact hearly.elim
    · rcases hfail with ⟨-, e, he⟩ | ⟨hnone, -⟩
      · rw [hdone] at he
        cases he
      · rw [hdone] at hnone
        cases hnone
  | mainFinish hm hw =>
    refine h.main (by rw [hm]; exact id) rfl rfl rfl rfl (fun _ hearly => ?_) fun _ hrep => ?_
    · rw [hm] at hearly
      exact hearly.elim
    · rw [hm] at hrep
      exact absurd trivial hrep
  | mainSuspend | mainFail => exact .inl trivial
  | _ => exact h.frame rfl rfl rfl rfl id

end Doom

/-! ## The steps from an exact state -/

variable {w : Worker α β} {n i seq next : ℕ} {src : σ} {sc : Numbered α} {pc : Numbered β}
  {heap : List (Numbered β)}

section ExactSteps

variable {p : Program σ ν α β ω δ} {src₀ : σ} {w₀ : ω} {s : State σ α β ω δ} {sent : List α}
  {out stored : List β}

/-- A chunk sent keeps its number. -/
lemma sent_mono {a : α} (h : sent[n]? = some a) (c : α) : (sent ++ [c])[n]? = some a := by
  rw [List.getElem?_append_left (List.getElem?_eq_some_iff.1 h).1, h]

lemma Labelled.mono {x : Numbered β} (h : Labelled p sent x) (c : α) :
    Labelled p (sent ++ [c]) x := by
  obtain ⟨a, ha, hmade⟩ := h
  exact ⟨a, sent_mono ha c, hmade⟩

lemma Worker.Sound.mono (h : w.Sound p sent) (c : α) :
    w.Sound p (sent ++ [c]) := by
  cases w with
  | preparing sc => exact sent_mono h c
  | sending pc => exact Labelled.mono h c
  | _ => exact h

lemma Sequencer.Sound.mono {q : Sequencer β} (h : q.Sound p sent n) (c : α) :
    q.Sound p (sent ++ [c]) n := by
  cases q with
  | receiving heap next =>
    obtain ⟨hn, hsorted, hlab, hne⟩ := h
    exact ⟨hn, hsorted, fun x hx => (hlab x hx).mono c, hne⟩
  | merging heap next =>
    obtain ⟨hn, hsorted, hlab⟩ := h
    exact ⟨hn, hsorted, fun x hx => (hlab x hx).mono c⟩
  | sending heap pc next =>
    obtain ⟨hn, hpc, hsorted, hlab⟩ := h
    exact ⟨hn, hpc, hsorted, fun x hx => (hlab x hx).mono c⟩
  | _ => exact h

/-- What holds of all workers and of a new state holds of all workers after. -/
lemma forall_mem_set {ws : List (Worker α β)} {P : Worker α β → Prop} (h : ∀ w ∈ ws, P w)
    (i : ℕ) {w' : Worker α β} (hw' : P w') : ∀ w ∈ ws.set i w', P w := by
  intro w hw
  rcases List.mem_or_eq_of_mem_set hw with hmem | rfl
  · exact h w hmem
  · exact hw'

/-- A worker that changes its state changes the held numbers by its own. -/
lemma seqs_set (hw : s.workers[i]? = some w) (w' : Worker α β) :
    ((s.workers.set i w').map Worker.seqs).sum + w.seqs =
      (s.workers.map Worker.seqs).sum + w'.seqs :=
  sum_map_set Worker.seqs hw w'

lemma mem_held_of_worker (hw : s.workers[i]? = some w) (hn : n ∈ w.seqs) : n ∈ s.held := by
  have hsum : n ∈ (s.workers.map Worker.seqs).sum := by
    have hset := seqs_set hw .receiving
    rw [show (Worker.receiving : Worker α β).seqs = 0 from rfl, add_zero] at hset
    rw [← hset]
    exact Multiset.mem_add.2 (.inr hn)
  simp only [State.held, Multiset.mem_add]
  exact .inl (.inl (.inr hsum))

/-- While the chunker has not reported `run` is before its report. -/
lemma Main.At.of_none {m : Main β ω δ} (h : m.At p w₀ stored none)
    (done : Option (Except String δ)) :
    m.At p w₀ stored done := by
  cases m with
  | finishing w digest => cases h.1
  | succeeded w =>
    obtain ⟨digest, hdone, -⟩ := h
    cases hdone
  | _ => exact h

/-- A worker that does not exit leaves the exited ones. -/
lemma exited_of_mem_set {ws : List (Worker α β)} {w' : Worker α β}
    (h : .exited ∈ ws.set i w') (hne : w' ≠ .exited) : .exited ∈ ws := by
  rcases List.mem_or_eq_of_mem_set h with hmem | heq
  · exact hmem
  · exact absurd heq.symm hne

/-- A channel or a context is not in two states. -/
lemma elim_of_eq_false {b : Bool} {P : Prop} (h : b = false) (h' : b = true) : P := by
  rw [h] at h'
  cases h'

variable (h : Exact p src₀ w₀ s sent out stored)
include h

lemma Exact.inv : Inv p src₀ w₀ s := .inl ⟨sent, out, stored, h⟩

lemma Exact.chunkerAt {c : Chunker σ α} (hc : s.chunker = c) : c.Sound p src₀ sent s.chunkerDone :=
  hc ▸ h.chunker

lemma Exact.sequencerAt {q : Sequencer β} (hq : s.sequencer = q) : q.Sound p sent out.length :=
  hq ▸ h.sequencer

lemma Exact.mainAt {m : Main β ω δ} (hm : s.main = m) : m.At p w₀ stored s.chunkerDone :=
  hm ▸ h.main

/-- A step that leaves the chunks in between keeps the balance of the numbers. -/
lemma Exact.balance {held : Multiset ℕ} (hheld : held = s.held) :
    held + Multiset.range out.length = Multiset.range sent.length := by
  rw [hheld]
  exact h.seqs

/-- A step that leaves the chunks in between leaves none behind a cancelled context. -/
lemma Exact.quiet {held : Multiset ℕ} (hheld : held = s.held) (hctx : s.ctxErr = true) :
    Committed p s ∧ held = 0 := by
  rw [hheld]
  exact h.ctx hctx

/-- Once `preparedCh` is closed, every worker has returned. -/
lemma Exact.not_closed_of_worker (hw : s.workers[i]? = some w) (hne : w ≠ .exited) :
    s.preparedCh.closed = false := by
  cases hclosed : s.preparedCh.closed with
  | false => rfl
  | true => exact absurd (h.preparedClosed hclosed w (List.mem_of_getElem? hw)) hne

/-- The numbers in between are those not emitted yet. -/
lemma Exact.le_of_mem_held (hn : n ∈ s.held) :
    out.length ≤ n := by
  have hnodup : (s.held + Multiset.range out.length).Nodup := by
    rw [h.seqs]
    exact Multiset.nodup_range _
  by_contra hlt
  exact Multiset.disjoint_left.1 (Multiset.nodup_add.1 hnodup).2.2 hn
    (Multiset.mem_range.2 (Nat.lt_of_not_le hlt))

lemma Exact.length_out_le : out.length ≤ sent.length := by
  have hcard := congrArg Multiset.card h.seqs
  simp only [Multiset.card_add, Multiset.card_range] at hcard
  omega

/-- While the context is cancelled nobody holds a chunk. -/
lemma Exact.not_mem_held (hctx : s.ctxErr = true) (n : ℕ) :
    n ∉ s.held := by
  rw [(h.ctx hctx).2]
  exact Multiset.notMem_zero n

/-- The context is not cancelled while the chunker has to look at it again. -/
lemma Exact.ctxErr_eq_false (hdone : s.chunkerDone = none) (hbefore : s.chunker.BeforeEnd p) :
    s.ctxErr = false := by
  cases hctx : s.ctxErr with
  | false => rfl
  | true =>
    rcases (h.ctx hctx).1 with ⟨src, seq, digest, hc, heof⟩ | ⟨digest, hsome⟩
    · rw [hc] at hbefore
      exact absurd heof (hbefore digest)
    · rw [hdone] at hsome
      cases hsome

/-- The channel of a chunker that has not returned is open. -/
lemma Exact.chunkCh_open (hne : s.chunker ≠ .exited) :
    s.chunkCh.closed = false := by
  cases hclosed : s.chunkCh.closed with
  | false => rfl
  | true => exact absurd (h.chunkClosed hclosed) hne

/-- While the channel of the chunker is open, no worker has returned. -/
lemma Exact.not_exited (hopen : s.chunkCh.closed = false) :
    .exited ∉ s.workers := by
  intro hmem
  exact elim_of_eq_false hopen (h.workerExited hmem).1

lemma Exact.reported (hreported : s.main.Reported) :
    ∃ digest, s.chunkerDone = some (.ok digest) := by
  cases hm : s.main with
  | finishing w digest => exact ⟨digest, (h.mainAt hm).1⟩
  | succeeded w =>
    obtain ⟨digest, hdone, -⟩ := h.mainAt hm
    exact ⟨digest, hdone⟩
  | _ =>
    rw [hm] at hreported
    exact hreported.elim

lemma Exact.chunkerSend {src : σ} {seq : ℕ} {c : α} (hc : s.chunker = .sending src c seq)
    (hopen : s.chunkCh.closed = false) :
    Exact p src₀ w₀
      { s with chunkCh := ⟨s.chunkCh.buf ++ [⟨c, seq⟩], false⟩, chunker := .checking src (seq + 1) }
      (sent ++ [c]) out stored := by
  obtain ⟨hemits, rfl, hdone⟩ := h.chunkerAt hc
  have hctx := h.ctxErr_eq_false hdone (by rw [hc]; trivial)
  have hle := h.length_out_le
  exact { h with
    chunker := ⟨hemits, by simp, hdone⟩
    chunkBuf := by
      intro x hx
      rcases List.mem_append.1 hx with hx | hx
      · exact sent_mono (h.chunkBuf x hx) c
      · obtain rfl := List.mem_singleton.1 hx
        simp
    chunkClosed := nofun
    workers := fun w hw => (h.workers w hw).mono c
    workerExited := fun hmem => absurd hmem (h.not_exited hopen)
    preparedBuf := fun x hx => (h.preparedBuf x hx).mono c
    sequencer := h.sequencer.mono c
    made := by rw [List.take_append_of_le_length hle]; exact h.made
    seqs := by
      have hseqs := h.seqs
      simp only [State.held, seqsOf_append, seqsOf_cons, seqsOf_nil, add_zero] at hseqs ⊢
      rw [List.length_append, List.length_singleton, Multiset.range_succ, ← hseqs,
        ← Multiset.singleton_add]
      abel
    ctx := elim_of_eq_false hctx }

/-- A step of a worker, which may take a chunk from one channel into the other. -/
lemma Exact.workerMove {w' : Worker α β} {ch : Chan (Numbered α)} {pr : Chan (Numbered β)}
    (hw : s.workers[i]? = some w) (hne : w ≠ .exited) (hsound : w'.Sound p sent)
    (hch : ∀ x ∈ ch.buf, x ∈ s.chunkCh.buf) (hclosed : ch.closed = s.chunkCh.closed)
    (hpr : ∀ x ∈ pr.buf, Labelled p sent x) (hopen : pr.closed = s.preparedCh.closed)
    (hexited : .exited ∈ s.workers.set i w' → ch.closed = true ∧ ch.buf = [])
    (hseqs : seqsOf ch.buf + w'.seqs + seqsOf pr.buf =
      seqsOf s.chunkCh.buf + w.seqs + seqsOf s.preparedCh.buf) :
    Exact p src₀ w₀ { s with chunkCh := ch, preparedCh := pr, workers := s.workers.set i w' } sent
      out stored := by
  have hopen' := h.not_closed_of_worker hw hne
  have hheld : State.held
      { s with chunkCh := ch, preparedCh := pr, workers := s.workers.set i w' } = s.held := by
    have hset := seqs_set hw w'
    refine add_right_cancel (b := w.seqs) ?_
    calc _ = seqsOf ch.buf + seqsOf pr.buf + s.sequencer.seqs +
          (((s.workers.set i w').map Worker.seqs).sum + w.seqs) := by
          simp only [State.held]
          abel
      _ = seqsOf ch.buf + w'.seqs + seqsOf pr.buf + (s.workers.map Worker.seqs).sum +
          s.sequencer.seqs := by
          rw [hset]
          abel
      _ = _ := by
          rw [hseqs, State.held]
          abel
  exact { h with
    chunkBuf := fun x hx => h.chunkBuf x (hch x hx)
    chunkClosed := fun hc => h.chunkClosed (hclosed ▸ hc)
    workers := forall_mem_set h.workers i hsound
    someWorker := by simpa using h.someWorker
    workerExited := hexited
    preparedBuf := hpr
    preparedClosed := elim_of_eq_false (hopen.trans hopen')
    sequencerEnded := fun hended => elim_of_eq_false hopen' (h.sequencerEnded hended).1
    seqs := h.balance hheld
    ctx := h.quiet hheld }

/-- While a worker is at work the store loop goes on. -/
lemma Exact.not_ended_of_worker (hw : s.workers[i]? = some w) (hne : w ≠ .exited) :
    ¬ s.main.Ended := by
  intro hended
  have hexited := h.orderedClosed (h.mainEnded hended).1
  have hclosed := (h.sequencerEnded (by rw [hexited]; trivial)).1
  rw [h.not_closed_of_worker hw hne] at hclosed
  cases hclosed

lemma Exact.workerErr_doomed {e : String} (hw : s.workers[i]? = some (.preparing sc)) :
    Doomed p { s with
      workers := s.workers.set i .cancelling, workerErr := some (s.workerErr.getD e) } := by
  have hmain := h.not_ended_of_worker hw nofun
  refine .inr (.inl ⟨rfl, ?_⟩)
  cases hm : s.main with
  | receiving | storing => trivial
  | _ =>
    rw [hm] at hmain
    exact absurd trivial hmain

/-- Once the workers' channel has ended, only the sequencer holds chunks. -/
lemma Exact.held_eq (hclosed : s.preparedCh.closed = true) (hbuf : s.preparedCh.buf = []) :
    s.held = s.sequencer.seqs := by
  have hexited := h.preparedClosed hclosed
  have hworkers : (s.workers.map Worker.seqs).sum = 0 := by
    rw [List.map_congr_left (g := fun _ => 0) fun w hw => by rw [hexited w hw]; rfl]
    simp
  obtain ⟨w, hw⟩ := List.exists_mem_of_ne_nil _ h.someWorker
  have hchunk := (h.workerExited (hexited w hw ▸ hw)).2
  simp only [State.held, hworkers, hchunk, hbuf, seqsOf_nil, zero_add]

/-- A step of the sequencer before its channel has ended. -/
lemma Exact.seqMove {q q' : Sequencer β} {pr : Chan (Numbered β)} (hq : s.sequencer = q)
    (hne : q ≠ .exited) (hpr : ∀ x ∈ pr.buf, x ∈ s.preparedCh.buf)
    (hclosed : pr.closed = s.preparedCh.closed) (hsound : q'.Sound p sent out.length)
    (hended : q'.Ended → pr.closed = true ∧ pr.buf = [])
    (hseqs : seqsOf pr.buf + q'.seqs = seqsOf s.preparedCh.buf + q.seqs) :
    Exact p src₀ w₀ { s with preparedCh := pr, sequencer := q' } sent out stored := by
  subst hq
  have hheld : State.held { s with preparedCh := pr, sequencer := q' } = s.held := by
    simp only [State.held, add_assoc, hseqs]
  exact { h with
    preparedBuf := fun x hx => h.preparedBuf x (hpr x hx)
    preparedClosed := fun hc => h.preparedClosed (hclosed ▸ hc)
    sequencer := hsound
    sequencerEnded := hended
    orderedClosed := fun hclosed => absurd (h.orderedClosed hclosed) hne
    seqs := h.balance hheld
    ctx := h.quiet hheld }

/-- The sequencer waits only if the chunk that is due is not on its heap. -/
lemma Exact.seqIdle (hq : s.sequencer = .merging heap next)
    (hhead : ∀ pc ∈ heap.head?, pc.seq ≠ next) :
    Exact p src₀ w₀ { s with sequencer := .receiving heap next } sent out stored := by
  obtain ⟨rfl, hsorted, hlab⟩ := h.sequencerAt hq
  refine h.seqMove hq nofun (fun _ => id) rfl ⟨rfl, hsorted, hlab, fun x hx => ?_⟩ nofun rfl
  cases heap with
  | nil => cases hx
  | cons pc heap =>
    have hne : pc.seq ≠ out.length := hhead pc rfl
    have hge : out.length ≤ pc.seq := by
      refine h.le_of_mem_held ?_
      simp [State.held, hq, Sequencer.seqs]
    have hmin : pc.seq ≤ x.seq := by
      rcases List.mem_cons.1 hx with rfl | hx
      · exact le_rfl
      · exact List.rel_of_pairwise_cons hsorted hx
    omega

lemma Exact.seqSend {heap : List (Numbered β)} {next : ℕ} {pc : Numbered β}
    (hq : s.sequencer = .sending heap pc next) (hopen : s.orderedCh.closed = false) :
    Exact p src₀ w₀
      { s with
        orderedCh := ⟨s.orderedCh.buf ++ [pc], false⟩
        sequencer := .merging heap (next + 1) } sent (out ++ [pc.item]) stored := by
  obtain ⟨hn, hpc, hsorted, hlab⟩ := h.sequencerAt hq
  obtain ⟨a, ha, hmade⟩ := hlab pc (.head _)
  have hheld : s.held = {pc.seq} + State.held
      { s with
        orderedCh := ⟨s.orderedCh.buf ++ [pc], false⟩
        sequencer := .merging heap (next + 1) } := by
    simp only [State.held, hq, Sequencer.seqs]
    abel
  exact { h with
    sequencer := ⟨by simp [hn], hsorted, fun x hx => hlab x (.tail pc hx)⟩
    sequencerEnded := nofun
    orderedClosed := nofun
    made := by
      rw [List.length_append, List.length_singleton, List.take_add_one, ← hpc, ha, hpc]
      exact List.rel_append h.made (.cons hmade .nil)
    seqs := by
      have hseqs := h.seqs
      rw [hheld, hpc] at hseqs
      rw [List.length_append, List.length_singleton, Multiset.range_succ, ← hseqs,
        ← Multiset.singleton_add]
      abel
    outs := by
      rw [← h.outs]
      simp
    mainEnded := fun hended => elim_of_eq_false hopen (h.mainEnded hended).1
    ctx := by
      intro hctx
      have hmem : pc.seq ∈ s.held := by
        rw [hheld]
        exact Multiset.mem_add.2 (.inl (Multiset.mem_singleton_self _))
      exact absurd hmem (h.not_mem_held hctx _) }

/-- When the workers' channel ends the heap is empty: nothing is missing. -/
lemma Exact.seqDrain (hq : s.sequencer = .receiving heap next)
    (hclosed : s.preparedCh.closed = true) (hbuf : s.preparedCh.buf = []) :
    Exact p src₀ w₀ { s with sequencer := .draining heap } sent out stored := by
  obtain ⟨rfl, -, -, hne⟩ := h.sequencerAt hq
  have hseqs := h.seqs
  rw [h.held_eq hclosed hbuf, hq] at hseqs
  change seqsOf heap + _ = _ at hseqs
  have hheap : heap = [] := by
    by_contra hheap
    have hlt : out.length < sent.length := by
      have hcard := congrArg Multiset.card hseqs
      have hpos : 0 < Multiset.card (seqsOf heap) :=
        Multiset.card_pos.2 fun hzero => hheap (seqsOf_eq_zero.1 hzero)
      simp only [Multiset.card_add, Multiset.card_range] at hcard
      omega
    have hmem := Multiset.mem_range.2 hlt
    rw [← hseqs, Multiset.mem_add] at hmem
    rcases hmem with hmem | hmem
    · obtain ⟨x, hx, hxseq⟩ := mem_seqsOf.1 hmem
      exact hne x hx hxseq
    · exact absurd (Multiset.mem_range.1 hmem) (lt_irrefl _)
  exact h.seqMove hq nofun (fun _ => id) rfl hheap (fun _ => ⟨hclosed, hbuf⟩) rfl

/-- A step of `run` after its loop. -/
lemma Exact.mainMove {m m' : Main β ω δ} (hm : s.main = m) (hat : m'.At p w₀ stored s.chunkerDone)
    (hhand : m'.hand = m.hand) (hended : s.orderedCh.closed = true ∧ s.orderedCh.buf = []) :
    Exact p src₀ w₀ { s with main := m' } sent out stored := by
  subst hm
  exact { h with
    main := hat
    outs := by simp only [hhand, h.outs]
    mainEnded := fun _ => hended }

/-- After a success nobody holds a chunk. -/
lemma Exact.held_eq_zero (hended : s.main.Ended) :
    s.held = 0 := by
  have hexited := h.orderedClosed (h.mainEnded hended).1
  obtain ⟨hclosed, hbuf⟩ := h.sequencerEnded (by rw [hexited]; trivial)
  rw [h.held_eq hclosed hbuf, hexited]
  rfl

/-- A cancellation before the end of the stream dooms the backup. -/
lemma Exact.cancel_doomed (hnot : ¬ Committed p s) :
    Doomed p { s with ctxErr := true, parentErr := true } := by
  refine .inr (.inr ⟨.inr ?_, fun hr => hnot (.inr (h.reported hr))⟩)
  cases hc : s.chunker with
  | checking | sending => exact ⟨(h.chunkerAt hc).2.2, rfl, trivial⟩
  | reading src seq =>
    exact ⟨(h.chunkerAt hc).2.2, rfl, fun digest heof => hnot (.inl ⟨src, seq, digest, hc, heof⟩)⟩
  | returning | exited => exact absurd (.inr ((h.chunkerAt hc).imp fun _ hd => hd.2)) hnot

/-- **One guarded step** leads from an exact state to an exact one or to one that cannot succeed. -/
theorem Exact.step {s' : State σ α β ω δ} {a : Act ν} (hg : Guarded p s a) (hs : Step p s s' a) :
    Inv p src₀ w₀ s' := by
  cases hs with
  | cancel =>
    by_cases hcom : Committed p s
    · exact .inl ⟨sent, out, stored, { h with ctx := fun _ => ⟨hcom, hg hcom⟩ }⟩
    · exact .inr (h.cancel_doomed hcom)
  | chunkerCanceled hc hctx | chunkerQuit hc hctx =>
    rw [h.ctxErr_eq_false (h.chunkerAt hc).2.2 (by rw [hc]; trivial)] at hctx
    cases hctx
  | chunkerGoOn hc hctx =>
    have hsound := h.chunkerAt hc
    have hopen := h.chunkCh_open (by rw [hc]; nofun)
    exact Exact.inv { h with
      chunker := hsound
      chunkClosed := elim_of_eq_false hopen
      ctx := elim_of_eq_false hctx }
  | chunkerChunk hc hnext =>
    obtain ⟨hemits, hseq, hdone⟩ := h.chunkerAt hc
    have hopen := h.chunkCh_open (by rw [hc]; nofun)
    have hctx := h.ctxErr_eq_false hdone (by rw [hc]; simp [Chunker.BeforeEnd, hnext])
    exact Exact.inv { h with
      chunker := ⟨.snoc hemits hnext, hseq, hdone⟩
      chunkClosed := elim_of_eq_false hopen
      ctx := elim_of_eq_false hctx }
  | @chunkerEOF src seq digest hc hnext =>
    obtain ⟨hemits, -, hdone⟩ := h.chunkerAt hc
    have hopen := h.chunkCh_open (by rw [hc]; nofun)
    have hmain := h.main
    rw [hdone] at hmain
    exact Exact.inv { h with
      chunker := ⟨digest, ⟨src, hemits, hnext⟩, rfl⟩
      chunkClosed := elim_of_eq_false hopen
      main := hmain.of_none _
      ctx := fun hctx => ⟨.inr ⟨digest, rfl⟩, (h.ctx hctx).2⟩ }
  | chunkerErr hc hnext =>
    refine .inr (.inr (.inr ⟨.inl ⟨trivial, _, rfl⟩, fun hreported => ?_⟩))
    obtain ⟨digest, hdone⟩ := h.reported hreported
    rw [(h.chunkerAt hc).2.2] at hdone
    cases hdone
  | chunkerSend hc hopen => exact (h.chunkerSend hc hopen).inv
  | chunkerClose hc =>
    have hsound := h.chunkerAt hc
    exact Exact.inv { h with
      chunker := hsound
      chunkClosed := fun _ => rfl
      workerExited := fun hmem => ⟨rfl, (h.workerExited hmem).2⟩
      ctx := fun hctx => ⟨.inr (hsound.imp fun _ hd => hd.2), (h.ctx hctx).2⟩ }
  | @workerRecv i sc rest hw hbuf =>
    have hsub : ∀ x ∈ rest, x ∈ s.chunkCh.buf := fun x hx => hbuf ▸ .tail sc hx
    refine Exact.inv (h.workerMove hw nofun (h.chunkBuf sc (by simp [hbuf])) hsub rfl h.preparedBuf
      rfl (fun hmem => ?_) ?_)
    · have hnil := (h.workerExited (exited_of_mem_set hmem nofun)).2
      rw [hbuf] at hnil
      cases hnil
    · simp only [hbuf, seqsOf_cons, Worker.seqs]
      abel
  | workerPrepare hw hb =>
    have hlab : sent[_]? = some _ := h.workers _ (List.mem_of_getElem? hw)
    exact Exact.inv (h.workerMove hw nofun ⟨_, hlab, _, hb⟩ (fun _ => id) rfl h.preparedBuf rfl
      (fun hmem => h.workerExited (exited_of_mem_set hmem nofun)) rfl)
  | workerErr hw he => exact .inr (h.workerErr_doomed hw)
  | @workerSend i pc hw hopen =>
    have hlab : Labelled p sent pc := h.workers _ (List.mem_of_getElem? hw)
    refine Exact.inv (h.workerMove hw nofun trivial (fun _ => id) rfl
      (List.forall_mem_append.2 ⟨h.preparedBuf, by simpa using hlab⟩) hopen.symm
      (fun hmem => h.workerExited (exited_of_mem_set hmem nofun)) ?_)
    simp only [seqsOf_append, seqsOf_cons, seqsOf_nil, Worker.seqs]
    abel
  | workerQuit hw hctx =>
    exact absurd (mem_held_of_worker hw (Multiset.mem_singleton_self _)) (h.not_mem_held hctx _)
  | workerCancel hw => exact (h.workers _ (List.mem_of_getElem? hw)).elim
  | workerExit hw hclosed hbuf =>
    exact Exact.inv (h.workerMove hw nofun trivial (fun _ => id) rfl h.preparedBuf rfl
      (fun _ => ⟨hclosed, hbuf⟩) rfl)
  | closePrepared hall =>
    exact Exact.inv { h with
      preparedClosed := fun _ => hall
      sequencerEnded := fun hended => ⟨rfl, (h.sequencerEnded hended).2⟩ }
  | @seqRecv heap next pc rest hq hbuf =>
    obtain ⟨hn, hsorted, hlab, -⟩ := h.sequencerAt hq
    have hprepared := h.preparedBuf
    rw [hbuf, List.forall_mem_cons] at hprepared
    refine Exact.inv (h.seqMove hq nofun (fun x hx => hbuf ▸ .tail pc hx) rfl
      ⟨hn, Numbered.push_sorted hsorted pc, fun x hx => ?_⟩ nofun ?_)
    · rcases Numbered.mem_push.1 hx with rfl | hx
      · exact hprepared.1
      · exact hlab x hx
    · simp only [hbuf, Sequencer.seqs, seqsOf_cons, seqsOf_push]
      abel
  | seqIdle hq hhead => exact (h.seqIdle hq hhead).inv
  | seqDue hq hpc =>
    obtain ⟨hn, hsorted, hlab⟩ := h.sequencerAt hq
    exact Exact.inv (h.seqMove hq nofun (fun _ => id) rfl
      ⟨hn, hpc.trans hn, (List.pairwise_cons.1 hsorted).2, hlab⟩ nofun rfl)
  | seqEmpty hq =>
    have hended := h.sequencerEnded (by rw [hq]; trivial)
    exact Exact.inv (h.seqMove hq nofun (fun _ => id) rfl trivial (fun _ => hended) rfl)
  | seqLeft hq => cases h.sequencerAt hq
  | seqSend hq hopen => exact (h.seqSend hq hopen).inv
  | seqFlush hq hopen => exact (h.sequencerAt hq).elim
  | @seqQuit heap pc hq hctx =>
    have hmem : pc.seq ∈ s.held := by
      rcases hq with ⟨next, hq⟩ | hq <;> simp [State.held, hq, Sequencer.seqs]
    exact absurd hmem (h.not_mem_held hctx _)
  | seqDrain hq hclosed hbuf => exact (h.seqDrain hq hclosed hbuf).inv
  | seqClose hq =>
    have hheld : State.held { s with sequencer := .exited, orderedCh := s.orderedCh.close } =
        s.held := by
      simp only [State.held, hq, Sequencer.seqs]
    exact Exact.inv { h with
      sequencer := trivial
      sequencerEnded := fun _ => h.sequencerEnded (by rw [hq]; trivial)
      orderedClosed := fun _ => rfl
      mainEnded := fun hended => ⟨rfl, (h.mainEnded hended).2⟩
      seqs := h.balance hheld
      ctx := h.quiet hheld }
  | mainRecv hm hbuf =>
    have hat := h.mainAt hm
    have houts := h.outs
    rw [hm, hbuf] at houts
    exact Exact.inv { h with
      main := hat
      outs := by simpa [Main.hand] using houts
      mainEnded := nofun }
  | @mainStore w w' pc hm hw =>
    have hat : storeAll p w₀ stored = .ok w := h.mainAt hm
    have houts := h.outs
    rw [hm] at houts
    have hat' : storeAll p w₀ (stored ++ [pc]) = .ok w' := by
      rw [storeAll_append, hat]
      exact hw
    exact Exact.inv { h with
      main := hat'
      outs := by simpa [Main.hand] using houts
      mainEnded := nofun }
  | mainEnd hm hclosed hbuf =>
    have hat := h.mainAt hm
    exact Exact.inv (h.mainMove hm hat rfl ⟨hclosed, hbuf⟩)
  | mainClose hm hw =>
    have hat : storeAll p w₀ stored = .ok _ := h.mainAt hm
    refine Exact.inv (h.mainMove hm ?_ rfl (h.mainEnded (by rw [hm]; trivial)))
    rw [Main.At, hat]
    exact hw
  | mainCheck hm herr =>
    have hat := h.mainAt hm
    exact Exact.inv (h.mainMove hm hat rfl (h.mainEnded (by rw [hm]; trivial)))
  | mainWait hm hdone =>
    have hat := h.mainAt hm
    exact Exact.inv (h.mainMove hm ⟨hdone, hat⟩ rfl (h.mainEnded (by rw [hm]; trivial)))
  | mainFinish hm hw =>
    obtain ⟨hdone, hat⟩ := h.mainAt hm
    refine Exact.inv (h.mainMove hm ⟨_, hdone, ?_⟩ rfl (h.mainEnded (by rw [hm]; trivial)))
    rw [sequential, ← bind_assoc, hat]
    exact hw
  | mainSuspend | mainFail => exact .inr (.inl trivial)
  | mainCancel hm =>
    rcases hm with ⟨w, hm⟩ | ⟨w, hm⟩ | ⟨e, w, hm⟩
    · have hended : s.main.Ended := by rw [hm]; trivial
      have hreported : s.main.Reported := by rw [hm]; trivial
      exact .inl ⟨sent, out, stored, { h with
        ctx := fun _ => ⟨.inr (h.reported hreported), h.held_eq_zero hended⟩ }⟩
    · exact (h.mainAt hm).elim
    · exact (h.mainAt hm).elim

end ExactSteps

end DiskNexus.Pipeline
