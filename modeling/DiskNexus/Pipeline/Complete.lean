import DiskNexus.Pipeline.Exact

/-!
# Every successful schedule is the sequential backup

Whatever the order in which the stages act, a backup that succeeds has stored the chunks of the
whole stream in order, as long as the caller does not cancel behind the chunker's last look at the
context.

## Main results

`exec_complete`, `carries_exec`
-/

namespace DiskNexus.Pipeline

variable {σ ν α β ω δ : Type}

/-! ## Whole schedules -/

section Runs

variable {p : Program σ ν α β ω δ} {src₀ : σ} {w₀ : ω}

lemma exact_init (p : Program σ ν α β ω δ) (src₀ : σ) (w₀ : ω) {n : ℕ} (hn : 0 < n) :
    Exact p src₀ w₀ (State.init src₀ w₀ n) [] [] [] where
  chunker := ⟨.nil, rfl, rfl⟩
  chunkBuf := nofun
  chunkClosed := nofun
  workers := fun w hw => by
    rw [List.eq_of_mem_replicate hw]
    trivial
  someWorker := by
    intro hnil
    have hlen := congrArg List.length hnil
    simp only [State.init, List.length_replicate, List.length_nil] at hlen
    omega
  workerExited := fun hmem => by cases List.eq_of_mem_replicate hmem
  preparedBuf := nofun
  preparedClosed := nofun
  sequencer := ⟨rfl, .nil, nofun, nofun⟩
  sequencerEnded := nofun
  orderedClosed := nofun
  made := .nil
  seqs := by simp [State.held, State.init, Chan.new, Sequencer.seqs, Worker.seqs]
  main := rfl
  outs := rfl
  mainEnded := nofun
  workerErr := rfl
  ctx := nofun

variable {s : State σ α β ω δ} {as : List (Act ν)}

/-- A schedule without a cancellation is guarded. -/
lemma guardedRun_of_not_mem (h : .cancel ∉ as) :
    GuardedRun p s as := by
  induction as generalizing s with
  | nil => trivial
  | cons a as ih =>
    obtain ⟨hne, hrest⟩ := not_or.1 (mt List.mem_cons.2 h)
    refine ⟨?_, fun s' _ => ih hrest⟩
    cases a with
    | cancel => exact absurd rfl hne
    | _ => trivial

lemma GuardedRun.append {bs : List (Act ν)} (h : GuardedRun p s as)
    (hbs : ∀ s', exec p s as = some s' → GuardedRun p s' bs) : GuardedRun p s (as ++ bs) := by
  induction as generalizing s with
  | nil => exact hbs s rfl
  | cons a as ih =>
    refine ⟨h.1, fun s1 hstep => ih (h.2 s1 hstep) fun s' hs' => hbs s' ?_⟩
    rw [exec, hstep]
    exact hs'

/-- **A guarded schedule** keeps a state exact or doomed. -/
theorem inv_exec {s' : State σ α β ω δ} (h : Inv p src₀ w₀ s) (hg : GuardedRun p s as)
    (hs : exec p s as = some s') : Inv p src₀ w₀ s' := by
  induction as generalizing s with
  | nil =>
    cases hs
    exact h
  | cons a as ih =>
    obtain ⟨s1, hstep, hrest⟩ := Option.bind_eq_some_iff.1 hs
    refine ih ?_ (hg.2 s1 hstep) hrest
    rcases h with ⟨sent, out, stored, h⟩ | h
    · exact h.step hg.1 (step_rule hstep)
    · exact .inr (h.step (step_rule hstep))

/-- **A success is a sequential backup.** Let the stages start with at least one worker, let them
act in any order, and let the caller cancel at any time but after the chunker's last look at the
context while chunks are on their way. If `run` succeeds, its result is that of storing the chunks
of the whole stream one after the other, each as some worker prepared it.

**Proof sketch.** A state in which no chunk is lost stays so under guarded steps, or becomes one
that cannot succeed. After a success the stages have all ended, each because the channel before it
had. -/
theorem exec_complete {n : ℕ} (hn : 0 < n) {w : ω} (hg : GuardedRun p (State.init src₀ w₀ n) as)
    (hs : exec p (State.init src₀ w₀ n) as = some s) (hw : s.main = .succeeded w) :
    ∃ cs digest bs, Chunks p src₀ cs digest ∧ List.Forall₂ (Made p) cs bs ∧
      sequential p w₀ bs digest = .ok w := by
  rcases inv_exec (.inl ⟨[], [], [], exact_init p src₀ w₀ hn⟩) hg hs with
    ⟨sent, out, stored, h⟩ | hdoom
  · have hended : s.main.Ended := by rw [hw]; trivial
    have hlen : out.length = sent.length := by
      have hcard := congrArg Multiset.card h.seqs
      rw [h.held_eq_zero hended, zero_add] at hcard
      simpa using hcard
    have houts := h.outs
    rw [(h.mainEnded hended).2, hw] at houts
    have hstored : stored = out := by simpa [Main.hand] using houts
    have hmade := h.made
    rw [hlen, List.take_length] at hmade
    have hmain := h.main
    rw [hw] at hmain
    obtain ⟨digest, hdone, hseq⟩ := hmain
    refine ⟨sent, digest, out, ?_, hmade, hstored ▸ hseq⟩
    have hchunker := h.chunker
    rw [hdone] at hchunker
    cases hc : s.chunker with
    | returning | exited =>
      rw [hc] at hchunker
      obtain ⟨digest', hchunks, heq⟩ := hchunker
      cases heq
      exact hchunks
    | _ =>
      rw [hc] at hchunker
      cases hchunker.2.2
  · rcases hdoom with h | ⟨-, h⟩ | ⟨-, h⟩
    · rw [hw] at h
      exact h.elim
    · rw [hw] at h
      exact h.elim
    · rw [hw] at h
      exact absurd trivial h

end Runs

/-! ## Any schedule

Without the guard a success may miss chunks. What it has stored are still chunks of the stream. -/

section Carried

variable (p : Program σ ν α β ω δ) (src₀ : σ) (w₀ : ω)

/-- One of the chunks that `Next` gives. -/
def Emitted (a : α) : Prop := ∃ cs src, Emits p src₀ (cs ++ [a]) src

/-- A prepared chunk of the stream. -/
def Stems (b : β) : Prop := ∃ a, Emitted p src₀ a ∧ Made p a b

/-- The chunker is inside the stream and has not reported, or it is over. -/
def Chunker.Carries : Chunker σ α → Option (Except String δ) → Prop
  | .checking src _, done => (∃ cs, Emits p src₀ cs src) ∧ done = none
  | .reading src _, done => (∃ cs, Emits p src₀ cs src) ∧ done = none
  | .sending src c _, done => (∃ cs, Emits p src₀ (cs ++ [c]) src) ∧ done = none
  | _, _ => True

/-- A worker holds a chunk of the stream. -/
def Worker.Carries : Worker α β → Prop
  | .preparing sc => Emitted p src₀ sc.item
  | .sending pc => Stems p src₀ pc.item
  | _ => True

/-- The chunks the sequencer holds. -/
def Sequencer.items : Sequencer β → List (Numbered β)
  | .receiving heap _ => heap
  | .merging heap _ => heap
  | .sending heap pc _ => pc :: heap
  | .draining heap => heap
  | .flushing heap pc => pc :: heap
  | _ => []

/-- All that the stages hold are chunks of the stream. -/
structure Carries (s : State σ α β ω δ) (stored : List β) : Prop where
  chunker : s.chunker.Carries p src₀ s.chunkerDone
  reported : ∀ digest, s.chunkerDone = some (.ok digest) → ∃ cs, Chunks p src₀ cs digest
  chunkBuf : ∀ x ∈ s.chunkCh.buf, Emitted p src₀ x.item
  workers : ∀ w ∈ s.workers, w.Carries p src₀
  preparedBuf : ∀ x ∈ s.preparedCh.buf, Stems p src₀ x.item
  sequencer : ∀ x ∈ s.sequencer.items, Stems p src₀ x.item
  orderedBuf : ∀ x ∈ s.orderedCh.buf, Stems p src₀ x.item
  hand : ∀ b ∈ s.main.hand, Stems p src₀ b
  kept : ∀ b ∈ stored, Stems p src₀ b
  main : s.main.Lost ∨ s.main.At p w₀ stored s.chunkerDone

variable {p src₀ w₀} {s s' : State σ α β ω δ} {stored : List β}

/-- The report of a chunker that had not reported. -/
lemma Carries.report (h : Carries p src₀ w₀ s stored) (hnone : s.chunkerDone = none)
    (done : Option (Except String δ)) :
    s.main.Lost ∨ s.main.At p w₀ stored done := by
  rcases h.main with hlost | hat
  · exact .inl hlost
  · rw [hnone] at hat
    exact .inr (hat.of_none done)

/-- A step of `run` that is not lost. -/
lemma Carries.main_at (h : Carries p src₀ w₀ s stored) {m : Main β ω δ} (hm : s.main = m)
    (hlive : ¬ m.Lost) : m.At p w₀ stored s.chunkerDone := by
  have hmain := h.main
  rw [hm] at hmain
  exact hmain.resolve_left hlive

lemma Carries.seqItems (h : Carries p src₀ w₀ s stored) {q : Sequencer β}
    (hq : s.sequencer = q) : ∀ x ∈ q.items, Stems p src₀ x.item := by
  rw [← hq]
  exact h.sequencer

/-- A step of `run` to a point where it holds no chunk. -/
lemma Carries.mainMove (h : Carries p src₀ w₀ s stored) {m : Main β ω δ} (hhand : m.hand = [])
    (hmain : m.Lost ∨ m.At p w₀ stored s.chunkerDone) :
    ∃ stored', Carries p src₀ w₀ { s with main := m } stored' := by
  refine ⟨stored, { h with hand := ?_, main := hmain }⟩
  rw [hhand]
  nofun

/-- **One step**, guarded or not. -/
theorem Carries.step {a : Act ν} (h : Carries p src₀ w₀ s stored) (hs : Step p s s' a) :
    ∃ stored', Carries p src₀ w₀ s' stored' := by
  have hchunker := h.chunker
  cases hs with
  | cancel | closePrepared | mainCancel => exact ⟨stored, { h with }⟩
  | chunkerCanceled hc | chunkerErr hc | chunkerQuit hc =>
    rw [hc] at hchunker
    exact ⟨stored, { h with
      chunker := trivial
      reported := nofun
      main := h.report hchunker.2 _ }⟩
  | chunkerGoOn hc hctx =>
    rw [hc] at hchunker
    exact ⟨stored, { h with chunker := hchunker }⟩
  | chunkerChunk hc hnext =>
    rw [hc] at hchunker
    obtain ⟨⟨cs, hemits⟩, hnone⟩ := hchunker
    exact ⟨stored, { h with chunker := ⟨⟨cs, hemits.snoc hnext⟩, hnone⟩ }⟩
  | chunkerEOF hc hnext =>
    rw [hc] at hchunker
    obtain ⟨⟨cs, hemits⟩, hnone⟩ := hchunker
    refine ⟨stored, { h with
      chunker := trivial
      reported := fun digest hdone => ?_
      main := h.report hnone _ }⟩
    cases hdone
    exact ⟨cs, _, hemits, hnext⟩
  | @chunkerSend src seq c hc hopen =>
    rw [hc] at hchunker
    obtain ⟨⟨cs, hemits⟩, hnone⟩ := hchunker
    exact ⟨stored, { h with
      chunker := ⟨⟨_, hemits⟩, hnone⟩
      chunkBuf := List.forall_mem_append.2 ⟨h.chunkBuf, by simpa using ⟨cs, src, hemits⟩⟩ }⟩
  | chunkerClose hc => exact ⟨stored, { h with chunker := trivial }⟩
  | workerRecv hw hbuf =>
    have hbufs := h.chunkBuf
    rw [hbuf, List.forall_mem_cons] at hbufs
    exact ⟨stored, { h with
      chunkBuf := hbufs.2
      workers := forall_mem_set h.workers _ hbufs.1 }⟩
  | workerPrepare hw hb =>
    have hemitted : Emitted p src₀ _ := h.workers _ (List.mem_of_getElem? hw)
    exact ⟨stored, { h with
      workers := forall_mem_set h.workers _ ⟨_, hemitted, _, hb⟩ }⟩
  | workerErr | workerQuit | workerCancel | workerExit =>
    exact ⟨stored, { h with workers := forall_mem_set h.workers _ trivial }⟩
  | workerSend hw hopen =>
    have hstems : Stems p src₀ _ := h.workers _ (List.mem_of_getElem? hw)
    exact ⟨stored, { h with
      workers := forall_mem_set h.workers _ trivial
      preparedBuf := List.forall_mem_append.2 ⟨h.preparedBuf, by simpa using hstems⟩ }⟩
  | seqRecv hq hbuf =>
    have hbufs := h.preparedBuf
    rw [hbuf, List.forall_mem_cons] at hbufs
    refine ⟨stored, { h with
      preparedBuf := hbufs.2
      sequencer := fun x hx => ?_ }⟩
    rcases Numbered.mem_push.1 hx with rfl | hx
    · exact hbufs.1
    · exact h.seqItems hq x hx
  | seqIdle hq | seqDue hq | seqLeft hq | seqDrain hq =>
    have hitems := h.seqItems hq
    exact ⟨stored, { h with sequencer := hitems }⟩
  | seqEmpty | seqQuit | seqClose => exact ⟨stored, { h with sequencer := nofun }⟩
  | @seqSend heap pc _ hq | @seqFlush heap pc hq =>
    have hheld : ∀ x ∈ pc :: heap, Stems p src₀ x.item := h.seqItems hq
    rw [List.forall_mem_cons] at hheld
    exact ⟨stored, { h with
      sequencer := hheld.2
      orderedBuf := List.forall_mem_append.2 ⟨h.orderedBuf, by simpa using hheld.1⟩ }⟩
  | mainRecv hm hbuf =>
    have hbufs := h.orderedBuf
    have hat := h.main_at hm id
    rw [hbuf, List.forall_mem_cons] at hbufs
    exact ⟨stored, { h with
      orderedBuf := hbufs.2
      hand := List.forall_mem_singleton.2 hbufs.1
      main := .inr hat }⟩
  | @mainStore w w' pc hm hw =>
    have hat : storeAll p w₀ stored = .ok w := h.main_at hm id
    have hhand := h.hand
    rw [hm] at hhand
    refine ⟨stored ++ [pc], { h with
      hand := nofun
      kept := List.forall_mem_append.2 ⟨h.kept, hhand⟩
      main := .inr ?_ }⟩
    change storeAll p w₀ (stored ++ [pc]) = .ok w'
    rw [storeAll_append, hat]
    exact hw
  | mainEnd hm | mainCheck hm =>
    have hat := h.main_at hm id
    exact h.mainMove rfl (.inr hat)
  | @mainClose w w' hm hw =>
    have hat : storeAll p w₀ stored = .ok w := h.main_at hm id
    refine h.mainMove rfl (.inr ?_)
    change (storeAll p w₀ stored >>= p.closeEntries) = .ok w'
    rw [hat]
    exact hw
  | mainWait hm hdone => exact h.mainMove rfl (.inr ⟨hdone, h.main_at hm id⟩)
  | @mainFinish w w' digest hm hw =>
    obtain ⟨hdone, hat⟩ := h.main_at hm id
    refine h.mainMove rfl (.inr ⟨digest, hdone, ?_⟩)
    rw [sequential, ← bind_assoc, hat]
    exact hw
  | mainSuspend | mainFail => exact h.mainMove rfl (.inl trivial)

lemma carries_init (p : Program σ ν α β ω δ) (src₀ : σ) (w₀ : ω) (n : ℕ) :
    Carries p src₀ w₀ (State.init src₀ w₀ n) [] where
  chunker := ⟨⟨[], .nil⟩, rfl⟩
  reported := nofun
  chunkBuf := nofun
  workers := fun w hw => by
    rw [List.eq_of_mem_replicate hw]
    trivial
  preparedBuf := nofun
  sequencer := nofun
  orderedBuf := nofun
  hand := nofun
  kept := nofun
  main := .inr rfl

lemma carries_exec {as : List (Act ν)} (h : Carries p src₀ w₀ s stored)
    (hs : exec p s as = some s') : ∃ stored', Carries p src₀ w₀ s' stored' := by
  induction as generalizing s stored with
  | nil =>
    cases hs
    exact ⟨stored, h⟩
  | cons a as ih =>
    obtain ⟨s1, hstep, hrest⟩ := Option.bind_eq_some_iff.1 hs
    obtain ⟨stored1, h1⟩ := h.step (step_rule hstep)
    exact ih h1 hrest

end Carried

end DiskNexus.Pipeline
