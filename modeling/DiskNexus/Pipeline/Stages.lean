import DiskNexus.Lib.Chan

/-!
# The stages of a backup

`Pipeline.run` moves chunks through four stages that run at the same time: the chunker, the hash
workers, the sequencer that puts the prepared chunks back in order, and the store loop, which is
`run` itself. All of them watch one context.

The stages are a transition system: a step is one action of one goroutine, and a schedule is a list
of actions. The code that runs on one chunk is a parameter.
-/

namespace DiskNexus.Pipeline

/-- What one round of the chunker gives: a chunk, `io.EOF` with the digest, or another error. -/
inductive Next (σ α δ : Type)
  | chunk (c : α) (src : σ)
  | eof (digest : δ)
  | err (e : String)

/-- The code that the stages run: the chunker's `Next`, what a worker makes of a chunk, the body of
the store loop, the close of the entry writer, and the end of the backup. `suspendable` says that
the backup is resumable and has a checkpoint. A call that fails gives its error with the state it
leaves. -/
structure Program (σ ν α β ω δ : Type) where
  next : σ → Next σ α δ
  prepare : ν → α → Except String β
  store : ω → β → Except (String × ω) ω
  closeEntries : ω → Except (String × ω) ω
  finish : ω → δ → Except (String × ω) ω
  suspendable : ω → Bool

/-! ## The goroutines -/

/-- The chunker: at the head of its loop, in `Next`, in the `select` that sends a chunk, after the
report on `chunkerDone`, and after it closed `chunkCh`. -/
inductive Chunker (σ α : Type)
  | checking (src : σ) (seq : ℕ)
  | reading (src : σ) (seq : ℕ)
  | sending (src : σ) (chunk : α) (seq : ℕ)
  | returning
  | exited

/-- A hash worker: waiting for a chunk, preparing it, in the `select` that sends it, between the
record of its error and `cancel`, and after its return. -/
inductive Worker (α β : Type)
  | receiving
  | preparing (sc : Numbered α)
  | sending (pc : Numbered β)
  | cancelling
  | exited

/-- The sequencer: waiting for a prepared chunk, at the head of the loop that emits what is due, in
its `select`, at the head of the loop that drains the heap, in its `select`, before it closes
`orderedCh`, and after. -/
inductive Sequencer (β : Type)
  | receiving (heap : List (Numbered β)) (nextSeq : ℕ)
  | merging (heap : List (Numbered β)) (nextSeq : ℕ)
  | sending (heap : List (Numbered β)) (pc : Numbered β) (nextSeq : ℕ)
  | draining (heap : List (Numbered β))
  | flushing (heap : List (Numbered β)) (pc : Numbered β)
  | returning
  | exited

/-- `run` itself: waiting for a chunk, storing it, before closing the entry writer, before the check
for worker errors, waiting for the chunker, before the end of the backup, and after the return. -/
inductive Main (β ω δ : Type)
  | receiving (w : ω)
  | storing (w : ω) (pc : β)
  | closing (w : ω)
  | checking (w : ω)
  | waiting (w : ω)
  | finishing (w : ω) (digest : δ)
  | succeeded (w : ω)
  | suspended (w : ω)
  | failed (e : String) (w : ω)

/-- The state of a backup in progress. `ctxErr` is the pipeline's own context and `parentErr` the
caller's. `chunkerDone` has the digest in place of a nil error. -/
structure State (σ α β ω δ : Type) where
  chunker : Chunker σ α
  chunkCh : Chan (Numbered α)
  workers : List (Worker α β)
  preparedCh : Chan (Numbered β)
  sequencer : Sequencer β
  orderedCh : Chan (Numbered β)
  main : Main β ω δ
  workerErr : Option String
  chunkerDone : Option (Except String δ)
  ctxErr : Bool
  parentErr : Bool

/-- The actions. `cancel` is the caller's; a draw is a worker's randomness. -/
inductive Act (ν : Type)
  | cancel
  | chunkerCheck
  | chunkerNext
  | chunkerSend
  | chunkerQuit
  | chunkerClose
  | workerRecv (i : ℕ)
  | workerPrepare (i : ℕ) (draw : ν)
  | workerSend (i : ℕ)
  | workerQuit (i : ℕ)
  | workerCancel (i : ℕ)
  | workerExit (i : ℕ)
  | closePrepared
  | seqRecv
  | seqMerge
  | seqSend
  | seqQuit
  | seqDrain
  | seqClose
  | mainRecv
  | mainStore
  | mainEnd
  | mainClose
  | mainCheck
  | mainWait
  | mainFinish
  | mainCancel

/-- The capacity of the three channels. -/
def channelCap : ℕ := 64

/-- The number of hash workers. -/
def numWorkers (hashWorkers : ℤ) (numCPU : ℕ) : ℕ :=
  if hashWorkers ≤ 0 then
    if numCPU > 1 then numCPU - 1 else 1
  else hashWorkers.toNat

lemma numWorkers_pos (hashWorkers : ℤ) (numCPU : ℕ) : 0 < numWorkers hashWorkers numCPU := by
  unfold numWorkers
  split
  · split
    · omega
    · exact Nat.one_pos
  · omega

/-- The error of a context that was cancelled. -/
def ctxCanceled : String := "context canceled"

section Steps

variable {σ ν α β ω δ : Type} (p : Program σ ν α β ω δ) (i : ℕ) (s : State σ α β ω δ)

/-- The state in which the goroutines start. -/
def State.init (src : σ) (w : ω) (workers : ℕ) : State σ α β ω δ :=
  ⟨.checking src 0, .new, List.replicate workers .receiving, .new, .receiving [] 0, .new,
    .receiving w, none, none, false, false⟩

/-! ## The actions -/

/-- The caller's context is cancelled, and the pipeline's with it. -/
def cancel : Option (State σ α β ω δ) :=
  some { s with ctxErr := true, parentErr := true }

/-- The chunker looks at the context at the head of its loop. -/
def chunkerCheck : Option (State σ α β ω δ) :=
  match s.chunker with
  | .checking src seq =>
    if s.ctxErr then
      some { s with chunker := .returning, chunkerDone := some (.error ctxCanceled) }
    else some { s with chunker := .reading src seq }
  | _ => none

/-- The chunker reads the next chunk. -/
def chunkerNext : Option (State σ α β ω δ) :=
  match s.chunker with
  | .reading src seq =>
    match p.next src with
    | .chunk c src => some { s with chunker := .sending src c seq }
    | .eof digest => some { s with chunker := .returning, chunkerDone := some (.ok digest) }
    | .err e => some { s with
        chunker := .returning, chunkerDone := some (.error s!"chunker: {e}") }
  | _ => none

/-- The chunker sends its chunk. -/
def chunkerSend : Option (State σ α β ω δ) :=
  match s.chunker with
  | .sending src c seq =>
    (s.chunkCh.send channelCap ⟨c, seq⟩).map fun ch =>
      { s with chunkCh := ch, chunker := .checking src (seq + 1) }
  | _ => none

/-- The chunker sees the end of the context instead of sending. -/
def chunkerQuit : Option (State σ α β ω δ) :=
  match s.chunker with
  | .sending _ _ _ =>
    if s.ctxErr then
      some { s with chunker := .returning, chunkerDone := some (.error ctxCanceled) }
    else none
  | _ => none

/-- The chunker's deferred close of its channel. -/
def chunkerClose : Option (State σ α β ω δ) :=
  match s.chunker with
  | .returning => some { s with chunker := .exited, chunkCh := s.chunkCh.close }
  | _ => none

/-- A worker takes the next chunk. -/
def workerRecv : Option (State σ α β ω δ) :=
  match s.workers[i]? with
  | some .receiving =>
    s.chunkCh.recv.map fun r =>
      { s with chunkCh := r.2, workers := s.workers.set i (.preparing r.1) }
  | _ => none

/-- A worker prepares its chunk, or records the error. -/
def workerPrepare (i : ℕ) (draw : ν) (s : State σ α β ω δ) : Option (State σ α β ω δ) :=
  match s.workers[i]? with
  | some (.preparing sc) =>
    match p.prepare draw sc.item with
    | .ok b => some { s with workers := s.workers.set i (.sending ⟨b, sc.seq⟩) }
    | .error e => some { s with
        workers := s.workers.set i .cancelling
        workerErr := some (s.workerErr.getD e) }
  | _ => none

/-- A worker sends its prepared chunk. -/
def workerSend : Option (State σ α β ω δ) :=
  match s.workers[i]? with
  | some (.sending pc) =>
    (s.preparedCh.send channelCap pc).map fun ch =>
      { s with preparedCh := ch, workers := s.workers.set i .receiving }
  | _ => none

/-- A worker sees the end of the context instead of sending. -/
def workerQuit : Option (State σ α β ω δ) :=
  match s.workers[i]? with
  | some (.sending _) =>
    if s.ctxErr then some { s with workers := s.workers.set i .exited } else none
  | _ => none

/-- A worker that recorded its error cancels the pipeline. -/
def workerCancel : Option (State σ α β ω δ) :=
  match s.workers[i]? with
  | some .cancelling => some { s with workers := s.workers.set i .exited, ctxErr := true }
  | _ => none

/-- A worker's loop ends with its channel. -/
def workerExit : Option (State σ α β ω δ) :=
  match s.workers[i]? with
  | some .receiving =>
    if s.chunkCh.drained then some { s with workers := s.workers.set i .exited } else none
  | _ => none

/-- Whether a worker has returned. -/
def Worker.isExited : Worker α β → Bool
  | .exited => true
  | _ => false

/-- `preparedCh` is closed when all workers have returned. -/
def closePrepared : Option (State σ α β ω δ) :=
  if s.workers.all Worker.isExited then some { s with preparedCh := s.preparedCh.close } else none

/-- The sequencer takes a prepared chunk and pushes it on its heap. -/
def seqRecv : Option (State σ α β ω δ) :=
  match s.sequencer with
  | .receiving heap nextSeq =>
    s.preparedCh.recv.map fun r =>
      { s with preparedCh := r.2, sequencer := .merging (Numbered.push heap r.1) nextSeq }
  | _ => none

/-- The sequencer pops the top of the heap if its turn has come, or `preparedCh` is closed. -/
def seqMerge : Option (State σ α β ω δ) :=
  match s.sequencer with
  | .merging [] nextSeq => some { s with sequencer := .receiving [] nextSeq }
  | .merging (pc :: heap) nextSeq =>
    if pc.seq = nextSeq then some { s with sequencer := .sending heap pc nextSeq }
    else some { s with sequencer := .receiving (pc :: heap) nextSeq }
  | .draining [] => some { s with sequencer := .returning }
  | .draining (pc :: heap) => some { s with sequencer := .flushing heap pc }
  | _ => none

/-- The sequencer sends a chunk to the store loop. -/
def seqSend : Option (State σ α β ω δ) :=
  match s.sequencer with
  | .sending heap pc nextSeq =>
    (s.orderedCh.send channelCap pc).map fun ch =>
      { s with orderedCh := ch, sequencer := .merging heap (nextSeq + 1) }
  | .flushing heap pc =>
    (s.orderedCh.send channelCap pc).map fun ch =>
      { s with orderedCh := ch, sequencer := .draining heap }
  | _ => none

/-- The sequencer sees the end of the context instead of sending. -/
def seqQuit : Option (State σ α β ω δ) :=
  match s.sequencer with
  | .sending _ _ _ => if s.ctxErr then some { s with sequencer := .returning } else none
  | .flushing _ _ => if s.ctxErr then some { s with sequencer := .returning } else none
  | _ => none

/-- The sequencer's loop ends with its channel. -/
def seqDrain : Option (State σ α β ω δ) :=
  match s.sequencer with
  | .receiving heap _ =>
    if s.preparedCh.drained then some { s with sequencer := .draining heap } else none
  | _ => none

/-- The sequencer's deferred close of its channel. -/
def seqClose : Option (State σ α β ω δ) :=
  match s.sequencer with
  | .returning => some { s with sequencer := .exited, orderedCh := s.orderedCh.close }
  | _ => none

/-- The store loop takes the next chunk. -/
def mainRecv : Option (State σ α β ω δ) :=
  match s.main with
  | .receiving w =>
    s.orderedCh.recv.map fun r => { s with orderedCh := r.2, main := .storing w r.1.item }
  | _ => none

/-- The state of `run` after a call that may fail. -/
def proceed (r : Except (String × ω) ω) (k : ω → Main β ω δ) : State σ α β ω δ :=
  match r with
  | .ok w => { s with main := k w }
  | .error (e, w) => { s with main := .failed e w }

/-- The store loop stores a chunk and writes its entry. -/
def mainStore : Option (State σ α β ω δ) :=
  match s.main with
  | .storing w pc => some (proceed s (p.store w pc) .receiving)
  | _ => none

/-- The store loop ends with its channel. -/
def mainEnd : Option (State σ α β ω δ) :=
  match s.main with
  | .receiving w => if s.orderedCh.drained then some { s with main := .closing w } else none
  | _ => none

/-- `run` closes the entry writer. -/
def mainClose : Option (State σ α β ω δ) :=
  match s.main with
  | .closing w => some (proceed s (p.closeEntries w) .checking)
  | _ => none

/-- `run` looks for an error of a worker. -/
def mainCheck : Option (State σ α β ω δ) :=
  match s.main with
  | .checking w =>
    match s.workerErr with
    | some e => some { s with main := .failed s!"hash worker: {e}" w }
    | none => some { s with main := .waiting w }
  | _ => none

/-- `run` waits for the report of the chunker. -/
def mainWait : Option (State σ α β ω δ) :=
  match s.main with
  | .waiting w =>
    match s.chunkerDone with
    | none => none
    | some (.ok digest) => some { s with main := .finishing w digest }
    | some (.error e) =>
      if p.suspendable w && s.parentErr then some { s with main := .suspended w }
      else some { s with main := .failed e w }
  | _ => none

/-- `run` ends the backup. -/
def mainFinish : Option (State σ α β ω δ) :=
  match s.main with
  | .finishing w digest => some (proceed s (p.finish w digest) .succeeded)
  | _ => none

/-- The deferred `cancel` of a `run` that returned. -/
def mainCancel : Option (State σ α β ω δ) :=
  match s.main with
  | .succeeded _ => some { s with ctxErr := true }
  | .suspended _ => some { s with ctxErr := true }
  | .failed _ _ => some { s with ctxErr := true }
  | _ => none

/-- One action; `none` if the goroutine cannot take it now. -/
def step : Act ν → Option (State σ α β ω δ)
  | .cancel => cancel s
  | .chunkerCheck => chunkerCheck s
  | .chunkerNext => chunkerNext p s
  | .chunkerSend => chunkerSend s
  | .chunkerQuit => chunkerQuit s
  | .chunkerClose => chunkerClose s
  | .workerRecv i => workerRecv i s
  | .workerPrepare i draw => workerPrepare p i draw s
  | .workerSend i => workerSend i s
  | .workerQuit i => workerQuit i s
  | .workerCancel i => workerCancel i s
  | .workerExit i => workerExit i s
  | .closePrepared => closePrepared s
  | .seqRecv => seqRecv s
  | .seqMerge => seqMerge s
  | .seqSend => seqSend s
  | .seqQuit => seqQuit s
  | .seqDrain => seqDrain s
  | .seqClose => seqClose s
  | .mainRecv => mainRecv s
  | .mainStore => mainStore p s
  | .mainEnd => mainEnd s
  | .mainClose => mainClose p s
  | .mainCheck => mainCheck s
  | .mainWait => mainWait p s
  | .mainFinish => mainFinish p s
  | .mainCancel => mainCancel s

/-- The state after a schedule. -/
def exec (s : State σ α β ω δ) : List (Act ν) → Option (State σ α β ω δ)
  | [] => some s
  | a :: as => (step p s a).bind fun s => exec s as

lemma exec_append (s : State σ α β ω δ) (as bs : List (Act ν)) :
    exec p s (as ++ bs) = (exec p s as).bind fun s' => exec p s' bs := by
  induction as generalizing s with
  | nil => rfl
  | cons a as ih =>
    simp only [List.cons_append, exec, Option.bind_assoc]
    exact congrArg _ (funext ih)

end Steps

/-! ## The rules

What each action can do, with what it found, in one relation. -/

/-- The ways in which `run` returns an error, with the state it leaves. -/
inductive Fails {σ ν α β ω δ : Type} (p : Program σ ν α β ω δ) (s : State σ α β ω δ) (e : String)
    (w : ω) : Act ν → Prop
  | store {w₀ pc} (hm : s.main = .storing w₀ pc) (he : p.store w₀ pc = .error (e, w)) :
      Fails p s e w .mainStore
  | close {w₀} (hm : s.main = .closing w₀) (he : p.closeEntries w₀ = .error (e, w)) :
      Fails p s e w .mainClose
  | worker (hm : s.main = .checking w) (herr : s.workerErr.isSome) : Fails p s e w .mainCheck
  | chunker (hm : s.main = .waiting w) (hdone : s.chunkerDone = some (.error e))
      (hsus : (p.suspendable w && s.parentErr) = false) : Fails p s e w .mainWait
  | finish {w₀ digest} (hm : s.main = .finishing w₀ digest)
      (he : p.finish w₀ digest = .error (e, w)) : Fails p s e w .mainFinish

/-- The cases of `step`. -/
inductive Step {σ ν α β ω δ : Type} (p : Program σ ν α β ω δ) (s : State σ α β ω δ) :
    State σ α β ω δ → Act ν → Prop
  | cancel : Step p s { s with ctxErr := true, parentErr := true } .cancel
  | chunkerCanceled {src seq} (hc : s.chunker = .checking src seq) (hctx : s.ctxErr = true) :
      Step p s { s with chunker := .returning, chunkerDone := some (.error ctxCanceled) }
        .chunkerCheck
  | chunkerGoOn {src seq} (hc : s.chunker = .checking src seq)
      (hctx : s.ctxErr = false) : Step p s { s with chunker := .reading src seq } .chunkerCheck
  | chunkerChunk {src src' seq c} (hc : s.chunker = .reading src seq)
      (hnext : p.next src = .chunk c src') :
      Step p s { s with chunker := .sending src' c seq } .chunkerNext
  | chunkerEOF {src seq digest} (hc : s.chunker = .reading src seq)
      (hnext : p.next src = .eof digest) :
      Step p s { s with chunker := .returning, chunkerDone := some (.ok digest) } .chunkerNext
  | chunkerErr {src seq e} (hc : s.chunker = .reading src seq) (hnext : p.next src = .err e) :
      Step p s { s with
        chunker := .returning, chunkerDone := some (.error s!"chunker: {e}") } .chunkerNext
  | chunkerSend {src seq c} (hc : s.chunker = .sending src c seq)
      (hopen : s.chunkCh.closed = false) :
      Step p s { s with
        chunkCh := ⟨s.chunkCh.buf ++ [⟨c, seq⟩], false⟩
        chunker := .checking src (seq + 1) } .chunkerSend
  | chunkerQuit {src seq c} (hc : s.chunker = .sending src c seq) (hctx : s.ctxErr = true) :
      Step p s { s with chunker := .returning, chunkerDone := some (.error ctxCanceled) }
        .chunkerQuit
  | chunkerClose (hc : s.chunker = .returning) :
      Step p s { s with chunker := .exited, chunkCh := s.chunkCh.close } .chunkerClose
  | workerRecv {i sc rest}
      (hw : s.workers[i]? = some .receiving) (hbuf : s.chunkCh.buf = sc :: rest) :
      Step p s { s with
        chunkCh := ⟨rest, s.chunkCh.closed⟩
        workers := s.workers.set i (.preparing sc) } (.workerRecv i)
  | workerPrepare {i sc draw b}
      (hw : s.workers[i]? = some (.preparing sc)) (hb : p.prepare draw sc.item = .ok b) :
      Step p s { s with workers := s.workers.set i (.sending ⟨b, sc.seq⟩) } (.workerPrepare i draw)
  | workerErr {i sc draw e}
      (hw : s.workers[i]? = some (.preparing sc)) (he : p.prepare draw sc.item = .error e) :
      Step p s { s with
        workers := s.workers.set i .cancelling
        workerErr := some (s.workerErr.getD e) } (.workerPrepare i draw)
  | workerSend {i pc} (hw : s.workers[i]? = some (.sending pc))
      (hopen : s.preparedCh.closed = false) :
      Step p s { s with
        preparedCh := ⟨s.preparedCh.buf ++ [pc], false⟩
        workers := s.workers.set i .receiving } (.workerSend i)
  | workerQuit {i pc} (hw : s.workers[i]? = some (.sending pc)) (hctx : s.ctxErr = true) :
      Step p s { s with workers := s.workers.set i .exited } (.workerQuit i)
  | workerCancel {i} (hw : s.workers[i]? = some .cancelling) :
      Step p s { s with workers := s.workers.set i .exited, ctxErr := true } (.workerCancel i)
  | workerExit {i} (hw : s.workers[i]? = some .receiving) (hclosed : s.chunkCh.closed = true)
      (hbuf : s.chunkCh.buf = []) :
      Step p s { s with workers := s.workers.set i .exited } (.workerExit i)
  | closePrepared (hall : ∀ w ∈ s.workers, w = .exited) :
      Step p s { s with preparedCh := s.preparedCh.close } .closePrepared
  | seqRecv {heap next pc rest}
      (hq : s.sequencer = .receiving heap next) (hbuf : s.preparedCh.buf = pc :: rest) :
      Step p s { s with
        preparedCh := ⟨rest, s.preparedCh.closed⟩
        sequencer := .merging (Numbered.push heap pc) next } .seqRecv
  | seqIdle {heap next} (hq : s.sequencer = .merging heap next)
      (hhead : ∀ pc ∈ heap.head?, pc.seq ≠ next) :
      Step p s { s with sequencer := .receiving heap next } .seqMerge
  | seqDue {heap next pc} (hq : s.sequencer = .merging (pc :: heap) next) (hpc : pc.seq = next) :
      Step p s { s with sequencer := .sending heap pc next } .seqMerge
  | seqEmpty (hq : s.sequencer = .draining []) :
      Step p s { s with sequencer := .returning } .seqMerge
  | seqLeft {heap pc} (hq : s.sequencer = .draining (pc :: heap)) :
      Step p s { s with sequencer := .flushing heap pc } .seqMerge
  | seqSend {heap pc next}
      (hq : s.sequencer = .sending heap pc next) (hopen : s.orderedCh.closed = false) :
      Step p s { s with
        orderedCh := ⟨s.orderedCh.buf ++ [pc], false⟩
        sequencer := .merging heap (next + 1) } .seqSend
  | seqFlush {heap pc} (hq : s.sequencer = .flushing heap pc) (hopen : s.orderedCh.closed = false) :
      Step p s { s with
        orderedCh := ⟨s.orderedCh.buf ++ [pc], false⟩
        sequencer := .draining heap } .seqSend
  | seqQuit {heap pc}
      (hq : (∃ next, s.sequencer = .sending heap pc next) ∨ s.sequencer = .flushing heap pc)
      (hctx : s.ctxErr = true) : Step p s { s with sequencer := .returning } .seqQuit
  | seqDrain {heap next} (hq : s.sequencer = .receiving heap next)
      (hclosed : s.preparedCh.closed = true) (hbuf : s.preparedCh.buf = []) :
      Step p s { s with sequencer := .draining heap } .seqDrain
  | seqClose (hq : s.sequencer = .returning) :
      Step p s { s with sequencer := .exited, orderedCh := s.orderedCh.close } .seqClose
  | mainRecv {w pc rest} (hm : s.main = .receiving w) (hbuf : s.orderedCh.buf = pc :: rest) :
      Step p s { s with
        orderedCh := ⟨rest, s.orderedCh.closed⟩
        main := .storing w pc.item } .mainRecv
  | mainStore {w w' pc} (hm : s.main = .storing w pc) (hw : p.store w pc = .ok w') :
      Step p s { s with main := .receiving w' } .mainStore
  | mainEnd {w} (hm : s.main = .receiving w) (hclosed : s.orderedCh.closed = true)
      (hbuf : s.orderedCh.buf = []) : Step p s { s with main := .closing w } .mainEnd
  | mainClose {w w'} (hm : s.main = .closing w) (hw : p.closeEntries w = .ok w') :
      Step p s { s with main := .checking w' } .mainClose
  | mainCheck {w} (hm : s.main = .checking w) (herr : s.workerErr = none) :
      Step p s { s with main := .waiting w } .mainCheck
  | mainWait {w digest} (hm : s.main = .waiting w) (hdone : s.chunkerDone = some (.ok digest)) :
      Step p s { s with main := .finishing w digest } .mainWait
  | mainFinish {w w' digest} (hm : s.main = .finishing w digest)
      (hw : p.finish w digest = .ok w') : Step p s { s with main := .succeeded w' } .mainFinish
  | mainSuspend {w e} (hm : s.main = .waiting w)
      (hdone : s.chunkerDone = some (.error e)) (hsus : (p.suspendable w && s.parentErr) = true) :
      Step p s { s with main := .suspended w } .mainWait
  | mainFail {a e w} (hfails : Fails p s e w a) :
      Step p s { s with main := .failed e w } a
  | mainCancel (hm : (∃ w, s.main = .succeeded w) ∨ (∃ w, s.main = .suspended w) ∨
      ∃ e w, s.main = .failed e w) : Step p s { s with ctxErr := true } .mainCancel

section Rules

variable {σ ν α β ω δ : Type} {p : Program σ ν α β ω δ} {s s' : State σ α β ω δ}

/-- The calls of `run` that may fail. -/
lemma proceed_rule {a : Act ν} {r : Except (String × ω) ω} {k : ω → Main β ω δ}
    (hok : ∀ w, r = .ok w → Step p s { s with main := k w } a)
    (herr : ∀ e w, r = .error (e, w) → Fails p s e w a) : Step p s (proceed s r k) a := by
  cases r with
  | ok w => exact hok w rfl
  | error r => exact .mainFail (herr r.1 r.2 rfl)

/-- **Every step follows a rule.** -/
theorem step_rule {a : Act ν} (h : step p s a = some s') : Step p s s' a := by
  cases a with
  | cancel =>
    cases h
    exact .cancel
  | chunkerCheck =>
    rw [step, chunkerCheck] at h
    split at h
    · rename_i hc
      split at h <;> cases h
      · exact .chunkerCanceled hc (by assumption)
      · exact .chunkerGoOn hc (Bool.eq_false_iff.2 (by assumption))
    · cases h
  | chunkerNext =>
    rw [step, chunkerNext] at h
    split at h
    · rename_i hc
      split at h <;> cases h
      · exact .chunkerChunk hc (by assumption)
      · exact .chunkerEOF hc (by assumption)
      · exact .chunkerErr hc (by assumption)
    · cases h
  | chunkerSend =>
    rw [step, chunkerSend] at h
    split at h
    · rename_i hc
      obtain ⟨hopen, rfl⟩ := Chan.map_send_eq_some h
      exact .chunkerSend hc hopen
    · cases h
  | chunkerQuit =>
    rw [step, chunkerQuit] at h
    split at h
    · rename_i hc
      obtain ⟨hctx, ⟨⟩⟩ := Option.ite_none_right_eq_some.1 h
      exact .chunkerQuit hc hctx
    · cases h
  | chunkerClose =>
    rw [step, chunkerClose] at h
    split at h <;> cases h
    exact .chunkerClose (by assumption)
  | workerRecv i =>
    rw [step, workerRecv] at h
    split at h
    · rename_i hw
      obtain ⟨sc, rest, hbuf, rfl⟩ := Chan.map_recv_eq_some h
      exact .workerRecv hw hbuf
    · cases h
  | workerPrepare i draw =>
    rw [step, workerPrepare] at h
    split at h
    · rename_i hw
      split at h <;> cases h
      · exact .workerPrepare hw (by assumption)
      · exact .workerErr hw (by assumption)
    · cases h
  | workerSend i =>
    rw [step, workerSend] at h
    split at h
    · rename_i hw
      obtain ⟨hopen, rfl⟩ := Chan.map_send_eq_some h
      exact .workerSend hw hopen
    · cases h
  | workerQuit i =>
    rw [step, workerQuit] at h
    split at h
    · rename_i hw
      obtain ⟨hctx, ⟨⟩⟩ := Option.ite_none_right_eq_some.1 h
      exact .workerQuit hw hctx
    · cases h
  | workerCancel i =>
    rw [step, workerCancel] at h
    split at h <;> cases h
    exact .workerCancel (by assumption)
  | workerExit i =>
    rw [step, workerExit] at h
    split at h
    · rename_i hw
      obtain ⟨hclosed, hbuf, rfl⟩ := Chan.ite_drained_eq_some h
      exact .workerExit hw hclosed hbuf
    · cases h
  | closePrepared =>
    rw [step, closePrepared] at h
    split at h <;> cases h
    rename_i hall
    refine .closePrepared fun w hw => ?_
    have hexited := List.all_eq_true.1 hall w hw
    cases w with
    | exited => rfl
    | _ => cases hexited
  | seqRecv =>
    rw [step, seqRecv] at h
    split at h
    · rename_i hq
      obtain ⟨pc, rest, hbuf, rfl⟩ := Chan.map_recv_eq_some h
      exact .seqRecv hq hbuf
    · cases h
  | seqMerge =>
    rw [step, seqMerge] at h
    split at h
    · cases h
      exact .seqIdle (by assumption) (by simp)
    · rename_i hq
      split at h <;> cases h
      · exact .seqDue hq (by assumption)
      · rename_i hne
        exact .seqIdle hq (by simpa using hne)
    · cases h
      exact .seqEmpty (by assumption)
    · cases h
      exact .seqLeft (by assumption)
    · cases h
  | seqSend =>
    rw [step, seqSend] at h
    split at h
    · rename_i hq
      obtain ⟨hopen, rfl⟩ := Chan.map_send_eq_some h
      exact .seqSend hq hopen
    · rename_i hq
      obtain ⟨hopen, rfl⟩ := Chan.map_send_eq_some h
      exact .seqFlush hq hopen
    · cases h
  | seqQuit =>
    rw [step, seqQuit] at h
    split at h
    · rename_i hq
      obtain ⟨hctx, ⟨⟩⟩ := Option.ite_none_right_eq_some.1 h
      exact .seqQuit (.inl ⟨_, hq⟩) hctx
    · rename_i hq
      obtain ⟨hctx, ⟨⟩⟩ := Option.ite_none_right_eq_some.1 h
      exact .seqQuit (.inr hq) hctx
    · cases h
  | seqDrain =>
    rw [step, seqDrain] at h
    split at h
    · rename_i hq
      obtain ⟨hclosed, hbuf, rfl⟩ := Chan.ite_drained_eq_some h
      exact .seqDrain hq hclosed hbuf
    · cases h
  | seqClose =>
    rw [step, seqClose] at h
    split at h <;> cases h
    exact .seqClose (by assumption)
  | mainRecv =>
    rw [step, mainRecv] at h
    split at h
    · rename_i hm
      obtain ⟨pc, rest, hbuf, rfl⟩ := Chan.map_recv_eq_some h
      exact .mainRecv hm hbuf
    · cases h
  | mainStore =>
    rw [step, mainStore] at h
    split at h <;> cases h
    rename_i hm
    exact proceed_rule (fun w' hw => .mainStore hm hw) fun e w' he => .store hm he
  | mainEnd =>
    rw [step, mainEnd] at h
    split at h
    · rename_i hm
      obtain ⟨hclosed, hbuf, rfl⟩ := Chan.ite_drained_eq_some h
      exact .mainEnd hm hclosed hbuf
    · cases h
  | mainClose =>
    rw [step, mainClose] at h
    split at h <;> cases h
    rename_i hm
    exact proceed_rule (fun w' hw => .mainClose hm hw) fun e w' he => .close hm he
  | mainCheck =>
    rw [step, mainCheck] at h
    split at h
    · rename_i hm
      split at h <;> cases h
      · rename_i herr
        exact .mainFail (.worker hm (by simp [herr]))
      · exact .mainCheck hm (by assumption)
    · cases h
  | mainWait =>
    rw [step, mainWait] at h
    split at h
    · rename_i hm
      split at h
      · cases h
      · cases h
        exact .mainWait hm (by assumption)
      · rename_i hdone
        split at h <;> cases h
        · exact .mainSuspend hm hdone (by assumption)
        · exact .mainFail (.chunker hm hdone (Bool.eq_false_iff.2 (by assumption)))
    · cases h
  | mainFinish =>
    rw [step, mainFinish] at h
    split at h <;> cases h
    rename_i hm
    exact proceed_rule (fun w' hw => .mainFinish hm hw) fun e w' he => .finish hm he
  | mainCancel =>
    rw [step, mainCancel] at h
    split at h <;> cases h
    · exact .mainCancel (.inl ⟨_, by assumption⟩)
    · exact .mainCancel (.inr (.inl ⟨_, by assumption⟩))
    · exact .mainCancel (.inr (.inr ⟨_, _, by assumption⟩))

end Rules

/-! ## What the calls keep -/

section Keeps

variable {σ ν α β ω δ : Type} {p : Program σ ν α β ω δ} {P : ω → Prop}

/-- What the store loop works on. -/
def Main.world : Main β ω δ → ω
  | .receiving w | .storing w _ | .closing w | .checking w | .waiting w | .finishing w _
  | .succeeded w | .suspended w | .failed _ w => w

/-- A call leaves a state with the property `P`, whether it fails or not. -/
def Leaves (P : ω → Prop) : Except (String × ω) ω → Prop
  | .ok w => P w
  | .error (_, w) => P w

lemma Leaves.of_ok {r : Except (String × ω) ω} (h : Leaves P r) {w : ω} (hr : r = .ok w) : P w := by
  rwa [hr] at h

lemma Leaves.of_error {r : Except (String × ω) ω} (h : Leaves P r) {e : String} {w : ω}
    (hr : r = .error (e, w)) : P w := by
  rwa [hr] at h

lemma Leaves.bind {r : Except (String × ω) ω} {f : ω → Except (String × ω) ω} (hr : Leaves P r)
    (hf : ∀ w, P w → Leaves P (f w)) : Leaves P (r >>= f) := by
  cases r with
  | error e => exact hr
  | ok w => exact hf w hr

/-- The calls of `run` that are still to come keep a property. -/
structure Keeps (p : Program σ ν α β ω δ) (P : ω → Prop) (as : List (Act ν)) : Prop where
  store : ∀ w pc, P w → Leaves P (p.store w pc)
  close : ∀ w, P w → Leaves P (p.closeEntries w)
  finish : .mainFinish ∈ as → ∀ w digest, P w → Leaves P (p.finish w digest)

lemma Keeps.fails {as : List (Act ν)} {a : Act ν} (h : Keeps p P (a :: as))
    {s : State σ α β ω δ} (hs : P s.main.world) {e : String} {w : ω} (hfails : Fails p s e w a) :
    P w := by
  cases hfails with
  | store hm he =>
    exact (h.store _ _ (by rwa [hm] at hs)).of_error he
  | close hm he =>
    exact (h.close _ (by rwa [hm] at hs)).of_error he
  | worker hm | chunker hm => rwa [hm] at hs
  | finish hm he =>
    exact (h.finish (List.mem_cons_self ..) _ _ (by rwa [hm] at hs)).of_error he

lemma Keeps.step {as : List (Act ν)} {a : Act ν} (h : Keeps p P (a :: as))
    {s s' : State σ α β ω δ} (hstep : Step p s s' a) (hs : P s.main.world) : P s'.main.world := by
  cases hstep with
  | mainRecv hm | mainEnd hm | mainCheck hm | mainWait hm | mainSuspend hm => rwa [hm] at hs
  | mainStore hm hw =>
    exact (h.store _ _ (by rwa [hm] at hs)).of_ok hw
  | mainClose hm hw =>
    exact (h.close _ (by rwa [hm] at hs)).of_ok hw
  | mainFinish hm hw =>
    exact (h.finish (List.mem_cons_self ..) _ _ (by rwa [hm] at hs)).of_ok hw
  | mainFail hfails => exact h.fails hs hfails
  | _ => exact hs

/-- **What the calls of `run` keep holds all along a schedule.** -/
theorem Keeps.exec {as : List (Act ν)} (h : Keeps p P as) {s s' : State σ α β ω δ}
    (hexec : exec p s as = some s') (hs : P s.main.world) : P s'.main.world := by
  induction as generalizing s with
  | nil =>
    cases hexec
    exact hs
  | cons a as ih =>
    obtain ⟨s1, hstep, hrest⟩ := Option.bind_eq_some_iff.1 hexec
    exact ih ⟨h.store, h.close, fun hmem => h.finish (.tail _ hmem)⟩ hrest
      (h.step (step_rule hstep) hs)

end Keeps

end DiskNexus.Pipeline
