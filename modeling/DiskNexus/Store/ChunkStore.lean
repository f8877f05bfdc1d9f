import DiskNexus.Store.Frame
import Mathlib.Data.List.AList

/-!
# The chunk store

`store.ChunkStore` appends frames to numbered pack files. It keeps its own offset counter, advanced
by every call that succeeds, while the file grows by whatever a write managed to put there. The
store is the only writer of its packs, so a write extends the file.

## Main results

`ChunkStore.call_outcome`, `ChunkStore.call_extends`
-/

namespace DiskNexus.Store

open Binary

/-- The pack files of a repository, by number. -/
abbrev Packs := AList (fun _ : ℕ => Bytes)

/-- The contents of a pack, empty if there is none. -/
def fileOf (packs : Packs) (n : ℕ) : Bytes := (packs.lookup n).getD []

lemma fileOf_insert (packs : Packs) (n : ℕ) (file : Bytes) :
    fileOf (packs.insert n file) = Function.update (fileOf packs) n file := by
  funext m
  rw [Function.update_apply, fileOf]
  split_ifs with h
  · rw [h, AList.lookup_insert]
    rfl
  · rw [AList.lookup_insert_ne h]
    rfl

/-- The file a store appends to: not opened yet, open, or closed by a failed rotation. -/
inductive PackHandle
  | unopened
  | opened
  | closed
  deriving DecidableEq, Repr

/-- `store.ChunkStore`, with the pack files under its directory. -/
structure ChunkStore where
  packs : Packs
  codec : Codec
  maxPackSize : ℤ
  currentPack : PackHandle
  currentPackNum : ℕ
  currentOffset : ℕ

/-- The step of a rotation that fails. -/
inductive RotateFault
  | sync
  | close
  | onPackSealed
  | openPack
  deriving DecidableEq, Repr

/-- The filesystem calls that fail in one operation. A write may leave some of its bytes. -/
structure Faults where
  openPack : Bool
  rotate : Option RotateFault
  header : Option ℕ
  data : Option ℕ
  deriving DecidableEq

/-- Nothing fails. -/
def Faults.none : Faults := ⟨false, .none, .none, .none⟩

/-- Where a successful operation put its frame. -/
structure Stored where
  packNum : ℕ
  offset : ℕ
  compressedSize : ℕ
  deriving DecidableEq, Repr

variable {s s₁ s' : ChunkStore} {r : Stored}

namespace ChunkStore

/-! ## Opening and rotating packs -/

/-- `findLatestPack`: the highest pack number, or zero. -/
def findLatestPack (packs : Packs) : ℕ := packs.keys.foldl max 0

/-- `NewChunkStoreAt`: the pack is opened on the first write. -/
def newChunkStoreAt (packs : Packs) (codec : Codec) (maxPackSize : ℤ) (startPack : ℕ) :
    ChunkStore :=
  ⟨packs, codec, maxPackSize, .unopened, startPack, 0⟩

/-- `NewChunkStore`: continue in the latest pack. -/
def newChunkStore (packs : Packs) (codec : Codec) (maxPackSize : ℤ) : ChunkStore :=
  newChunkStoreAt packs codec maxPackSize (findLatestPack packs)

/-- The bytes of the pack the store appends to. -/
def currentFile (s : ChunkStore) : Bytes := (s.packs.lookup s.currentPackNum).getD []

/-- `openCurrentPack`: create the file if it is missing, and append at its end. -/
def openCurrentPack (s : ChunkStore) (fails : Bool) : Except String Unit × ChunkStore :=
  if fails then (.error "opening pack file", s)
  else (.ok (), { s with
    packs := s.packs.insert s.currentPackNum s.currentFile
    currentPack := .opened
    currentOffset := s.currentFile.length })

/-- `ensureCurrentPack`. -/
def ensureCurrentPack (s : ChunkStore) (fails : Bool) : Except String Unit × ChunkStore :=
  if s.currentPack = .unopened then s.openCurrentPack fails else (.ok (), s)

/-- `rotatePack`: sync, close, report the sealed pack, open the next one. -/
def rotatePack (s : ChunkStore) (fault : Option RotateFault) : Except String Unit × ChunkStore :=
  if s.currentPack ≠ .opened then (.error "syncing pack", s)
  else
    match fault with
    | some .sync => (.error "syncing pack", s)
    | some .close => (.error "closing pack", { s with currentPack := .closed })
    | some .onPackSealed => (.error "OnPackSealed pack", { s with currentPack := .closed })
    | some .openPack => (.error "opening pack file",
        { s with currentPack := .closed, currentPackNum := (s.currentPackNum + 1) % 2 ^ 32 })
    | none =>
      openCurrentPack { s with currentPackNum := (s.currentPackNum + 1) % 2 ^ 32 } false

/-- Whether a frame of `total` bytes makes the store rotate first. -/
def Full (s : ChunkStore) (total : ℕ) : Prop :=
  (s.currentOffset + total : ℤ) > s.maxPackSize ∧ s.currentOffset > 0

instance (s : ChunkStore) (total : ℕ) : Decidable (s.Full total) :=
  inferInstanceAs (Decidable (_ ∧ _))

/-- The rotation at the start of a write. -/
def rotateIfFull (s : ChunkStore) (total : ℕ) (fault : Option RotateFault) :
    Except String Unit × ChunkStore :=
  if s.Full total then s.rotatePack fault else (.ok (), s)

/-! ## Writing -/

/-- `currentPack.Write`: on failure a prefix of the data is in the file. -/
def write (s : ChunkStore) (data : Bytes) (fault : Option ℕ) : Bool × ChunkStore :=
  if s.currentPack ≠ .opened then (false, s)
  else
    match fault with
    | none => (true, { s with packs := s.packs.insert s.currentPackNum (s.currentFile ++ data) })
    | some n => (false,
        { s with packs := s.packs.insert s.currentPackNum (s.currentFile ++ data.take n) })

/-- The payload of a chunk: compressed, and encrypted. Drawing the nonce may fail. -/
def encodeChunk (c : Codec) (nonce : Option Bytes) (data : Bytes) : Option Bytes :=
  match c.key with
  | none => some (c.compress data)
  | some k => nonce.map fun n => k.encryptWithAAD n (c.compress data)

/-- `ChunkStore.Store`. -/
def store (s : ChunkStore) (nonce : Option Bytes) (data : Bytes) (f : Faults) :
    Except String Stored × ChunkStore :=
  match s.ensureCurrentPack f.openPack with
  | (.error e, s) => (.error e, s)
  | (.ok (), s) =>
    match encodeChunk s.codec nonce data with
    | none => (.error "encrypting chunk", s)
    | some payload =>
      match s.rotateIfFull (8 + payload.length) f.rotate with
      | (.error e, s) => (.error e, s)
      | (.ok (), s) =>
        let packNum := s.currentPackNum
        let offset := s.currentOffset
        match s.write (le 4 payload.length ++ le 4 data.length) f.header with
        | (false, s) => (.error "writing chunk header", s)
        | (true, s) =>
          match s.write payload f.data with
          | (false, s) => (.error "writing chunk data", s)
          | (true, s) => (.ok ⟨packNum, offset, payload.length⟩,
              { s with currentOffset := s.currentOffset + (8 + payload.length) })

/-- `ChunkStore.StoreRaw`. -/
def storeRaw (s : ChunkStore) (frame : Bytes) (f : Faults) : Except String Stored × ChunkStore :=
  match s.ensureCurrentPack f.openPack with
  | (.error e, s) => (.error e, s)
  | (.ok (), s) =>
    match s.rotateIfFull frame.length f.rotate with
    | (.error e, s) => (.error e, s)
    | (.ok (), s) =>
      let packNum := s.currentPackNum
      let offset := s.currentOffset
      match s.write frame f.data with
      | (false, s) => (.error "writing raw chunk frame", s)
      | (true, s) => (.ok ⟨packNum, offset, frame.length - 8⟩,
          { s with currentOffset := s.currentOffset + frame.length })

/-- `ChunkStore.Retrieve` without fetch hooks and with an empty frame cache. -/
def retrieve (s : ChunkStore) (packNum offset : ℕ) : Except String Bytes :=
  match s.packs.lookup packNum with
  | none => .error s!"opening pack {packNum}"
  | some file => retrieveAt s.codec file offset

/-- `ChunkStore.RetrieveRaw`. -/
def retrieveRaw (s : ChunkStore) (packNum offset : ℕ) : Except String Bytes :=
  match s.packs.lookup packNum with
  | none => .error s!"opening pack {packNum}"
  | some file => retrieveRawAt file offset

/-- One operation on a store, with what fails in it. -/
inductive Call
  | store (nonce : Option Bytes) (data : Bytes) (faults : Faults)
  | storeRaw (frame : Bytes) (faults : Faults)
  deriving DecidableEq

/-- Run one operation. -/
def call (s : ChunkStore) : Call → Except String Stored × ChunkStore
  | .store nonce data faults => s.store nonce data faults
  | .storeRaw frame faults => s.storeRaw frame faults

/-- The frame an operation writes, unless its chunk cannot be encrypted. -/
def Call.frame (c : Codec) : Call → Option Bytes
  | .store nonce data _ => (encodeChunk c nonce data).map (encodeFrame · data.length)
  | .storeRaw frame _ => some frame

/-! ## Pack files only grow -/

/-- Every pack file of `a` is in `b`, possibly with more at its end. -/
def Grows (a b : Packs) : Prop :=
  ∀ n file, a.lookup n = some file → ∃ more, b.lookup n = some (file ++ more)

lemma Grows.refl (a : Packs) : Grows a a := fun _ _ h => ⟨[], by simpa using h⟩

lemma Grows.trans {a b c : Packs} (hab : Grows a b) (hbc : Grows b c) : Grows a c := by
  intro n file h
  obtain ⟨m1, h1⟩ := hab n file h
  obtain ⟨m2, h2⟩ := hbc n _ h1
  exact ⟨m1 ++ m2, by rw [h2, List.append_assoc]⟩

/-- Extending one file, or creating it. -/
lemma grows_insert (a : Packs) (n : ℕ) (more : Bytes) :
    Grows a (a.insert n ((a.lookup n).getD [] ++ more)) := by
  intro m file h
  by_cases hm : m = n
  · subst hm
    exact ⟨more, by simp [h]⟩
  · exact ⟨[], by rw [AList.lookup_insert_ne hm, h, List.append_nil]⟩

/-- What every step of an operation keeps: the pack files grow, the settings stay. -/
structure Extends (s s' : ChunkStore) : Prop where
  grows : Grows s.packs s'.packs
  codec : s'.codec = s.codec
  maxPackSize : s'.maxPackSize = s.maxPackSize

lemma Extends.refl (s : ChunkStore) : Extends s s := ⟨.refl _, rfl, rfl⟩

lemma Extends.trans {s₁ s2 s3 : ChunkStore} (h : Extends s₁ s2) (h' : Extends s2 s3) :
    Extends s₁ s3 :=
  ⟨h.grows.trans h'.grows, h'.codec.trans h.codec, h'.maxPackSize.trans h.maxPackSize⟩

/-- The offset counter stands at the end of the pack file it counts. -/
def Aligned (s : ChunkStore) : Prop := s.currentFile.length = s.currentOffset

instance (s : ChunkStore) : Decidable s.Aligned := inferInstanceAs (Decidable (_ = _))

/-- The pack the store has open ends at its offset. -/
def Settled (s : ChunkStore) : Prop := s.currentPack = .opened → s.Aligned

lemma currentFile_eq (s : ChunkStore) : s.currentFile = fileOf s.packs s.currentPackNum := rfl

/-- The pack numbers fit their field. -/
structure Bounded (s : ChunkStore) : Prop where
  current : s.currentPackNum < 2 ^ 32
  packs : ∀ n ∈ s.packs, n < 2 ^ 32

/-- The store with more bytes in the pack it writes. -/
def extended (s : ChunkStore) (more : Bytes) : ChunkStore :=
  { s with packs := s.packs.insert s.currentPackNum (s.currentFile ++ more) }

lemma currentFile_extended (s : ChunkStore) (more : Bytes) :
    (s.extended more).currentFile = s.currentFile ++ more := by
  simp [extended, currentFile]

lemma extended_extended (s : ChunkStore) (more more' : Bytes) :
    (s.extended more).extended more' = s.extended (more ++ more') := by
  rw [extended, currentFile_extended]
  simp [extended, AList.insert_insert]

lemma extended_extends (s : ChunkStore) (more : Bytes) : Extends s (s.extended more) :=
  ⟨grows_insert _ _ _, rfl, rfl⟩

lemma extended_bounded (h : s.Bounded) (more : Bytes) : (s.extended more).Bounded := by
  refine ⟨h.current, fun n hn => ?_⟩
  rcases (AList.mem_insert _).1 hn with rfl | hn
  · exact h.current
  · exact h.packs n hn

/-! ## The steps before a write -/

/-- What the steps before a write do: they may create packs, and nothing else. -/
structure Ready (s s₁ : ChunkStore) : Prop where
  ext : Extends s s₁
  files : fileOf s₁.packs = fileOf s.packs
  settled : s.Settled → s₁.Settled
  bounded : s.Bounded → s₁.Bounded

lemma Ready.refl (s : ChunkStore) : Ready s s := ⟨.refl s, rfl, id, id⟩

lemma Ready.trans {s s₁ s2 : ChunkStore} (h : Ready s s₁) (h' : Ready s₁ s2) : Ready s s2 :=
  ⟨h.ext.trans h'.ext, h'.files.trans h.files, h'.settled ∘ h.settled, h'.bounded ∘ h.bounded⟩

/-- A pack that is closed, under the same or another number. -/
lemma closed_ready (s : ChunkStore) {n : ℕ} (hn : s.Bounded → n < 2 ^ 32) :
    Ready s { s with currentPack := .closed, currentPackNum := n } :=
  ⟨⟨.refl _, rfl, rfl⟩, rfl, fun _ => by simp [Settled], fun h => ⟨hn h, h.packs⟩⟩

lemma openCurrentPack_ready (s : ChunkStore) (fails : Bool) :
    Ready s (s.openCurrentPack fails).2 := by
  unfold openCurrentPack
  split
  · exact .refl s
  · have hext := extended_extends s []
    have hbounded := fun h => @extended_bounded s h []
    rw [extended, List.append_nil] at hext hbounded
    refine ⟨⟨hext.grows, rfl, rfl⟩, ?_, fun _ _ => by simp [Aligned, currentFile],
      fun h => ⟨h.current, (hbounded h).packs⟩⟩
    rw [fileOf_insert, currentFile_eq, Function.update_eq_self]

lemma ensureCurrentPack_ready (s : ChunkStore) (fails : Bool) :
    Ready s (s.ensureCurrentPack fails).2 := by
  unfold ensureCurrentPack
  split
  · exact openCurrentPack_ready s fails
  · exact .refl s

lemma rotateIfFull_ready (s : ChunkStore) (total : ℕ) (fault : Option RotateFault) :
    Ready s (s.rotateIfFull total fault).2 := by
  have hmod : (s.currentPackNum + 1) % 2 ^ 32 < 2 ^ 32 := Nat.mod_lt _ (by decide)
  unfold rotateIfFull rotatePack
  split
  · split
    · exact .refl s
    · rcases fault with _ | _ | _ | _ | _
      · -- the next pack is opened at its end
        exact (closed_ready s fun _ => hmod).trans
          (openCurrentPack_ready { s with currentPack := .closed, currentPackNum := _ } false)
      · exact .refl s
      · exact closed_ready s Bounded.current
      · exact closed_ready s Bounded.current
      · exact closed_ready s fun _ => hmod
  · exact .refl s

/-- The steps before a write of `total` bytes. -/
def prepare (s : ChunkStore) (total : ℕ) (f : Faults) : Except String Unit × ChunkStore :=
  match s.ensureCurrentPack f.openPack with
  | (.error e, s) => (.error e, s)
  | (.ok (), s) => s.rotateIfFull total f.rotate

/-- The state of a store whose pack was just opened. -/
lemma openCurrentPack_ok {fails : Bool} (h : s.openCurrentPack fails = (.ok (), s₁)) :
    s₁.currentPack = .opened ∧ s₁.Aligned := by
  unfold openCurrentPack at h
  split at h
  · cases h
  · obtain ⟨-, rfl⟩ := Prod.mk.inj h
    exact ⟨rfl, by simp [Aligned, currentFile]⟩

/-- A rotation that succeeds leaves a freshly opened pack. -/
lemma rotatePack_ok {fault : Option RotateFault} (h : s.rotatePack fault = (.ok (), s₁)) :
    s₁.currentPack = .opened ∧ s₁.Aligned := by
  unfold rotatePack at h
  split at h
  · cases h
  · rcases fault with _ | fault
    · exact openCurrentPack_ok h
    · cases fault <;> cases h

/-- The store `s₁` in which a frame of `total` bytes is written. -/
def Prepared (s : ChunkStore) (total : ℕ) (s₁ : ChunkStore) : Prop :=
  Ready s s₁ ∧ ∃ f, s.prepare total f = (.ok (), s₁)

/-- The counter stands at the end of an open pack, if it did or the pack is new. -/
lemma Prepared.aligned {total : ℕ} (h : Prepared s total s₁) (hopen : s₁.currentPack = .opened)
    (hclean : s.currentPack = .opened → s.Aligned ∨ s.Full total) : s₁.Aligned := by
  obtain ⟨-, f, h⟩ := h
  unfold prepare at h
  rcases hensure : s.ensureCurrentPack f.openPack with ⟨_ | _, s2⟩ <;> rw [hensure] at h
  · cases h
  simp only at h
  unfold rotateIfFull at h
  split_ifs at h with hfull
  · exact (rotatePack_ok h).2
  · -- no rotation: the pack was open already, or has just been opened
    obtain ⟨-, rfl⟩ := Prod.mk.inj h
    unfold ensureCurrentPack at hensure
    split at hensure
    · exact (openCurrentPack_ok hensure).2
    · obtain ⟨-, rfl⟩ := Prod.mk.inj hensure
      exact (hclean hopen).resolve_right hfull

/-! ## What an operation can do -/

/-- What a write can do. -/
lemma write_cases (s : ChunkStore) (data : Bytes) (fault : Option ℕ) :
    s.write data fault = (false, s) ∨
      (s.currentPack = .opened ∧ (s.write data fault = (true, s.extended data) ∨
        ∃ n, s.write data fault = (false, s.extended (data.take n)))) := by
  unfold write
  split_ifs with hopen
  · exact .inl rfl
  · refine .inr ⟨not_not.1 hopen, ?_⟩
    cases fault with
    | none => exact .inl rfl
    | some n => exact .inr ⟨n, rfl⟩

/-- The store after a frame was appended and counted. -/
def appended (s : ChunkStore) (frame : Bytes) : ChunkStore :=
  { s with
    packs := s.packs.insert s.currentPackNum (s.currentFile ++ frame)
    currentOffset := s.currentOffset + frame.length }

lemma appended_settled (h : s.Aligned) (frame : Bytes) : (s.appended frame).Settled := by
  intro _
  have hfile : (s.appended frame).currentFile = s.currentFile ++ frame := by
    simp [appended, currentFile]
  rw [Aligned, hfile, List.length_append, h]
  rfl

/-- How an operation on `s` ends: an error before it writes, an error after a part of its frame, or
the whole frame at the end of the open pack. -/
inductive Outcome (s : ChunkStore) (c : Call) : Except String Stored × ChunkStore → Prop
  | unwritten {s₁ : ChunkStore} (e : String) (h : Ready s s₁) : Outcome s c (.error e, s₁)
  | partly {s₁ : ChunkStore} (e : String) (h : Ready s s₁) (hopen : s₁.currentPack = .opened)
      (part : Bytes) : Outcome s c (.error e, s₁.extended part)
  | wholly {s₁ : ChunkStore} {frame : Bytes} (hframe : c.frame s.codec = some frame)
      (h : Prepared s frame.length s₁) (hopen : s₁.currentPack = .opened) :
      Outcome s c (.ok ⟨s₁.currentPackNum, s₁.currentOffset, frame.length - 8⟩, s₁.appended frame)

/-- **What an operation can do**, whatever fails in it. -/
theorem call_outcome (s : ChunkStore) (c : Call) : Outcome s c (s.call c) := by
  cases c with
  | store nonce data f =>
    have hensure := ensureCurrentPack_ready s f.openPack
    simp only [call, store]
    rcases hs1 : s.ensureCurrentPack f.openPack with ⟨_ | _, s₁⟩ <;> rw [hs1] at hensure
    · exact .unwritten _ hensure
    have hcodec : s₁.codec = s.codec := hensure.ext.codec
    cases hencode : encodeChunk s₁.codec nonce data with
    | none =>
      simp only [hencode]
      exact .unwritten _ hensure
    | some payload =>
      have hrotate := hensure.trans (rotateIfFull_ready s₁ (8 + payload.length) f.rotate)
      simp only [hencode]
      rcases hs2 : s₁.rotateIfFull (8 + payload.length) f.rotate with ⟨_ | _, s2⟩ <;>
        rw [hs2] at hrotate
      · exact .unwritten _ hrotate
      rcases write_cases s2 (le 4 payload.length ++ le 4 data.length) f.header with
        hw | ⟨hopen, hw | ⟨n, hw⟩⟩ <;> simp only [hw]
      · exact .unwritten _ hrotate
      · rcases write_cases (s2.extended (le 4 payload.length ++ le 4 data.length)) payload
          f.data with
          hw' | ⟨-, hw' | ⟨n, hw'⟩⟩ <;> simp only [hw']
        · exact .partly _ hrotate hopen _
        · have hframe : (Call.store nonce data f).frame s.codec =
              some (encodeFrame payload data.length) := by
            rw [Call.frame, ← hcodec, hencode]
            rfl
          have := Outcome.wholly hframe
            ⟨hrotate, f, by rw [length_encodeFrame, prepare, hs1]; exact hs2⟩ hopen
          rw [length_encodeFrame, Nat.add_sub_cancel_left] at this
          rw [extended_extended]
          convert this using 2
          rw [appended, length_encodeFrame]
          rfl
        · rw [extended_extended]
          exact .partly _ hrotate hopen _
      · exact .partly _ hrotate hopen _
  | storeRaw frame f =>
    have hensure := ensureCurrentPack_ready s f.openPack
    simp only [call, storeRaw]
    rcases hs1 : s.ensureCurrentPack f.openPack with ⟨_ | _, s₁⟩ <;> rw [hs1] at hensure
    · exact .unwritten _ hensure
    have hrotate := hensure.trans (rotateIfFull_ready s₁ frame.length f.rotate)
    simp only
    rcases hs2 : s₁.rotateIfFull frame.length f.rotate with ⟨_ | _, s2⟩ <;> rw [hs2] at hrotate
    · exact .unwritten _ hrotate
    rcases write_cases s2 frame f.data with hw | ⟨hopen, hw | ⟨n, hw⟩⟩ <;> simp only [hw]
    · exact .unwritten _ hrotate
    · exact .wholly rfl ⟨hrotate, f, by rw [prepare, hs1]; exact hs2⟩ hopen
    · exact .partly _ hrotate hopen _

/-- **Operations extend** pack files, whatever fails. -/
theorem call_extends (s : ChunkStore) (c : Call) : Extends s (s.call c).2 := by
  have h := call_outcome s c
  generalize s.call c = r at h
  cases h with
  | unwritten _ h => exact h.ext
  | partly _ h _ part => exact h.ext.trans (extended_extends _ part)
  | wholly _ h _ => exact h.1.ext.trans ⟨grows_insert _ _ _, rfl, rfl⟩

/-- An operation keeps the pack numbers in range, whatever fails. -/
lemma call_bounded (hb : s.Bounded) (c : Call) : (s.call c).2.Bounded := by
  have h := call_outcome s c
  generalize s.call c = r at h
  cases h with
  | unwritten _ h => exact h.bounded hb
  | partly _ h _ part => exact extended_bounded (h.bounded hb) part
  | wholly _ h _ => exact ⟨(h.1.bounded hb).current, (extended_bounded (h.1.bounded hb) _).packs⟩

/-- **A successful operation** wrote its frame at the end of the open pack. -/
theorem call_ok {c : Call} (h : s.call c = (.ok r, s')) :
    ∃ frame s₁, c.frame s.codec = some frame ∧ Prepared s frame.length s₁ ∧
      s₁.currentPack = .opened ∧
      r = ⟨s₁.currentPackNum, s₁.currentOffset, frame.length - 8⟩ ∧ s' = s₁.appended frame := by
  have hcall := call_outcome s c
  rw [h] at hcall
  cases hcall with
  | wholly hframe hprep hopen => exact ⟨_, _, hframe, hprep, hopen, rfl, rfl⟩

/-- A write in which nothing fails succeeds, unless the pack is closed. -/
lemma storeRaw_none (h : s.currentPack ≠ .closed) (frame : Bytes) :
    ∃ r s', s.storeRaw frame .none = (.ok r, s') ∧ s'.currentPack = .opened := by
  obtain ⟨s₁, hensure, hopen⟩ : ∃ s₁, s.ensureCurrentPack false = (.ok (), s₁) ∧
      s₁.currentPack = .opened := by
    unfold ensureCurrentPack
    split_ifs with hne
    · exact ⟨_, rfl, rfl⟩
    · refine ⟨s, rfl, ?_⟩
      cases hs : s.currentPack with
      | unopened => exact absurd hs hne
      | opened => rfl
      | closed => exact absurd hs h
  obtain ⟨s2, hrotate, hopen2⟩ : ∃ s2, s₁.rotateIfFull frame.length none = (.ok (), s2) ∧
      s2.currentPack = .opened := by
    unfold rotateIfFull
    split
    · rw [rotatePack, if_neg (not_not.2 hopen)]
      exact ⟨_, rfl, rfl⟩
    · exact ⟨s₁, rfl, hopen⟩
  have hwrite : s2.write frame none =
      (true, { s2 with packs := s2.packs.insert s2.currentPackNum (s2.currentFile ++ frame) }) := by
    rw [write, if_neg (not_not.2 hopen2)]
  refine ⟨⟨s2.currentPackNum, s2.currentOffset, frame.length - 8⟩, s2.appended frame, ?_, hopen2⟩
  simp only [storeRaw, Faults.none, hensure, hrotate, hwrite]
  rfl

end ChunkStore

end DiskNexus.Store
