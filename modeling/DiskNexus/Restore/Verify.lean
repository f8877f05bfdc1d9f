import DiskNexus.Restore.Entries

/-!
# Verifying a backup

`StreamVerify` reads the chunks of a backup in the order of its entries, checks each of them, and
folds their bytes into the digest of the stream. The walk may be cut into ranges, and a checkpoint
of it resumed. A call of `Range` that returns with an error has already counted and folded entries
that a retry counts and folds again.

## Main results

`range_walked`, `retries_same_iff`, `verifySpans_eq`, `retries_differ`
-/

namespace DiskNexus.Restore

open Binary Sha256 Store Index
open Manifest (Entry Backup)

/-- `VerifyError`. -/
structure VerifyError where
  chunkIndex : ℕ
  offset : ℤ
  message : String
  deriving DecidableEq

/-- The digest verdicts; `none` makes no claim. -/
inductive DigestVerdict
  | none
  | matching
  | mismatch
  | notVerifiable
  deriving DecidableEq

/-- `VerifyResult`. -/
structure VerifyResult where
  totalChunks : ℕ
  verifiedChunks : ℕ
  excludedChunks : ℕ
  errors : List VerifyError
  digestVerdict : DigestVerdict
  digestExpected : Option Hash
  digestActual : Option Hash
  deriving DecidableEq

/-- `digestFold`, with the bytes that were written to the hash. -/
structure DigestFold where
  h : Option Bytes
  want : Option Hash
  verdict : DigestVerdict
  deriving DecidableEq

namespace DigestFold

/-- `write`. -/
def write (f : DigestFold) (p : Bytes) : DigestFold := { f with h := f.h.map (· ++ p) }

/-- `zeros`. -/
def zeros (f : DigestFold) (n : ℕ) : DigestFold := f.write (List.replicate n 0)

/-- `abort`. -/
def abort (f : DigestFold) : DigestFold := { f with h := none, verdict := .none }

/-- `finish`. -/
def finish (f : DigestFold) (res : VerifyResult) : VerifyResult :=
  match f.h with
  | none => { res with digestVerdict := f.verdict }
  | some bytes =>
    let got := sum256 bytes
    if some got = f.want then { res with digestVerdict := .matching }
    else { res with
      digestVerdict := .mismatch
      digestExpected := f.want
      digestActual := some got }

end DigestFold

/-- `StreamVerify`. -/
structure StreamVerify where
  total : ℕ
  next : ℕ
  result : VerifyResult
  fold : DigestFold
  deriving DecidableEq

/-- `NewStreamVerify`. -/
def newStreamVerify (backup : Backup) (total : ℕ) : Except String StreamVerify :=
  let name := backup.backupID
  let bytes := backup.totalBytes
  if total = 0 ∧ bytes > 0 then
    .error (s!"backup {name} has no chunk entries but claims {bytes} bytes; its entries are " ++
      "missing or corrupt (try 'index --rebuild-all' or re-import)")
  else .ok ⟨total, 0, ⟨total, 0, 0, [], .none, none, none⟩,
    match backup.contentDigest with
    | some digest => ⟨some [], some digest, .none⟩
    | none => ⟨none, none, .notVerifiable⟩⟩

/-! ## One entry -/

/-- `verifyEntry`. The outer error is a pack that cannot be fetched. -/
def verifyEntry (R : Restorer) (fetchFails : Bool) (i : ℕ) (entry : Entry) :
    Except String (Except VerifyError Bytes) :=
  let offset := entry.volumeOffset
  match R.index.lookupDirect entry.chunkHash with
  | none =>
    let hash := shortHex entry.chunkHash
    .ok (.error ⟨i, offset, s!"chunk not found in index (hash {hash})"⟩)
  | some idxEntry =>
    if fetchFails then .error s!"chunk {i} (offset {offset}): fetching pack"
    else
      match R.store.retrieve idxEntry.packNumber.toNat idxEntry.storeOffset.toNat with
      | .error e => .ok (.error ⟨i, offset, s!"retrieval error: {e}"⟩)
      | .ok data =>
        let actualHash := sum256 (identityHashInput R.normalizer data)
        let size := data.length
        let length := entry.chunkLength
        if actualHash ≠ entry.chunkHash then
          let expected := shortHex entry.chunkHash
          let actual := shortHex actualHash
          .ok (.error ⟨i, offset, s!"SHA-256 mismatch: expected {expected}, got {actual}"⟩)
        else if size ≠ length then
          .ok (.error ⟨i, offset, s!"size mismatch: expected {length}, got {size}"⟩)
        else .ok (.ok data)

namespace StreamVerify

/-- What a call of `Range` does with one entry. -/
def judge (R : Restorer) (fetchFails : Bool) (i : ℕ) (entry : Entry) (sv : StreamVerify) :
    Except String StreamVerify :=
  if entry.isExcluded then .ok { sv with
    result := { sv.result with excludedChunks := sv.result.excludedChunks + 1 }
    fold := sv.fold.zeros entry.chunkLength }
  else
    match verifyEntry R fetchFails i entry with
    | .error e => .error e
    | .ok (.error verr) => .ok { sv with
        result := { sv.result with errors := sv.result.errors ++ [verr] }
        fold := sv.fold.abort }
    | .ok (.ok data) => .ok { sv with
        result := { sv.result with verifiedChunks := sv.result.verifiedChunks + 1 }
        fold := sv.fold.write data }

end StreamVerify

/-! ## A range -/

/-- Where the context of a call of `Range` is found cancelled, and whose pack cannot be fetched. -/
structure RangeFaults where
  cancelled : ℕ → Bool
  fetchFails : ℕ → Bool

/-- The number of entries that are read at once. -/
def verifyWindow : ℕ := 4096

section Range

variable (R : Restorer) (f : RangeFaults) (ea : EntryAccessor)

/-- The entries of one window, from `i` on. An error comes with the walk it leaves. -/
def verifyBatch : ℕ → List Entry → StreamVerify → Except (String × StreamVerify) StreamVerify
  | _, [], sv => .ok sv
  | i, entry :: entries, sv =>
    if f.cancelled i then .error ("context canceled", sv)
    else
      match sv.judge R (f.fetchFails i) i entry with
      | .error e => .error (e, sv)
      | .ok sv => verifyBatch (i + 1) entries sv

/-- The loop over the windows up to `hi`, from the entry `wlo` on. Every round takes an entry at
least. -/
def verifyWindows (hi : ℕ) : ℕ → ℕ → StreamVerify → Except (String × StreamVerify) StreamVerify
  | 0, _, sv => .ok sv
  | fuel + 1, wlo, sv =>
    if wlo < hi then
      let whi := min (wlo + verifyWindow) hi
      match ea.range wlo whi with
      | .error e => .error (s!"reading entries [{wlo},{whi}): {e}", sv)
      | .ok batch =>
        match verifyBatch R f wlo batch sv with
        | .error e => .error e
        | .ok sv => verifyWindows hi fuel (wlo + verifyWindow) sv
    else .ok sv

/-- `Range`: the error, if any, and the walk it leaves. -/
def StreamVerify.range (lo hi : ℕ) (sv : StreamVerify) : Option String × StreamVerify :=
  let next := sv.next
  let total := sv.total
  if lo ≠ next then
    (some (s!"verify range starts at {lo} but the fold is at {next} — the stream digest is a " ++
      "fold over CONSECUTIVE entries, and a gap or overlap would verify a stream that is not " ++
      "the source"), sv)
  else if hi > total then (some s!"verify range [{lo},{hi}) exceeds the {total} entries", sv)
  else
    match verifyWindows R f ea hi (hi - lo) lo sv with
    | .error (e, sv) => (some e, sv)
    | .ok sv => (none, { sv with next := hi })

end Range

/-! ## Checkpoints -/

/-- `streamCheckpoint`. -/
structure StreamCheckpoint where
  next : ℕ
  verified : ℕ
  excluded : ℕ
  foldState : Option Bytes
  verdict : DigestVerdict
  deriving DecidableEq

/-- `Checkpoint`. -/
def StreamVerify.checkpoint (sv : StreamVerify) : Except String StreamCheckpoint :=
  if sv.result.errors ≠ [] then
    let n := sv.result.errors.length
    .error s!"verify saw {n} chunk errors; a walk that makes no stream claim has nothing to resume"
  else .ok ⟨sv.next, sv.result.verifiedChunks, sv.result.excludedChunks, sv.fold.h, sv.fold.verdict⟩

/-- `ResumeStreamVerify`. -/
def resumeStreamVerify (backup : Backup) (total : ℕ) (cp : StreamCheckpoint) :
    Except String StreamVerify :=
  match newStreamVerify backup total with
  | .error e => .error e
  | .ok sv =>
    let next := cp.next
    let resumed (h : Option Bytes) : StreamVerify := { sv with
      next := cp.next
      result := { sv.result with verifiedChunks := cp.verified, excludedChunks := cp.excluded }
      fold := { sv.fold with h := h } }
    if total < next then
      .error s!"verify checkpoint at entry {next} of {total}: not this backup's walk"
    else
      match sv.fold.h with
      | none => .ok (resumed none)
      | some _ =>
        match cp.foldState with
        | none => .error "verify checkpoint carries no digest state for a digest-bearing backup"
        | some bytes => .ok (resumed (some bytes))

/-- `Finish`. -/
def StreamVerify.finish (sv : StreamVerify) : VerifyResult :=
  if sv.next ≠ sv.total then sv.fold.abort.finish sv.result else sv.fold.finish sv.result

/-- `VerifyStreamed`, over entries that can all be read, when nothing fails. -/
def verifyStreamed (R : Restorer) (backup : Backup) (entries : List Entry) :
    Except String VerifyResult :=
  match newStreamVerify backup entries.length with
  | .error e => .error e
  | .ok sv =>
    match sv.range R ⟨fun _ => false, fun _ => false⟩ (sliceEntryAccessor entries) 0
        entries.length with
    | (some e, _) => .error e
    | (none, sv) => .ok sv.finish

/-! ## How far a call comes -/

/-- What a verification finds out about an entry. -/
inductive Outcome
  | excluded (length : ℕ)
  | verified (data : Bytes)
  | damaged (verr : VerifyError)
  deriving DecidableEq

namespace Outcome

/-- The entry is counted. -/
def Counts : Outcome → Prop
  | damaged _ => False
  | _ => True

instance : DecidablePred Counts := fun o => by
  cases o <;> unfold Counts <;> infer_instance

end Outcome

/-- The outcome for an entry whose pack can be fetched. -/
def outcome (R : Restorer) (i : ℕ) (entry : Entry) : Outcome :=
  if entry.isExcluded then .excluded entry.chunkLength
  else
    match verifyEntry R false i entry with
    | .ok (.ok data) => .verified data
    | .ok (.error verr) => .damaged verr
    | .error e => .damaged ⟨i, entry.volumeOffset, e⟩

/-- The entry has a pack that may have to be fetched. -/
def fetches (R : Restorer) (entry : Entry) : Bool :=
  !entry.isExcluded && (R.index.lookupDirect entry.chunkHash).isSome

/-- The check of an entry fails exactly when its pack cannot be fetched. -/
lemma verifyEntry_eq (R : Restorer) (fetchFails : Bool) (i : ℕ) (entry : Entry) :
    (fetchFails && (R.index.lookupDirect entry.chunkHash).isSome) = true ∧
      (∃ e, verifyEntry R fetchFails i entry = .error e) ∨
    (fetchFails && (R.index.lookupDirect entry.chunkHash).isSome) = false ∧
      ∃ r, verifyEntry R fetchFails i entry = .ok r ∧ verifyEntry R false i entry = .ok r := by
  unfold verifyEntry
  cases R.index.lookupDirect entry.chunkHash with
  | none => exact .inr ⟨by simp, _, rfl, rfl⟩
  | some e =>
    cases fetchFails with
    | true => exact .inl ⟨rfl, _, rfl⟩
    | false =>
      refine .inr ⟨rfl, ?_⟩
      simp only [Bool.false_eq_true, if_false, and_self]
      split
      · exact ⟨_, rfl⟩
      · split
        · exact ⟨_, rfl⟩
        · split <;> exact ⟨_, rfl⟩

namespace StreamVerify

/-- Count and fold an outcome. -/
def absorb (sv : StreamVerify) : Outcome → StreamVerify
  | .excluded n => { sv with
      result := { sv.result with excludedChunks := sv.result.excludedChunks + 1 }
      fold := sv.fold.zeros n }
  | .verified data => { sv with
      result := { sv.result with verifiedChunks := sv.result.verifiedChunks + 1 }
      fold := sv.fold.write data }
  | .damaged verr => { sv with
      result := { sv.result with errors := sv.result.errors ++ [verr] }
      fold := sv.fold.abort }

/-- Judging an entry fails exactly when its pack cannot be fetched. -/
lemma judge_eq (R : Restorer) (fetchFails : Bool) (i : ℕ) (entry : Entry) (sv : StreamVerify) :
    (fetchFails && fetches R entry) = true ∧ (∃ e, sv.judge R fetchFails i entry = .error e) ∨
    (fetchFails && fetches R entry) = false ∧
      sv.judge R fetchFails i entry = .ok (sv.absorb (outcome R i entry)) := by
  unfold judge outcome fetches
  cases hex : entry.isExcluded with
  | true => exact .inr ⟨by simp, rfl⟩
  | false =>
    simp only [Bool.false_eq_true, if_false, Bool.not_false, Bool.true_and]
    rcases verifyEntry_eq R fetchFails i entry with ⟨hfetch, e, herr⟩ | ⟨hfetch, r, hr, hr'⟩
    · exact .inl ⟨hfetch, e, by rw [herr]⟩
    · refine .inr ⟨hfetch, ?_⟩
      rw [hr, hr']
      cases r <;> rfl

end StreamVerify

open StreamVerify

section Walk

variable {R : Restorer} {f : RangeFaults} {ea : EntryAccessor} {entries : List Entry}
  {lo mid hi : ℕ} {sv : StreamVerify}

/-- The outcome for the entry number `i`. -/
def outcomeAt (R : Restorer) (entries : List Entry) (i : ℕ) : Outcome :=
  match entries[i]? with
  | some entry => outcome R i entry
  | none => .excluded 0

/-- The walk after the entries from `lo` to `hi`. -/
def StreamVerify.absorbRange (R : Restorer) (entries : List Entry) (lo hi : ℕ) (sv : StreamVerify) :
    StreamVerify :=
  (List.range' lo (hi - lo)).foldl (fun sv i => sv.absorb (outcomeAt R entries i)) sv

/-- The accessor reads the entries, or fails. -/
def Truthful (entries : List Entry) (ea : EntryAccessor) : Prop :=
  ∀ lo hi batch, lo ≤ hi → hi ≤ entries.length → ea.range lo hi = .ok batch →
    batch = (entries.drop lo).take (hi - lo)

/-- A call over the entries from `lo` to `hi` returns with an error when it comes to the entry `i`.
-/
def halts (R : Restorer) (f : RangeFaults) (ea : EntryAccessor) (entries : List Entry)
    (lo hi i : ℕ) :
    Bool :=
  ((i - lo) % verifyWindow = 0 && (ea.range i (min (i + verifyWindow) hi)).toOption.isNone) ||
    f.cancelled i || (f.fetchFails i && (entries[i]?).any (fetches R))

/-- The first number from `lo` to `hi` for which `stop` holds. -/
def firstStop (stop : ℕ → Bool) (lo hi : ℕ) : Option ℕ := (List.range' lo (hi - lo)).find? stop

/-- The entry at which a call returns with an error. -/
def interruption (R : Restorer) (entries : List Entry) (n hi : ℕ) (f : RangeFaults)
    (ea : EntryAccessor) : Option ℕ :=
  (List.range' n (hi - n)).find? (halts R f ea entries n hi)

/-- A call over the entries from `lo` to `hi` that returns at the first one for which `stop` holds.
-/
inductive Walked (R : Restorer) (entries : List Entry) (stop : ℕ → Bool) (lo hi : ℕ)
    (sv : StreamVerify) : Except (String × StreamVerify) StreamVerify → Prop
  | done (h : firstStop stop lo hi = none) :
      Walked R entries stop lo hi sv (.ok (sv.absorbRange R entries lo hi))
  | stopped {i : ℕ} (e : String) (h : firstStop stop lo hi = some i) :
      Walked R entries stop lo hi sv (.error (e, sv.absorbRange R entries lo i))

lemma range'_split (h : lo ≤ mid) (h' : mid ≤ hi) :
    List.range' lo (hi - lo) = List.range' lo (mid - lo) ++ List.range' mid (hi - mid) := by
  rw [show hi - lo = (mid - lo) + (hi - mid) by omega, ← List.range'_append]
  simp [show lo + (mid - lo) = mid by omega]

lemma firstStop_split (stop : ℕ → Bool) (h : lo ≤ mid) (h' : mid ≤ hi) :
    firstStop stop lo hi = (firstStop stop lo mid).or (firstStop stop mid hi) := by
  simp only [firstStop, range'_split h h', List.find?_append]

lemma mem_firstStop {stop : ℕ → Bool} {i : ℕ} (h : firstStop stop lo hi = some i) :
    lo ≤ i ∧ i < hi := by
  have := List.mem_range'_1.1 (List.mem_of_find?_eq_some h)
  omega

lemma absorbRange_self (R : Restorer) (entries : List Entry) (lo : ℕ) (sv : StreamVerify) :
    sv.absorbRange R entries lo lo = sv := by
  simp [absorbRange]

lemma absorbRange_succ (R : Restorer) (entries : List Entry) (h : lo < hi) (sv : StreamVerify) :
    sv.absorbRange R entries lo hi =
      (sv.absorb (outcomeAt R entries lo)).absorbRange R entries (lo + 1) hi := by
  unfold absorbRange
  rw [show hi - lo = (hi - (lo + 1)) + 1 by omega, List.range'_succ, List.foldl_cons]

lemma absorbRange_trans (R : Restorer) (entries : List Entry) (h : lo ≤ mid) (h' : mid ≤ hi)
    (sv : StreamVerify) :
    (sv.absorbRange R entries lo mid).absorbRange R entries mid hi =
      sv.absorbRange R entries lo hi := by
  simp only [absorbRange, range'_split h h', List.foldl_append]

/-- A call that stops before its first entry. -/
lemma Walked.here {stop : ℕ → Bool} (e : String) (hlt : lo < hi) (hstop : stop lo = true) :
    Walked R entries stop lo hi sv (.error (e, sv)) := by
  have hfirst : firstStop stop lo hi = some lo := by
    rw [firstStop, show hi - lo = (hi - (lo + 1)) + 1 by omega, List.range'_succ,
      List.find?_cons_of_pos hstop]
  have hstopped := @Walked.stopped R entries stop lo hi sv lo e hfirst
  rwa [absorbRange_self] at hstopped

/-- A call that has come to `mid` goes on from there. -/
lemma Walked.trans {stop : ℕ → Bool} {r : Except (String × StreamVerify) StreamVerify} (mid : ℕ)
    (hmid : lo ≤ mid) (hhi : mid ≤ hi) (h : firstStop stop lo mid = none)
    (hr : Walked R entries stop mid hi (sv.absorbRange R entries lo mid) r) :
    Walked R entries stop lo hi sv r := by
  have hsplit := firstStop_split stop hmid hhi
  rw [h, Option.none_or] at hsplit
  cases hr with
  | done hdone =>
    rw [absorbRange_trans R entries hmid hhi]
    exact .done (hsplit.trans hdone)
  | stopped e hstop =>
    rw [absorbRange_trans R entries hmid (mem_firstStop hstop).1]
    exact .stopped e (hsplit.trans hstop)

/-- The entries of a batch, as far as it is walked. -/
lemma verifyBatch_walked {stop : ℕ → Bool} {batch : List Entry}
    (hbatch : ∀ j < batch.length, entries[lo + j]? = batch[j]?)
    (hstop : ∀ j < batch.length, stop (lo + j) = (f.cancelled (lo + j) ||
      (f.fetchFails (lo + j) && (entries[lo + j]?).any (fetches R)))) :
    Walked R entries stop lo (lo + batch.length) sv (verifyBatch R f lo batch sv) := by
  induction batch generalizing lo sv with
  | nil =>
    have hdone := @Walked.done R entries stop lo lo sv (by simp [firstStop])
    rwa [absorbRange_self] at hdone
  | cons entry batch ih =>
    have hentry : entries[lo]? = some entry := by simpa using hbatch 0 (by simp)
    have hhere := hstop 0 (by simp)
    rw [Nat.add_zero, hentry, Option.any_some] at hhere
    have hat : outcomeAt R entries lo = outcome R lo entry := by simp [outcomeAt, hentry]
    unfold verifyBatch
    cases hcancel : f.cancelled lo with
    | true => exact .here _ (by simp) (by simp [hhere, hcancel])
    | false =>
      rw [hcancel, Bool.false_or] at hhere
      rcases sv.judge_eq R (f.fetchFails lo) lo entry with ⟨hfetch, e, hjudge⟩ | ⟨hfetch, hjudge⟩
      · rw [hjudge]
        exact .here e (by simp) (by rw [hhere, hfetch])
      · rw [hjudge]
        have hlen : lo + (entry :: batch).length = lo + 1 + batch.length := by simp; omega
        have hgo : sv.absorbRange R entries lo (lo + 1) = sv.absorb (outcome R lo entry) := by
          rw [absorbRange_succ R entries (by omega), absorbRange_self, hat]
        rw [hlen]
        refine Walked.trans (lo + 1) (by omega) (by omega) ?_ ?_
        · simp [firstStop, hhere, hfetch]
        · rw [hgo]
          refine ih (fun j hj => ?_) fun j hj => ?_
          · simpa [Nat.add_assoc, Nat.add_comm 1 j] using hbatch (j + 1) (by simp; omega)
          · simpa [Nat.add_assoc, Nat.add_comm 1 j] using hstop (j + 1) (by simp; omega)

lemma halts_in_window {start j : ℕ} (hstart : start ≤ lo) (halign : (lo - start) % verifyWindow = 0)
    (hj : j < verifyWindow)
    (hread : (ea.range lo (min (lo + verifyWindow) hi)).toOption.isNone = false) :
    halts R f ea entries start hi (lo + j) = (f.cancelled (lo + j) ||
      (f.fetchFails (lo + j) && (entries[lo + j]?).any (fetches R))) := by
  unfold halts
  rcases Nat.eq_zero_or_pos j with rfl | hpos
  · simp [hread]
  · have hmod : (lo + j - start) % verifyWindow ≠ 0 := by
      unfold verifyWindow at *
      omega
    simp [hmod]

lemma verifyWindows_end (h : hi ≤ lo) (fuel : ℕ) (sv : StreamVerify) :
    verifyWindows R f ea hi fuel lo sv = .ok sv := by
  cases fuel with
  | zero => rfl
  | succ fuel => simp [verifyWindows, Nat.not_lt.2 h]

/-- The windows, as far as they are walked. -/
lemma verifyWindows_walked {start fuel : ℕ} (hea : Truthful entries ea) (hhi : hi ≤ entries.length)
    (hstart : start ≤ lo) (halign : (lo - start) % verifyWindow = 0) (hfuel : hi - lo ≤ fuel) :
    Walked R entries (halts R f ea entries start hi) lo hi sv
      (verifyWindows R f ea hi fuel lo sv) := by
  have hempty : ∀ {lo : ℕ} {sv : StreamVerify}, hi ≤ lo →
      Walked R entries (halts R f ea entries start hi) lo hi sv (.ok sv) := by
    intro lo sv hle
    have hdone := @Walked.done R entries (halts R f ea entries start hi) lo hi sv
      (by simp [firstStop, Nat.sub_eq_zero_of_le hle])
    rwa [absorbRange, Nat.sub_eq_zero_of_le hle] at hdone
  induction fuel generalizing lo sv with
  | zero => exact hempty (by omega)
  | succ fuel ih =>
    unfold verifyWindows
    by_cases hlt : lo < hi
    · rw [if_pos hlt]
      simp only
      cases hread : ea.range lo (min (lo + verifyWindow) hi) with
      | error e =>
        have hstop : halts R f ea entries start hi lo = true := by
          simp [halts, halign, hread, Except.toOption]
        exact .here _ hlt hstop
      | ok batch =>
        have hbatch := hea lo (min (lo + verifyWindow) hi) batch (by omega) (by omega) hread
        have hlen : batch.length = min (lo + verifyWindow) hi - lo := by
          rw [hbatch, List.length_take, List.length_drop]
          omega
        have hmid : lo + batch.length = min (lo + verifyWindow) hi := by omega
        have hwalked := @verifyBatch_walked R f entries lo sv
          (halts R f ea entries start hi) batch (fun j hj => by
            rw [hbatch, List.getElem?_take_of_lt (by omega), List.getElem?_drop])
          fun j hj => halts_in_window hstart halign (by omega) (by simp [hread, Except.toOption])
        rw [hmid] at hwalked
        simp only
        generalize verifyBatch R f lo batch sv = r at hwalked
        cases hwalked with
        | stopped e hstop =>
          have hsplit := firstStop_split (halts R f ea entries start hi)
            (show lo ≤ min (lo + verifyWindow) hi by omega) (min_le_right _ _)
          exact .stopped e (by rw [hsplit, hstop]; rfl)
        | done hdone =>
          refine Walked.trans (min (lo + verifyWindow) hi) (by omega) (by omega) hdone ?_
          rcases Nat.lt_or_ge (lo + verifyWindow) hi with hmore | hlast
          · rw [Nat.min_eq_left hmore.le]
            refine ih (by omega) ?_ (by unfold verifyWindow at *; omega)
            unfold verifyWindow at *
            omega
          · rw [Nat.min_eq_right hlast]
            simp only [verifyWindows_end hlast]
            exact hempty le_rfl
    · rw [if_neg hlt]
      exact hempty (by omega)

/-- **How far a call comes.** A call that something stops has judged the entries before, and the
walk is where it was. -/
theorem range_walked (hea : Truthful entries ea) (htotal : sv.total = entries.length)
    (hhi : hi ≤ entries.length) :
    interruption R entries sv.next hi f ea = none ∧
      sv.range R f ea sv.next hi =
        (none, { sv.absorbRange R entries sv.next hi with next := hi }) ∨
    ∃ i e, interruption R entries sv.next hi f ea = some i ∧
      sv.range R f ea sv.next hi = (some e, sv.absorbRange R entries sv.next i) := by
  have hwalked := @verifyWindows_walked R f ea entries sv.next hi sv sv.next (hi - sv.next) hea hhi
    le_rfl (by simp) le_rfl
  unfold StreamVerify.range
  simp only [ne_eq, not_true_eq_false, if_false]
  rw [if_neg (by omega)]
  generalize verifyWindows R f ea hi (hi - sv.next) sv.next sv = r at hwalked
  cases hwalked with
  | done hdone => exact .inl ⟨hdone, rfl⟩
  | stopped e hstop => exact .inr ⟨_, e, hstop, rfl⟩

end Walk

/-! ## Retries -/

/-- A step of a walk that is retried: a call of `Range` from `Next` on, or a resumed checkpoint. -/
inductive Retry
  | range (hi : ℕ) (f : RangeFaults) (ea : EntryAccessor)
  | resume

/-- The walk after a step, or as it is if there is nothing to resume. -/
def retry (R : Restorer) (backup : Backup) (sv : StreamVerify) : Retry → StreamVerify
  | .range hi f ea => (sv.range R f ea sv.next hi).2
  | .resume =>
    match sv.checkpoint with
    | .error _ => sv
    | .ok cp =>
      match resumeStreamVerify backup sv.total cp with
      | .error _ => sv
      | .ok sv => sv

/-- The walk after some steps. -/
def retries (R : Restorer) (backup : Backup) (steps : List Retry) (sv : StreamVerify) :
    StreamVerify :=
  steps.foldl (retry R backup) sv

/-- The position of a walk after a step at `n`. -/
def positionAfter (R : Restorer) (entries : List Entry) (n : ℕ) : Retry → ℕ
  | .range hi f ea =>
    if hi ≤ entries.length ∧ interruption R entries n hi f ea = none then hi else n
  | .resume => n

/-- The calls go forward, over accessors that read the entries or fail. -/
def Onwards (R : Restorer) (entries : List Entry) : ℕ → List Retry → Prop
  | _, [] => True
  | n, .range hi f ea :: steps =>
    n ≤ hi ∧ Truthful entries ea ∧
      Onwards R entries (positionAfter R entries n (.range hi f ea)) steps
  | n, .resume :: steps => Onwards R entries n steps

/-- **No failing call has counted an entry**: all it came to is damaged. -/
def Idle (R : Restorer) (entries : List Entry) : ℕ → List Retry → Prop
  | _, [] => True
  | n, .range hi f ea :: steps =>
    (hi ≤ entries.length → ∀ i, interruption R entries n hi f ea = some i → ∀ j, n ≤ j → j < i →
      ¬ (outcomeAt R entries j).Counts) ∧
    Idle R entries (positionAfter R entries n (.range hi f ea)) steps
  | n, .resume :: steps => Idle R entries n steps

/-- The same digest verdict and the same counters. -/
def VerifyResult.Same (a b : VerifyResult) : Prop :=
  a.digestVerdict = b.digestVerdict ∧ a.totalChunks = b.totalChunks ∧
    a.verifiedChunks = b.verifiedChunks ∧ a.excludedChunks = b.excludedChunks

section Retries

variable {R : Restorer} {backup : Backup} {entries : List Entry} {lo hi n : ℕ}
  {sv sv₀ : StreamVerify} {steps : List Retry}

/-- What every step leaves of the walk it began as. -/
structure Kept (sv₀ sv : StreamVerify) : Prop where
  total : sv.total = sv₀.total
  result : sv.result = { sv₀.result with
    verifiedChunks := sv.result.verifiedChunks
    excludedChunks := sv.result.excludedChunks
    errors := sv.result.errors }
  want : sv.fold.want = sv₀.fold.want
  fold : sv.result.errors = [] →
    sv.fold.h.isSome = sv₀.fold.h.isSome ∧ sv.fold.verdict = sv₀.fold.verdict

lemma Kept.refl (sv : StreamVerify) : Kept sv sv := ⟨rfl, rfl, rfl, fun _ => ⟨rfl, rfl⟩⟩

lemma Kept.absorb (h : Kept sv₀ sv) (o : Outcome) : Kept sv₀ (sv.absorb o) := by
  obtain ⟨htotal, hresult, hwant, hfold⟩ := h
  cases o with
  | excluded | verified =>
    refine ⟨htotal, ?_, hwant, fun he => ?_⟩
    · rw [StreamVerify.absorb, hresult]
    · simpa [StreamVerify.absorb, DigestFold.zeros, DigestFold.write] using hfold he
  | damaged verr => exact ⟨htotal, by rw [StreamVerify.absorb, hresult], hwant, by
      simp [StreamVerify.absorb]⟩

/-- What each outcome keeps, a range of entries keeps. -/
lemma absorbRange_keeps {P : StreamVerify → Prop} (hP : ∀ sv o, P sv → P (sv.absorb o)) (h : P sv) :
    P (sv.absorbRange R entries lo hi) :=
  List.foldlRecOn _ _ h fun sv h _ _ => hP sv _ h

lemma Kept.absorbRange (h : Kept sv₀ sv) : Kept sv₀ (sv.absorbRange R entries lo hi) :=
  absorbRange_keeps (fun _ o h => h.absorb o) h

lemma Kept.walked (h : Kept sv₀ sv) :
    Kept sv₀ { sv.absorbRange R entries lo hi with next := n } :=
  { @Kept.absorbRange R entries lo hi sv sv₀ h with }

@[simp] lemma next_absorbRange : (sv.absorbRange R entries lo hi).next = sv.next :=
  absorbRange_keeps (P := fun sv' => sv'.next = sv.next)
    (fun _ o h => by cases o <;> exact h) rfl

/-- **A resumed checkpoint** is the walk that it was taken of. -/
lemma resume_checkpoint (hnew : newStreamVerify backup sv₀.total = .ok sv₀)
    (hfresh : sv₀.result.errors = []) (h : Kept sv₀ sv) (hnext : sv.next ≤ sv₀.total)
    (herr : sv.result.errors = []) :
    ∃ cp, sv.checkpoint = .ok cp ∧ resumeStreamVerify backup sv.total cp = .ok sv := by
  obtain ⟨hsome, hverdict⟩ := h.fold herr
  -- the new walk has everything but the counters and the bytes folded, which the checkpoint has
  have hsame : ∀ bytes, sv.fold.h = bytes → ({ sv₀ with
      next := sv.next
      result := { sv₀.result with
        verifiedChunks := sv.result.verifiedChunks
        excludedChunks := sv.result.excludedChunks }
      fold := { sv₀.fold with h := bytes } } : StreamVerify) = sv := by
    rintro _ rfl
    obtain ⟨total, next, result, fold⟩ := sv
    have hresult := h.result
    obtain rfl : total = sv₀.total := h.total
    simp only [StreamVerify.mk.injEq, true_and]
    refine ⟨?_, ?_⟩
    · rw [herr, ← hfresh] at hresult
      exact hresult.symm
    · obtain ⟨_, want, verdict⟩ := fold
      obtain rfl : want = sv₀.fold.want := h.want
      obtain rfl : verdict = sv₀.fold.verdict := hverdict
      rfl
  refine ⟨_, by rw [checkpoint, if_neg (not_not.2 herr)], ?_⟩
  simp only [h.total, resumeStreamVerify, hnew, Nat.not_lt.2 hnext, if_false]
  cases hold : sv₀.fold.h with
  | none => rw [hsame none (by simpa [hold] using hsome)]
  | some _ =>
    obtain ⟨bytes, hbytes⟩ := Option.isSome_iff_exists.1 (hsome.trans (by rw [hold]; rfl))
    simp only [hbytes]
    rw [hsame _ hbytes]

lemma retry_resume (hnew : newStreamVerify backup sv₀.total = .ok sv₀)
    (hfresh : sv₀.result.errors = []) (h : Kept sv₀ sv) (hnext : sv.next ≤ sv₀.total) :
    retry R backup sv .resume = sv := by
  unfold retry
  by_cases herr : sv.result.errors = []
  · obtain ⟨cp, hcp, hresume⟩ := resume_checkpoint hnew hfresh h hnext herr
    simp only [hcp, hresume]
  · simp [checkpoint, herr]

/-! ### Counting -/

/-- The entries that a walk has counted. -/
def StreamVerify.counted (sv : StreamVerify) : ℕ :=
  sv.result.verifiedChunks + sv.result.excludedChunks

/-- The entries from `lo` to `hi` that are counted. -/
def countedIn (R : Restorer) (entries : List Entry) (lo hi : ℕ) : ℕ :=
  (List.range' lo (hi - lo)).countP fun i => (outcomeAt R entries i).Counts

/-- The two counters of a walk. -/
def StreamVerify.counters (sv : StreamVerify) : ℕ × ℕ :=
  (sv.result.verifiedChunks, sv.result.excludedChunks)

lemma counted_absorb (sv : StreamVerify) (o : Outcome) :
    (sv.absorb o).counted = sv.counted + if o.Counts then 1 else 0 := by
  cases o <;> simp [absorb, counted, Outcome.Counts] <;> omega

lemma counted_absorbRange : (sv.absorbRange R entries lo hi).counted =
    sv.counted + countedIn R entries lo hi := by
  unfold absorbRange countedIn
  induction List.range' lo (hi - lo) generalizing sv with
  | nil => rfl
  | cons i is ih =>
    rw [List.foldl_cons, ih, counted_absorb, List.countP_cons]
    simp only [decide_eq_true_eq]
    omega

lemma countedIn_add {mid : ℕ} (h : lo ≤ mid) (h' : mid ≤ hi) :
    countedIn R entries lo hi = countedIn R entries lo mid + countedIn R entries mid hi := by
  simp only [countedIn, range'_split h h', List.countP_append]

lemma countedIn_eq_zero :
    countedIn R entries lo hi = 0 ↔ ∀ j, lo ≤ j → j < hi → ¬ (outcomeAt R entries j).Counts := by
  unfold countedIn
  rw [List.countP_eq_zero]
  simp only [List.mem_range'_1, decide_eq_true_eq]
  refine ⟨fun h j hlo hhi => h j ⟨hlo, by omega⟩, fun h j hj => h j hj.1 (by omega)⟩

/-! ### Entries that are not counted -/

/-- Two walks that agree go on agreeing over the same entries. -/
lemma absorbRange_rel {P : StreamVerify → StreamVerify → Prop} {sv sv' : StreamVerify}
    (hP : ∀ sv sv' o, P sv sv' → P (sv.absorb o) (sv'.absorb o)) (h : P sv sv') :
    P (sv.absorbRange R entries lo hi) (sv'.absorbRange R entries lo hi) := by
  unfold absorbRange
  induction List.range' lo (hi - lo) generalizing sv sv' with
  | nil => exact h
  | cons i is ih => exact ih (hP sv sv' _ h)

/-- The digest makes no claim any more. -/
def DigestFold.Aborted (f : DigestFold) : Prop := f.h = none ∧ f.verdict = .none

lemma aborted_absorb {o : Outcome} (h : sv.fold.Aborted) : (sv.absorb o).fold.Aborted := by
  obtain ⟨hh, hverdict⟩ := h
  cases o <;> simp [absorb, DigestFold.Aborted, DigestFold.zeros, DigestFold.write,
    DigestFold.abort, hh, hverdict]

/-- A damaged entry ends the digest. -/
lemma aborted_absorbRange {i : ℕ} (hlo : lo ≤ i) (hhi : i < hi)
    (hi' : ¬ (outcomeAt R entries i).Counts) : (sv.absorbRange R entries lo hi).fold.Aborted := by
  rw [← absorbRange_trans R entries hlo hhi.le, absorbRange_succ R entries hhi]
  refine absorbRange_keeps (P := fun sv => sv.fold.Aborted) (fun _ _ => aborted_absorb) ?_
  cases ho : outcomeAt R entries i with
  | damaged verr => exact ⟨rfl, rfl⟩
  | _ =>
    rw [ho] at hi'
    exact absurd trivial hi'

/-- The walk has the counters of the uninterrupted one at its position, and its digest, unless that
is to be aborted anyway. -/
structure Agrees (R : Restorer) (entries : List Entry) (sv₀ sv : StreamVerify) : Prop where
  counters : sv.counters = (sv₀.absorbRange R entries 0 sv.next).counters
  fold : sv.fold = (sv₀.absorbRange R entries 0 sv.next).fold ∨
    sv.fold.Aborted ∧ ∃ i < entries.length, ¬ (outcomeAt R entries i).Counts

/-- Entries that are not counted leave the counters. -/
lemma counters_absorbRange (h : countedIn R entries lo hi = 0) :
    (sv.absorbRange R entries lo hi).counters = sv.counters := by
  have hmono : sv.counters ≤ (sv.absorbRange R entries lo hi).counters := by
    refine absorbRange_keeps (P := fun sv' => sv.counters ≤ sv'.counters)
      (fun sv' o ih => ?_) le_rfl
    cases o <;> simp only [absorb, counters, Prod.le_def] at ih ⊢ <;>
      omega
  have hcount := @counted_absorbRange R entries lo hi sv
  obtain ⟨hv, hx⟩ := hmono
  unfold counters counted at *
  ext <;> simp only at hv hx ⊢ <;> omega

/-- A walk without damaged entries has no errors. -/
lemma errors_absorbRange (h : ∀ i < hi, (outcomeAt R entries i).Counts)
    (herr : sv.result.errors = []) : (sv.absorbRange R entries lo hi).result.errors = [] := by
  refine List.foldlRecOn (motive := fun sv : StreamVerify => sv.result.errors = []) _ _ herr
    fun sv herr i hi' => ?_
  have hcounts := h i (by rw [List.mem_range'_1] at hi'; omega)
  cases ho : outcomeAt R entries i with
  | damaged =>
    rw [ho] at hcounts
    exact hcounts.elim
  | _ => exact herr

/-! ### One step -/

/-- **A call of a walk**: where it stands afterwards, and what it has judged. -/
lemma retry_range {f : RangeFaults} {ea : EntryAccessor} (hea : Truthful entries ea)
    (htotal : sv.total = entries.length) :
    hi ≤ entries.length ∧ interruption R entries sv.next hi f ea = none ∧
      retry R backup sv (.range hi f ea) =
        { sv.absorbRange R entries sv.next hi with next := hi } ∨
    hi ≤ entries.length ∧ (∃ i, interruption R entries sv.next hi f ea = some i ∧ sv.next ≤ i ∧
      i < hi ∧ retry R backup sv (.range hi f ea) = sv.absorbRange R entries sv.next i) ∨
    entries.length < hi ∧ retry R backup sv (.range hi f ea) = sv := by
  rcases Nat.lt_or_ge entries.length hi with hgt | hle
  · refine .inr (.inr ⟨hgt, ?_⟩)
    simp only [retry, StreamVerify.range, ne_eq, not_true_eq_false, if_false]
    rw [if_pos (by omega)]
  · rcases @range_walked R f ea entries hi sv hea htotal hle with ⟨hdone, hrange⟩ |
      ⟨i, e, hstop, hrange⟩
    · exact .inl ⟨hle, hdone, by rw [retry, hrange]⟩
    · obtain ⟨hlo, hhi⟩ := mem_firstStop hstop
      exact .inr (.inl ⟨hle, i, hstop, hlo, hhi, by rw [retry, hrange]⟩)

section Steps

variable (hnew : newStreamVerify backup sv₀.total = .ok sv₀) (hfresh : sv₀.result.errors = [])
  (htotal : sv₀.total = entries.length)
include hnew hfresh htotal

/-- **A step of a walk with retries** goes on to `hi`, or stays after it has judged up to `i`. -/
lemma retry_cases {step : Retry} (hsteps : Onwards R entries sv.next (step :: steps))
    (h : Kept sv₀ sv) (hnext : sv.next ≤ entries.length) :
    Kept sv₀ (retry R backup sv step) ∧ (retry R backup sv step).next ≤ entries.length ∧
      Onwards R entries (retry R backup sv step).next steps ∧
      ((∃ hi, sv.next ≤ hi ∧
          retry R backup sv step = { sv.absorbRange R entries sv.next hi with next := hi } ∧
          (Idle R entries sv.next (step :: steps) ↔ Idle R entries hi steps)) ∨
        ∃ i, sv.next ≤ i ∧ i < entries.length ∧
          retry R backup sv step = sv.absorbRange R entries sv.next i ∧
          (Idle R entries sv.next (step :: steps) ↔
            (∀ j, sv.next ≤ j → j < i → ¬ (outcomeAt R entries j).Counts) ∧
              Idle R entries sv.next steps)) := by
  have hstay : sv = { sv.absorbRange R entries sv.next sv.next with next := sv.next } := by
    rw [absorbRange_self]
  cases step with
  | resume =>
    rw [retry_resume hnew hfresh h (by omega)]
    exact ⟨h, hnext, hsteps, .inl ⟨sv.next, le_rfl, hstay, Iff.rfl⟩⟩
  | range hi f ea =>
    obtain ⟨hle, hea, hrest⟩ := hsteps
    rcases @retry_range R backup entries hi sv f ea hea (h.total.trans htotal) with
      ⟨hhi, hnone, hretry⟩ | ⟨hhi, ⟨i, hsome, hlo, hlt, hretry⟩⟩ | ⟨hgt, hretry⟩
    · have hpos : positionAfter R entries sv.next (.range hi f ea) = hi := by
        simp [positionAfter, hhi, hnone]
      rw [hpos] at hrest
      rw [hretry]
      exact ⟨h.walked, hhi, hrest, .inl ⟨hi, hle, rfl, by simp [Idle, hnone, hpos]⟩⟩
    · have hpos : positionAfter R entries sv.next (.range hi f ea) = sv.next := by
        simp [positionAfter, hsome]
      rw [hpos] at hrest
      rw [hretry, next_absorbRange]
      refine ⟨h.absorbRange, hnext, hrest, .inr ⟨i, hlo, by omega, rfl, ?_⟩⟩
      rw [Idle, hpos]
      simp [hhi, hsome]
    · have hpos : positionAfter R entries sv.next (.range hi f ea) = sv.next := by
        simp [positionAfter, Nat.not_le.2 hgt]
      rw [hpos] at hrest
      rw [hretry]
      refine ⟨h, hnext, hrest, .inl ⟨sv.next, le_rfl, hstay, ?_⟩⟩
      simp [Idle, Nat.not_le.2 hgt, hpos]

variable (hsteps : Onwards R entries sv.next steps) (h : Kept sv₀ sv)
  (hnext : sv.next ≤ entries.length)
include hsteps h hnext

/-- **What a walk with retries has counted**: the entries up to its position, and some more if a
failing call has counted one. -/
lemma retries_counted {d : ℕ} (hcounted : sv.counted = countedIn R entries 0 sv.next + d) :
    ∃ e, (retries R backup steps sv).counted =
        countedIn R entries 0 (retries R backup steps sv).next + d + e ∧
      (e = 0 ↔ Idle R entries sv.next steps) := by
  induction steps generalizing sv d with
  | nil => exact ⟨0, hcounted, by simp [Idle]⟩
  | cons step steps ih =>
    change ∃ e, (retries R backup steps (retry R backup sv step)).counted =
      countedIn R entries 0 (retries R backup steps (retry R backup sv step)).next + d + e ∧ _
    obtain ⟨hkept, hnext', hrest, ⟨hi, hle, heq, hidle⟩ | ⟨i, -, -, heq, hidle⟩⟩ :=
      retry_cases hnew hfresh htotal hsteps h hnext
    · rw [heq] at hkept hnext' hrest ⊢
      obtain ⟨e, he, hiff⟩ := @ih { sv.absorbRange R entries sv.next hi with next := hi } hrest
        hkept hnext' d (by
          change (sv.absorbRange R entries sv.next hi).counted = _
          rw [counted_absorbRange, hcounted, countedIn_add (Nat.zero_le _) hle]
          omega)
      exact ⟨e, he, hiff.trans hidle.symm⟩
    · rw [heq] at hkept hnext' hrest ⊢
      obtain ⟨e, he, hiff⟩ := @ih (sv.absorbRange R entries sv.next i)
        hrest hkept hnext' (d + countedIn R entries sv.next i) (by
          rw [counted_absorbRange, hcounted, next_absorbRange]
          omega)
      rw [next_absorbRange] at hiff
      refine ⟨countedIn R entries sv.next i + e, by rw [he]; omega, ?_⟩
      rw [hidle, ← hiff, Nat.add_eq_zero_iff, countedIn_eq_zero]

/-- Retries whose failing calls count nothing. -/
lemma retries_agrees (hagrees : Agrees R entries sv₀ sv) (hidle : Idle R entries sv.next steps) :
    Kept sv₀ (retries R backup steps sv) ∧ Agrees R entries sv₀ (retries R backup steps sv) := by
  induction steps generalizing sv with
  | nil => exact ⟨h, hagrees⟩
  | cons step steps ih =>
    change Kept sv₀ (retries R backup steps (retry R backup sv step)) ∧
      Agrees R entries sv₀ (retries R backup steps (retry R backup sv step))
    obtain ⟨hkept, hnext', hrest, ⟨hi, hle, heq, hiff⟩ | ⟨i, hlo, hlt, heq, hiff⟩⟩ :=
      retry_cases hnew hfresh htotal hsteps h hnext
    · rw [heq] at hkept hnext' hrest ⊢
      refine ih hrest hkept hnext' ?_ (hiff.1 hidle)
      have hwhole := absorbRange_trans R entries (Nat.zero_le sv.next) hle sv₀
      have hcounters :=
        @absorbRange_rel R entries sv.next hi (fun sv sv' => sv.counters = sv'.counters)
        sv (sv₀.absorbRange R entries 0 sv.next) (fun _ _ o hP => by
          cases o <;> simp_all [absorb, counters]) hagrees.counters
      rw [hwhole] at hcounters
      refine ⟨hcounters, ?_⟩
      rcases hagrees.fold with hfold | ⟨haborted, hdamaged⟩
      · left
        rw [← hwhole]
        refine absorbRange_rel (P := fun sv sv' => sv.fold = sv'.fold) ?_ hfold
        intro sv sv' o hP
        cases o <;> simp [absorb, hP]
      · exact .inr ⟨absorbRange_keeps (P := fun sv => sv.fold.Aborted)
          (fun _ _ => aborted_absorb) haborted, hdamaged⟩
    · obtain ⟨hquiet, hmore⟩ := hiff.1 hidle
      rw [heq] at hkept hnext' hrest ⊢
      refine ih hrest hkept hnext' ⟨?_, ?_⟩ (by rwa [next_absorbRange])
      · rw [counters_absorbRange (countedIn_eq_zero.2 hquiet), next_absorbRange]
        exact hagrees.counters
      · rcases Nat.eq_or_lt_of_le hlo with hat | hgt
        · rw [← hat, absorbRange_self]
          exact hagrees.fold
        · have hfirst := hquiet sv.next le_rfl hgt
          exact .inr ⟨aborted_absorbRange le_rfl hgt hfirst, sv.next, by omega, hfirst⟩

/-- Retries over entries that are not damaged have no errors. -/
lemma errors_retries (hcounts : ∀ i < entries.length, (outcomeAt R entries i).Counts)
    (herr : sv.result.errors = []) :
    (retries R backup steps sv).result.errors = [] := by
  induction steps generalizing sv with
  | nil => exact herr
  | cons step steps ih =>
    change (retries R backup steps (retry R backup sv step)).result.errors = []
    obtain ⟨hkept, hnext', hrest, ⟨hi, -, heq, -⟩ | ⟨i, -, hlt, heq, -⟩⟩ :=
      retry_cases hnew hfresh htotal hsteps h hnext
    · refine ih hrest hkept hnext' ?_
      rw [heq] at hnext' ⊢
      exact errors_absorbRange (fun j hj => hcounts j (hj.trans_le hnext')) herr
    · refine ih hrest hkept hnext' ?_
      rw [heq]
      exact errors_absorbRange (fun j hj => hcounts j (hj.trans hlt)) herr

end Steps

/-! ### The result -/

lemma truthful_slice (entries : List Entry) : Truthful entries (sliceEntryAccessor entries) := by
  intro lo hi batch hlo hhi h
  simp only [sliceEntryAccessor] at h
  rw [if_neg (by omega)] at h
  cases h
  rfl

lemma newStreamVerify_ok {total : ℕ} (h : newStreamVerify backup total = .ok sv₀) :
    sv₀.total = total ∧ sv₀.next = 0 ∧ sv₀.result = ⟨total, 0, 0, [], .none, none, none⟩ := by
  unfold newStreamVerify at h
  simp only at h
  split at h
  · cases h
  · cases h
    exact ⟨rfl, rfl, rfl⟩

/-- A call that nothing interrupts. -/
lemma range_slice (htotal : sv.total = entries.length) (hhi : hi ≤ entries.length) :
    sv.range R ⟨fun _ => false, fun _ => false⟩ (sliceEntryAccessor entries) sv.next hi =
      (none, { sv.absorbRange R entries sv.next hi with next := hi }) := by
  rcases @range_walked R ⟨fun _ => false, fun _ => false⟩ (sliceEntryAccessor entries) entries hi sv
    (truthful_slice entries) htotal hhi with ⟨-, hrange⟩ | ⟨i, e, hi, -⟩
  · exact hrange
  · have hstop := List.find?_some hi
    have hlt := (mem_firstStop hi).2
    simp [halts, sliceEntryAccessor, Nat.not_lt.2 hhi, Nat.not_lt.2 hlt.le,
      Except.toOption] at hstop

/-- The walk that has come to the position `n`. -/
def StreamVerify.walkedTo (R : Restorer) (entries : List Entry) (n : ℕ) (sv : StreamVerify) :
    StreamVerify :=
  { sv.absorbRange R entries 0 n with next := n }

lemma kept_walkedTo : Kept sv (sv.walkedTo R entries n) := (Kept.refl sv).walked

/-- A walk that nothing interrupts. -/
lemma verifyStreamed_eq (hnew : newStreamVerify backup entries.length = .ok sv₀) :
    verifyStreamed R backup entries = .ok (sv₀.walkedTo R entries entries.length).finish := by
  obtain ⟨htotal, hnext, -⟩ := newStreamVerify_ok hnew
  have hrange := @range_slice R entries _ sv₀ htotal le_rfl
  rw [hnext] at hrange
  unfold verifyStreamed
  rw [hnew]
  simp only [hrange]
  rfl

lemma finish_counters (sv : StreamVerify) :
    sv.finish.totalChunks = sv.result.totalChunks ∧
      sv.finish.verifiedChunks = sv.result.verifiedChunks ∧
      sv.finish.excludedChunks = sv.result.excludedChunks := by
  have hfold : ∀ f : DigestFold, (f.finish sv.result).totalChunks = sv.result.totalChunks ∧
      (f.finish sv.result).verifiedChunks = sv.result.verifiedChunks ∧
      (f.finish sv.result).excludedChunks = sv.result.excludedChunks := by
    intro f
    unfold DigestFold.finish
    split
    · exact ⟨rfl, rfl, rfl⟩
    · simp only
      split <;> exact ⟨rfl, rfl, rfl⟩
  unfold StreamVerify.finish
  split <;> exact hfold _

lemma finish_verdict_of_aborted (h : sv.fold.Aborted) (hend : sv.next = sv.total) :
    sv.finish.digestVerdict = .none := by
  obtain ⟨hh, hverdict⟩ := h
  simp [StreamVerify.finish, hend, DigestFold.finish, hh, hverdict]

/-- **When retries are sound.** For every list of entries and every sequence of calls from `Next`
on, failing at any entry for any of the reasons there are, and of checkpoints that are resumed in a
new walk, up to the end: the digest verdict and the counters are those of an uninterrupted walk
exactly if no failing call has counted an entry before it stopped. If moreover no entry is damaged,
the lists of errors agree too.

**Proof sketch.** What a failing call has counted is counted again by the next one. If all it came
to is damaged, the digest is aborted in either walk. -/
theorem retries_same_iff (hnew : newStreamVerify backup entries.length = .ok sv₀)
    (hsteps : Onwards R entries 0 steps)
    (hend : (retries R backup steps sv₀).next = entries.length) :
    ∃ whole, verifyStreamed R backup entries = .ok whole ∧
      (VerifyResult.Same (retries R backup steps sv₀).finish whole ↔ Idle R entries 0 steps) ∧
      ((∀ i < entries.length, (outcomeAt R entries i).Counts) → Idle R entries 0 steps →
        (retries R backup steps sv₀).finish = whole) := by
  refine ⟨_, verifyStreamed_eq hnew, ?_⟩
  obtain ⟨htotal, hnext, hresult⟩ := newStreamVerify_ok hnew
  have hfresh : sv₀.result.errors = [] := by rw [hresult]
  have hnew' : newStreamVerify backup sv₀.total = .ok sv₀ := by rw [htotal]; exact hnew
  set whole := sv₀.walkedTo R entries entries.length
  set final := retries R backup steps sv₀ with hfinal
  obtain ⟨htc, hvc, hxc⟩ := finish_counters final
  obtain ⟨htc', hvc', hxc'⟩ := finish_counters whole
  have hkept : Kept sv₀ whole := kept_walkedTo
  have hendw : whole.next = whole.total := (hkept.total.trans htotal).symm
  have hidles : Idle R entries 0 steps → Kept sv₀ final ∧ Agrees R entries sv₀ final := by
    intro hidle
    exact @retries_agrees R backup entries sv₀ sv₀ steps hnew' hfresh htotal (by rwa [hnext])
      (.refl sv₀) (by omega)
        ⟨by rw [hnext, absorbRange_self], .inl (by rw [hnext, absorbRange_self])⟩
      (by rwa [hnext])
  refine ⟨⟨?_, fun hidle => ?_⟩, fun hcounts hidle => ?_⟩
  · rintro ⟨-, -, hv, hx⟩
    obtain ⟨e, he, hiff⟩ := @retries_counted R backup entries sv₀ sv₀ steps hnew' hfresh htotal
      (by rwa [hnext]) (.refl sv₀) (by omega) 0 (by simp [counted, hresult, hnext,
        countedIn])
    rw [hnext] at hiff
    refine hiff.1 ?_
    have hcount : whole.counted = countedIn R entries 0 entries.length := by
      change (sv₀.absorbRange R entries 0 entries.length).counted = _
      rw [counted_absorbRange]
      simp [counted, hresult]
    rw [← hfinal, hend] at he
    unfold counted at he hcount
    omega
  · obtain ⟨hkept', hagrees⟩ := hidles hidle
    have hend' : final.next = final.total := by rw [hend, hkept'.total, htotal]
    obtain ⟨hv, hx⟩ := Prod.mk.inj (hend ▸ hagrees.counters)
    refine ⟨?_, ?_, ?_, ?_⟩
    · rcases hagrees.fold with hfold | ⟨haborted, i, hi, hdamaged⟩
      · rw [hend] at hfold
        have hfold' : final.fold = whole.fold := hfold
        unfold StreamVerify.finish DigestFold.finish
        rw [hfold']
        simp only [hend', hendw, ne_eq, not_true_eq_false, if_false]
        split
        · rfl
        · split <;> rfl
      · have hwholeaborted : whole.fold.Aborted := aborted_absorbRange (Nat.zero_le i) hi hdamaged
        rw [finish_verdict_of_aborted haborted hend', finish_verdict_of_aborted hwholeaborted hendw]
    · rw [htc, htc', hkept'.result, hkept.result]
    · exact hvc.trans (hv.trans hvc'.symm)
    · exact hxc.trans (hx.trans hxc'.symm)
  · obtain ⟨hkept', hagrees⟩ := hidles hidle
    obtain ⟨hv, hx⟩ := Prod.mk.inj (hend ▸ hagrees.counters)
    have herr : final.result.errors = [] :=
      errors_retries hnew' hfresh htotal (by rwa [hnext]) (.refl sv₀) (by omega) hcounts hfresh
    have herrw : whole.result.errors = [] := errors_absorbRange hcounts hfresh
    have hresults : final.result = whole.result := by
      rw [hkept'.result, hkept.result, herr, herrw, hv, hx]
      rfl
    have hfolds : final.fold = whole.fold := by
      rcases hagrees.fold with hfold | ⟨-, i, hi, hdamaged⟩
      · rw [hend] at hfold
        exact hfold
      · exact absurd (hcounts i hi) hdamaged
    have htotals : final.total = whole.total := hkept'.total.trans hkept.total.symm
    have hnexts : final.next = whole.next := hend
    have hsame : final = whole := by
      obtain ⟨total, next, result, fold⟩ := final
      obtain ⟨total', next', result', fold'⟩ := whole
      simp only [StreamVerify.mk.injEq]
      exact ⟨htotals, hnexts, hresults, hfolds⟩
    rw [hsame]

/-! ## A walk that is cut into spans -/

/-- A walk over spans, with a checkpoint resumed behind those that are marked. -/
def walkSpans (R : Restorer) (backup : Backup) (entries : List Entry) :
    List (ℕ × Bool) → StreamVerify → Except String StreamVerify
  | [], sv => .ok sv
  | (n, resumed) :: spans, sv =>
    match sv.range R ⟨fun _ => false, fun _ => false⟩ (sliceEntryAccessor entries) sv.next
        (sv.next + n) with
    | (some e, _) => .error e
    | (none, sv) =>
      if resumed then do
        let cp ← sv.checkpoint
        let sv ← resumeStreamVerify backup sv.total cp
        walkSpans R backup entries spans sv
      else walkSpans R backup entries spans sv

/-- The verification of a backup by such a walk. -/
def verifySpans (R : Restorer) (backup : Backup) (entries : List Entry) (spans : List (ℕ × Bool)) :
    Except String VerifyResult := do
  let sv ← newStreamVerify backup entries.length
  let sv ← walkSpans R backup entries spans sv
  return sv.finish

/-- A call brings the walk from one position to the next. -/
lemma range_walkedTo {m : ℕ} (htotal : sv.total = entries.length) (hm : n + m ≤ entries.length) :
    (sv.walkedTo R entries n).range R ⟨fun _ => false, fun _ => false⟩
      (sliceEntryAccessor entries) n (n + m) = (none, sv.walkedTo R entries (n + m)) := by
  have hslice := @range_slice R entries (n + m) (sv.walkedTo R entries n)
    (kept_walkedTo.total.trans htotal) hm
  -- the position has no part in what is judged
  have hnext : (sv.walkedTo R entries n).absorbRange R entries n (n + m) =
      { sv.absorbRange R entries 0 (n + m) with next := n } := by
    rw [← absorbRange_trans R entries (Nat.zero_le n) (Nat.le_add_right n m)]
    exact absorbRange_rel (P := fun sv sv' => sv = { sv' with next := n })
      (fun _ _ o h => by rw [h]; cases o <;> rfl) rfl
  change _ = (none, { (sv.walkedTo R entries n).absorbRange R entries n (n + m) with
    next := n + m }) at hslice
  rw [hnext] at hslice
  exact hslice

/-- The walk over spans ends where one walk ends, unless a checkpoint was refused. -/
lemma walkSpans_eq {spans : List (ℕ × Bool)} (hnew : newStreamVerify backup sv₀.total = .ok sv₀)
    (hfresh : sv₀.result.errors = []) (htotal : sv₀.total = entries.length)
    (hend : n + (spans.map Prod.fst).sum = entries.length) :
    walkSpans R backup entries spans (sv₀.walkedTo R entries n) =
        .ok (sv₀.walkedTo R entries entries.length) ∨
      (∃ e, walkSpans R backup entries spans (sv₀.walkedTo R entries n) = .error e) ∧
        ∃ i < entries.length, ¬ (outcomeAt R entries i).Counts := by
  induction spans generalizing n with
  | nil =>
    obtain rfl : n = entries.length := by simpa using hend
    exact .inl rfl
  | cons span spans ih =>
    obtain ⟨m, resumed⟩ := span
    rw [List.map_cons, List.sum_cons, ← Nat.add_assoc] at hend
    have hm : n + m ≤ entries.length := by omega
    have hrange := @range_walkedTo R entries n sv₀ m htotal hm
    rw [walkSpans, show (sv₀.walkedTo R entries n).next = n from rfl, hrange]
    cases resumed with
    | false => exact ih hend
    | true =>
      by_cases herr : (sv₀.walkedTo R entries (n + m)).result.errors = []
      · obtain ⟨cp, hcp, hresume⟩ :=
          resume_checkpoint hnew hfresh kept_walkedTo (hm.trans htotal.ge) herr
        simp only [hcp, if_true]
        change (resumeStreamVerify backup _ cp >>= _) = _ ∨
          (∃ e, (resumeStreamVerify backup _ cp >>= _) = _) ∧ _
        rw [hresume]
        exact ih hend
      · right
        refine ⟨⟨_, by simp only [checkpoint, if_pos herr]; rfl⟩, ?_⟩
        by_contra! hcounts
        exact herr (errors_absorbRange (fun i hi => hcounts i (by omega)) hfresh)

/-- **A verification splits freely.** Over every cut of the entries into spans, with a checkpoint
taken and resumed in a new walk behind any of them, the result is that of one walk over the whole
list, if the reads succeed; and if some chunks are damaged, then it still is where no checkpoint is
refused. -/
theorem verifySpans_eq {spans : List (ℕ × Bool)}
    (hspans : (spans.map Prod.fst).sum = entries.length) :
    ((∀ i < entries.length, (outcomeAt R entries i).Counts) →
      verifySpans R backup entries spans = verifyStreamed R backup entries) ∧
    ∀ result, verifySpans R backup entries spans = .ok result →
      verifyStreamed R backup entries = .ok result := by
  unfold verifySpans
  cases hnew : newStreamVerify backup entries.length with
  | error e =>
    simp only [verifyStreamed, hnew]
    exact ⟨fun _ => rfl, nofun⟩
  | ok sv₀ =>
    obtain ⟨htotal, hnext, hresult⟩ := newStreamVerify_ok hnew
    have hstart : sv₀ = sv₀.walkedTo R entries 0 := by
      rw [StreamVerify.walkedTo, absorbRange_self, ← hnext]
    have hwalk := @walkSpans_eq R backup entries 0 sv₀ spans (by rw [htotal]; exact hnew)
      (by rw [hresult]) htotal (by omega)
    rw [← hstart] at hwalk
    rw [verifyStreamed_eq hnew]
    change (_ → (walkSpans R backup entries spans sv₀ >>= _) = _) ∧
      ∀ result, (walkSpans R backup entries spans sv₀ >>= _) = _ → _
    rcases hwalk with hwalk | ⟨⟨e, hwalk⟩, i, hi, hdamaged⟩
    · rw [hwalk]
      exact ⟨fun _ => rfl, fun _ h => h⟩
    · rw [hwalk]
      exact ⟨fun h => absurd (h i hi) hdamaged, nofun⟩

end Retries

/-! ## A chunk and an excluded byte -/

/-- A repository that holds the chunk `[1, 2, 3]`. -/
def chunkRestorer : Restorer where
  index :=
    ⟨newBloomFilter 64, ⟨Index.encodeEntries [⟨sum256 [1, 2, 3], 0, 0, 3⟩], ∅, false, true, none⟩,
    none, false, none⟩
  store := { ChunkStore.newChunkStore ∅ ⟨id, some, none⟩ 100 with
    packs := (∅ : Packs).insert 0 (encodeFrame [1, 2, 3] 3) }
  normalizer := none

/-- The chunk, and a byte that was excluded from the backup. -/
def chunkEntries : List Entry := [⟨0, sum256 [1, 2, 3], 3, false⟩, ⟨3, .zero, 1, true⟩]

/-- The backup of them. -/
def chunkBackup : Backup := ⟨"b", 4, 2, 0, 0, 4, 0, some (sum256 [1, 2, 3, 0]), []⟩

/-- A call over both entries that finds its context cancelled at given ones. -/
def rangeUntil (cancelled : ℕ → Bool) : Retry :=
  .range 2 ⟨cancelled, fun _ => false⟩ (sliceEntryAccessor chunkEntries)

/-- The first call stops before its first entry, and the second comes to the end. -/
theorem retries_same_iff_first :
    ∃ sv₀ whole, newStreamVerify chunkBackup 2 = .ok sv₀ ∧
      verifyStreamed chunkRestorer chunkBackup chunkEntries = .ok whole ∧ whole.verifiedChunks = 1 ∧
      (retries chunkRestorer chunkBackup
        [rangeUntil (· == 0), .resume, rangeUntil fun _ => false] sv₀).finish = whole := by
  have hnew : newStreamVerify chunkBackup chunkEntries.length =
      .ok ⟨2, 0, ⟨2, 0, 0, [], .none, none, none⟩, ⟨some [], some (sum256 [1, 2, 3, 0]), .none⟩⟩ :=
        rfl
  have hsteps : Onwards chunkRestorer chunkEntries 0
      [rangeUntil (· == 0), .resume, rangeUntil fun _ => false] :=
    ⟨by decide, truthful_slice _, by decide, truthful_slice _, trivial⟩
  have hend : (retries chunkRestorer chunkBackup
      [rangeUntil (· == 0), .resume, rangeUntil fun _ => false]
      ⟨2, 0, ⟨2, 0, 0, [], .none, none, none⟩, ⟨some [], some (sum256 [1, 2, 3, 0]), .none⟩⟩).next =
      chunkEntries.length := by decide +kernel
  obtain ⟨whole, hwhole, -, hequal⟩ := retries_same_iff hnew hsteps hend
  have hidle : Idle chunkRestorer chunkEntries 0
      [rangeUntil (· == 0), .resume, rangeUntil fun _ => false] := by
    have hfirst : interruption chunkRestorer chunkEntries 0 2 ⟨(· == 0), fun _ => false⟩
        (sliceEntryAccessor chunkEntries) = some 0 := by decide +kernel
    have hlast : interruption chunkRestorer chunkEntries 0 2 ⟨fun _ => false, fun _ => false⟩
        (sliceEntryAccessor chunkEntries) = none := by decide +kernel
    refine ⟨fun _ i hi => ?_, ?_⟩
    · rw [hfirst] at hi
      cases hi
      exact fun j _ hj => absurd hj (Nat.not_lt_zero j)
    · have hpos : positionAfter chunkRestorer chunkEntries 0 (.range 2 ⟨(· == 0), fun _ => false⟩
          (sliceEntryAccessor chunkEntries)) = 0 := by
        simp [positionAfter, hfirst]
      refine ⟨fun _ i hi => ?_, trivial⟩
      rw [hpos, hlast] at hi
      cases hi
  have hverified : (verifyStreamed chunkRestorer chunkBackup chunkEntries).toOption.map
      VerifyResult.verifiedChunks = some 1 := by decide +kernel
  rw [hwhole] at hverified
  exact ⟨_, whole, rfl, hwhole, Option.some.inj hverified, hequal (by decide +kernel) hidle⟩

/-- A checkpoint between the two entries. -/
theorem verifySpans_eq_chunk :
    verifySpans chunkRestorer chunkBackup chunkEntries [(1, true), (1, false)] =
      verifyStreamed chunkRestorer chunkBackup chunkEntries :=
  (verifySpans_eq rfl).1 (by decide +kernel)

/-- **An interrupted walk.** The first call stops at the second of two entries, and the retry counts
and folds the first one again: the digest does not match. -/
theorem retries_differ :
    Onwards chunkRestorer chunkEntries 0 [rangeUntil (· == 1), rangeUntil fun _ => false] ∧
    (newStreamVerify chunkBackup 2).toOption.map (fun sv₀ =>
      let sv := retries chunkRestorer chunkBackup
        [rangeUntil (· == 1), rangeUntil fun _ => false] sv₀
      (sv.next, sv.finish.digestVerdict, sv.finish.verifiedChunks)) = some (2, .mismatch, 2) ∧
    (verifyStreamed chunkRestorer chunkBackup chunkEntries).toOption.map (fun whole =>
      (whole.digestVerdict, whole.verifiedChunks)) = some (.matching, 1) := by
  refine ⟨⟨by decide, truthful_slice _, by decide, truthful_slice _, trivial⟩, ?_, ?_⟩
  · decide +kernel
  · decide +kernel

end DiskNexus.Restore
