import DiskNexus.Forget.Run
import DiskNexus.Prune.Frames
import DiskNexus.Resume.Reconcile

/-!
# Forgetting beside a suspended backup

A suspended backup has a checkpoint and the sidecar of its entries, but no manifest yet. A prune can
be told of the chunks that the sidecar names; the one that a forget ends with is not.

## Main results

`suspended_holds_iff`, `forget_drops_suspended`
-/

namespace DiskNexus.Forget

open Binary Sha256 Index Manifest Checkpointing
open Prune (Holds Input Keeps usedHash orphanHash pruneInput pruneConfig)

/-! ## Suspended backups -/

/-- The white space of ASCII. -/
def isSpace (c : Char) : Bool := c = ' ' || (9 ≤ c.toNat && c.toNat ≤ 13)

/-- `strings.TrimSpace`. -/
def trimSpace (cs : List Char) : List Char :=
  ((cs.dropWhile isSpace).reverse.dropWhile isSpace).reverse

/-- `store.PacksGeneration`. -/
def packsGeneration (r : Prune.Repo) : String :=
  match (r.chunks.getD ∅).lookup Prune.packsGenerationFile with
  | none => ""
  | some data => String.ofList (trimSpace (data.map fun b => Char.ofNat b.toNat))

/-- A suspended backup. The sidecar of its entries is among the manifests. -/
structure Suspended where
  id : String
  checkpoint : Checkpoint
  segments : Option Bytes

namespace Suspended

variable (b : Suspended)

/-- The sidecar of the entries. -/
def sidecar (r : Repository) : Option Bytes := (r.base.manifests.backup b.id).entries

/-- The files that a resume looks at. -/
def files (r : Repository) : Files := ⟨packsGeneration r.base.dirs, b.segments, b.sidecar r⟩

/-- The checkpoint is covered by the sidecar. -/
structure Durable (r : Repository) : Prop where
  count : 0 ≤ b.checkpoint.entriesCount
  length : b.checkpoint.entriesLen = b.checkpoint.entriesCount * entryRecordSize
  covered : ∃ file, b.sidecar r = some file ∧ b.checkpoint.entriesLen ≤ file.length

/-- The hashes of the entries up to the checkpoint, as `verifyPrefixPresent` goes through them. -/
def durableHashes (r : Repository) : List Hash :=
  ((decodeEntries b.checkpoint.entriesCount.toNat ((b.sidecar r).getD [])).filter
    fun e => !e.isExcluded).map (·.chunkHash)

/-- The inserts that a resume replays. -/
def inserts (r : Repository) : List InsertTuple :=
  (tryFastPath (b.files r) b.checkpoint).1.getD []

/-- A frame that the index, or an insert to replay, resolves a hash to. -/
def Resolves (inp : Input) (cfg : Prune.RepoConfig) (r : Repository) (h : Hash)
    (frame : Bytes) : Prop :=
  (∃ data, Prune.resolve inp cfg r.base.dirs h = some (frame, data)) ∨
    ∃ t ∈ b.inserts r, t.strongHash = h ∧ ∃ data,
      Prune.readFrame (Prune.chunkStore inp cfg r.base.dirs) t.indexEntry = some (frame, data)

end Suspended

/-! ## What a run prunes -/

section Runs

variable {r : Repository} {opts : Options} {inp : Input} {fails : String → Option String}

/-- The repository without some backups. -/
def Repository.without (r : Repository) (gone : List String) : Prune.Repository :=
  { r.base with manifests := { r.base.manifests with
      backups := r.base.manifests.backups.filter fun b => b.1 ∉ gone } }

lemma deleteErrs_deleteLoop (tried : List String) (s : Plan × Repository) :
    s.1.deleteErrs <+: (deleteLoop fails tried s).1.deleteErrs := by
  induction tried generalizing s with
  | nil => exact List.prefix_rfl
  | cons id tried ih =>
    rw [deleteLoop, List.foldl_cons, ← deleteLoop]
    refine List.IsPrefix.trans ?_ (ih _)
    unfold deleteStep
    split
    · exact List.prefix_append _ _
    · exact List.prefix_rfl

/-- The deletion loop, if nothing fails in it. -/
lemma deleteLoop_ok {tried : List String} {s : Plan × Repository}
    (h : (deleteLoop fails tried s).1.deleteErrs = []) :
    (deleteLoop fails tried s).1.deleted = s.1.deleted ++ tried ∧
      (deleteLoop fails tried s).2.base = s.2.without tried := by
  induction tried generalizing s with
  | nil => simp [deleteLoop, Repository.without]
  | cons id tried ih =>
    rw [deleteLoop, List.foldl_cons, ← deleteLoop] at h ⊢
    obtain ⟨hdeleted, hbase⟩ := ih h
    rw [hdeleted, hbase]
    have hstep := @deleteErrs_deleteLoop fails tried (deleteStep fails s id)
    rw [h, List.prefix_nil] at hstep
    unfold deleteStep at hstep ⊢
    cases hfail : fails id with
    | some e => simp [hfail] at hstep
    | none =>
      simp [Repository.without, Repository.delete, List.filter_filter, Bool.and_comm]

/-- A run with a prune that succeeds has deleted nothing, or has pruned what is left. -/
lemma run_ok (hprune : opts.prune = true) (hok : (run opts inp fails r).1.2 = none) :
    ((∀ plan, planOf r opts = some plan → plan.remove = []) ∧
      (run opts inp fails r).2.base.dirs = r.base.dirs) ∨
    ∃ plan result, planOf r opts = some plan ∧ plan.remove ≠ [] ∧
      Prune.run { inp with dryRun := false, extraReferencedHashes := [] } (r.without plan.remove) =
        (.ok result, (run opts inp fails r).2.base) := by
  unfold run planOf at *
  cases hplan : makePlan r opts with
  | error e => rw [hplan] at hok; cases hok
  | ok plan =>
    rw [hplan] at hok
    simp only at hok ⊢
    cases hdry : opts.dryRun with
    | true => exact .inl ⟨by simp, rfl⟩
    | false =>
      simp only [hdry, Bool.false_eq_true, if_false] at hok ⊢
      rcases hconfirmed : confirmed opts plan with e | _ | _ <;> rw [hconfirmed] at hok
      · exact .inl ⟨by simp, rfl⟩
      · exact .inl ⟨by simp, rfl⟩
      simp only at hok ⊢
      split at hok
      · cases hok
      rename_i hfailed
      rw [if_neg hfailed]
      obtain ⟨hdeleted, hbase⟩ := deleteLoop_ok
        (List.length_eq_zero_iff.1 (Nat.eq_zero_of_not_pos hfailed))
      obtain ⟨-, -, -, -, -, -, -, hnone⟩ := makePlan_ok hplan
      simp only [hnone, List.nil_append] at hdeleted
      simp only [hprune, hdeleted, hbase, true_and] at hok ⊢
      by_cases hremove : plan.remove = []
      · refine .inl ⟨fun plan' h => by cases h; exact hremove, ?_⟩
        rw [if_neg (not_not.2 hremove), hbase]
        rfl
      · rw [if_pos hremove] at hok ⊢
        refine .inr ⟨plan, ?_⟩
        rcases hrun : Prune.run { inp with dryRun := false, extraReferencedHashes := [] }
          (r.without plan.remove) with ⟨e | result, base⟩ <;> rw [hrun] at hok
        · cases hok
        · exact ⟨result, rfl, hremove, rfl⟩

end Runs

/-! ## What a suspended backup is left with -/

/-- A run that has something to delete, as far as the policy goes. -/
lemma exists_expired_iff {r : Repository} {opts : Options} {P : List String → Prop} :
    (∀ keepReasons, selectByPolicy r.list opts.policy = .ok keepReasons → (planOf r opts).isSome →
        expired r keepReasons ≠ [] → P (expired r keepReasons)) ↔
      ∀ plan, planOf r opts = some plan → plan.remove ≠ [] → P plan.remove := by
  constructor
  · intro h plan hplan hremove
    have hmade := planOf_eq_some hplan
    obtain ⟨keepReasons, -, -, -, hselect, -⟩ := makePlan_ok hmade
    rw [(remove_eq_expired hmade hselect).1] at hremove ⊢
    exact h keepReasons hselect (by rw [hplan]; rfl) hremove
  · intro h keepReasons hselect hplan hexpired
    obtain ⟨plan, hplan⟩ := Option.isSome_iff_exists.1 hplan
    rw [← (remove_eq_expired (planOf_eq_some hplan) hselect).1] at hexpired ⊢
    exact h plan hplan hexpired

/-- **Forgetting beside a suspended backup.** The frames that the hashes of its checkpoint resolve
to are still there after a forget with a prune, if and only if there is nothing to delete, or the
prune keeps each of them: its hash is among those of the manifests that are left, or its frame is
that of an entry whose hash is.

**Proof sketch.** A run that deletes nothing does not prune. Any other names no hashes beyond the
manifests. -/
theorem suspended_holds_iff {opts : Options} {inp : Input} {fails : String → Option String}
    {r : Repository} {cfg : Prune.RepoConfig} (b : Suspended) (hconfig : inp.config = .ok cfg)
    (hprune : opts.prune = true) (hok : (run opts inp fails r).1.2 = none)
    (hholds : ∀ h ∈ b.durableHashes r, ∀ frame, b.Resolves inp cfg.effective r h frame →
      Holds r.base.dirs frame) :
    (∀ h ∈ b.durableHashes r, ∀ frame, b.Resolves inp cfg.effective r h frame →
        Holds (run opts inp fails r).2.base.dirs frame) ↔
      ∀ keepReasons, selectByPolicy r.list opts.policy = .ok keepReasons → (planOf r opts).isSome →
        expired r keepReasons ≠ [] →
        ∀ h ∈ b.durableHashes r, ∀ frame, b.Resolves inp cfg.effective r h frame →
          Keeps { inp with dryRun := false, extraReferencedHashes := [] } cfg.effective
            { r.without (expired r keepReasons) with dirs := r.base.dirs.recovered } frame := by
  rw [exists_expired_iff (P := fun gone => ∀ h ∈ b.durableHashes r, ∀ frame,
    b.Resolves inp cfg.effective r h frame → Keeps
      { inp with dryRun := false, extraReferencedHashes := [] } cfg.effective
      { r.without gone with dirs := r.base.dirs.recovered } frame)]
  rcases run_ok hprune hok with ⟨hnone, hdirs⟩ | ⟨plan, result, hplan, hremove, hrun⟩
  · rw [hdirs]
    exact iff_of_true hholds fun plan hplan hremove => absurd (hnone plan hplan) hremove
  · have hframes := @Prune.holds_run_iff
      { inp with dryRun := false, extraReferencedHashes := [] } cfg _ _ _ rfl hconfig hrun
    simp only [hplan, Option.some.injEq, forall_eq', hframes]
    exact ⟨fun h _ => h, fun h => h hremove⟩

/-- Keep the last backup, and prune. -/
def keepLastPruned : Options := { keepLast with prune := true }

/-- Two chunks and two backups, the newer of the first chunk, and the sidecar of a suspended one,
whose checkpoint names the given chunk. -/
def besideSuspended (h : Hash) : Repository where
  base := ⟨(Prune.twoChunks (Prune.legacyBackup none)).dirs, none,
    [("old", ⟨some (.ok ⟨[], none, .ok []⟩), none, none⟩), ("new", Prune.legacyBackup none),
      ("suspended", ⟨none, none, some (encodeEntry ⟨0, h, 1, false⟩)⟩)], []⟩
  metadata id := if id = "old" then .ok ⟨1, "full", ""⟩ else .ok ⟨2, "full", ""⟩

/-- The suspended backup. -/
def suspended : Suspended where
  id := "suspended"
  checkpoint := ⟨⟨0, 0, 1, 45, 1, usedHash, 0, 1, ⟨1, 1, 1, 0, 9⟩, none⟩, ""⟩
  segments := none

lemma suspended_durable (h : Hash) : suspended.Durable (besideSuspended h) := by
  refine ⟨by decide, by decide, Manifest.encodeEntry ⟨0, h, 1, false⟩, rfl, ?_⟩
  rw [Manifest.length_encodeEntry]
  decide

/-- The one hash of the checkpoint resolves to what the index has for it. -/
lemma suspended_resolves {h0 : Hash} {frame0 : Bytes}
    (hhashes : suspended.durableHashes (besideSuspended h0) = [h0])
    (hread : (Prune.resolve pruneInput pruneConfig.effective
      (besideSuspended h0).base.dirs h0).map Prod.fst = some frame0) :
    ∀ h ∈ suspended.durableHashes (besideSuspended h0), ∀ frame, suspended.Resolves pruneInput
      pruneConfig.effective (besideSuspended h0) h frame ↔ frame = frame0 := by
  intro h hh frame
  rw [hhashes, List.mem_singleton] at hh
  subst hh
  have hinserts : suspended.inserts (besideSuspended h) = [] := rfl
  obtain ⟨⟨frame', data⟩, hresolve, rfl⟩ := Option.map_eq_some_iff.1 hread
  simp only [Suspended.Resolves, hinserts, hresolve]
  simp [eq_comm]

/-- The newer backup references the chunk of the checkpoint too. -/
theorem suspended_holds_iff_shared :
    (run keepLastPruned pruneInput (fun _ => none) (besideSuspended usedHash)).1.2 =
      none ∧
      (∀ h ∈ suspended.durableHashes (besideSuspended usedHash), ∀ frame,
        suspended.Resolves pruneInput pruneConfig.effective
          (besideSuspended usedHash) h frame →
        Holds (run keepLastPruned pruneInput (fun _ => none)
          (besideSuspended usedHash)).2.base.dirs frame) ∧
      ∀ keepReasons,
        selectByPolicy (besideSuspended usedHash).list keepLastPruned.policy = .ok
          keepReasons →
        (planOf (besideSuspended usedHash) keepLastPruned).isSome →
        expired (besideSuspended usedHash) keepReasons ≠ [] →
        ∀ h ∈ suspended.durableHashes (besideSuspended usedHash), ∀ frame,
          suspended.Resolves pruneInput pruneConfig.effective
            (besideSuspended usedHash) h frame →
          Keeps { pruneInput with dryRun := false, extraReferencedHashes := [] }
            pruneConfig.effective
            { (besideSuspended usedHash).without
                (expired (besideSuspended usedHash) keepReasons) with
              dirs := (besideSuspended usedHash).base.dirs.recovered } frame := by
  have hok : (run keepLastPruned pruneInput (fun _ => none)
      (besideSuspended usedHash)).1.2 = none := by decide +kernel
  have hframe := @suspended_resolves usedHash (Store.encodeFrame [2] 1) (by decide +kernel)
    (by decide +kernel)
  have hbefore :
    Holds (besideSuspended usedHash).base.dirs (Store.encodeFrame [2] 1) := by
    decide +kernel
  have hafter : Holds (run keepLastPruned pruneInput (fun _ => none)
      (besideSuspended usedHash)).2.base.dirs (Store.encodeFrame [2] 1) := by decide +kernel
  have hkept : ∀ h ∈ suspended.durableHashes (besideSuspended usedHash), ∀ frame,
      suspended.Resolves pruneInput pruneConfig.effective
        (besideSuspended usedHash) h frame →
      Holds (run keepLastPruned pruneInput (fun _ => none)
        (besideSuspended usedHash)).2.base.dirs frame :=
    fun h hh frame hresolves => (hframe h hh frame).1 hresolves ▸ hafter
  exact ⟨hok, hkept, (suspended_holds_iff suspended rfl rfl hok fun h hh frame hresolves =>
    (hframe h hh frame).1 hresolves ▸ hbefore).1 hkept⟩

/-- **A forget drops a chunk of a suspended backup**: the prune finds it in no manifest. -/
theorem forget_drops_suspended :
    suspended.Durable (besideSuspended orphanHash) ∧
      (∀ h ∈ suspended.durableHashes (besideSuspended orphanHash), ∃ frame,
        suspended.Resolves pruneInput pruneConfig.effective
          (besideSuspended orphanHash) h frame ∧
        Holds (besideSuspended orphanHash).base.dirs frame) ∧
      (run keepLastPruned pruneInput (fun _ => none)
        (besideSuspended orphanHash)).1.2 = none ∧
      ∃ h ∈ suspended.durableHashes (besideSuspended orphanHash), ∃ frame,
        suspended.Resolves pruneInput pruneConfig.effective
          (besideSuspended orphanHash) h frame ∧
        ¬ Holds (run keepLastPruned pruneInput (fun _ => none)
          (besideSuspended orphanHash)).2.base.dirs frame := by
  have hhashes : suspended.durableHashes (besideSuspended orphanHash) =
    [orphanHash] := by
    decide +kernel
  have hframe := @suspended_resolves orphanHash (Store.encodeFrame [1] 1) hhashes
    (by decide +kernel)
  have hmem : orphanHash ∈ suspended.durableHashes (besideSuspended orphanHash) := by
    rw [hhashes]
    exact List.mem_singleton_self _
  refine ⟨suspended_durable _, fun h hh => ⟨_, (hframe h hh _).2 rfl, by decide +kernel⟩,
    by decide +kernel, _, hmem, _, (hframe _ hmem _).2 rfl, by decide +kernel⟩

end DiskNexus.Forget
