import DiskNexus.Forget.Policy
import DiskNexus.Prune.Run

/-!
# Forgetting backups

`forget.Run` lets the policy choose what to keep, protects what that references, and deletes the
other manifests, newest first. A deletion that fails is recorded and the loop goes on. Nothing
protects the references of a backup that was to be deleted but is still there.

## Main results

`noOrphans_iff`, `forget_orphans_increment`
-/

namespace DiskNexus.Forget

open Prune (Manifests)

/-! ## The repository -/

/-- The fields of a manifest's metadata that retention reads. The ID is left to the file name. -/
structure Metadata where
  timestamp : ℤ
  backupType : String
  parentBackupID : String

/-- A repository, with what reading the metadata of a manifest yields. -/
structure Repository where
  base : Prune.Repository
  metadata : String → Except String Metadata

namespace Repository

/-- The backups that have a manifest. -/
def ids (r : Repository) : List String := r.base.manifests.ids

/-- One line of `manifest.List`: the metadata without the catalog. -/
def listed (r : Repository) (id : String) : Option Backup :=
  match r.metadata id with
  | .error _ => none
  | .ok m => some ⟨id, m.timestamp, m.backupType, m.parentBackupID, []⟩

/-- `manifest.List`: the manifests that read, oldest first. -/
def list (r : Repository) : List Backup :=
  (r.ids.filterMap r.listed).insertionSort fun a b => a.timestamp ≤ b.timestamp

/-- `manifest.LoadCatalog`. -/
def loadCatalog (r : Repository) (id : String) : Except String Backup :=
  if (r.base.manifests.backup id).listed then
    match r.metadata id with
    | .error e => .error e
    | .ok m =>
      match (r.base.manifests.backup id).loadCatalog with
      | .error e => .error e
      | .ok catalog => .ok ⟨id, m.timestamp, m.backupType, m.parentBackupID, catalog⟩
  else .error "reading manifest"

/-- The files of a backup are gone. -/
def delete (r : Repository) (id : String) : Repository :=
  { r with base := { r.base with manifests := { r.base.manifests with
      backups := r.base.manifests.backups.filter fun b => b.1 ≠ id } } }

/-- A backup references another, by its parent or by a `DataBackupID`. -/
def References (r : Repository) (x y : String) : Prop :=
  y ≠ "" ∧ ((∃ m, r.metadata x = .ok m ∧ m.parentBackupID = y) ∨
    y ∈ (r.base.manifests.backup x).dataBackupIDs)

end Repository

/-! ## The plan -/

/-- `forget.Decision`. -/
structure Decision where
  id : String
  timestamp : ℤ
  backupType : String
  keep : Bool
  reasons : List String

/-- `forget.Plan`. -/
structure Plan where
  ordered : List Decision
  remove : List String
  promoted : List String
  dangling : List Dangling
  deleted : List String
  pruned : Option Prune.Result
  deleteErrs : List (String × String)

/-- `forget.Options`; `confirm` may refuse, or fail. -/
structure Options where
  policy : Policy
  dryRun : Bool
  prune : Bool
  strict : Bool
  confirm : Option (Plan → Except String Bool)

/-- `Protect`, with as many rounds as it can need. -/
def protectAll (allIDs : List String) (keepReasons : Protected)
    (load : String → Except String Backup) :
    Except (String × List Dangling) (Protected × List Dangling) :=
  (protect allIDs keepReasons load (allIDs.length + keepReasons.keys.length + 1)).getD
    (.error ("", []))

/-- The protected backups that the policy would not keep. -/
def promotedOf (found : Protected) : List String :=
  (found.entries.filter fun s => s.2.length = 1 ∧
    "promoted:".toList.isPrefixOf (s.2.headD "").toList).map (·.1) |>.insertionSort (· ≤ ·)

/-- The fate of a backup. -/
def decision (found : Protected) (b : Backup) : Decision :=
  ⟨b.backupID, b.timestamp, b.backupType, b.backupID ∈ found, (found.lookup b.backupID).getD []⟩

/-- `Run` up to its first deletion. -/
def makePlan (r : Repository) (opts : Options) : Except String Plan :=
  if opts.policy.any = false then
    .error "forget requires at least one --keep-* rule (refusing to expire every backup)"
  else
    match r.base.manifests.listIDs with
    | .error e => .error s!"listing backup IDs: {e}"
    | .ok rawIDs =>
      let total := rawIDs.length
      let parsed := r.list.length
      let unreadable : ℤ := total - parsed
      if rawIDs = [] then .error "no backups to expire"
      else if parsed ≠ total then
        .error (s!"forget: {unreadable} manifest(s) present but unreadable (parsed {parsed} of " ++
          s!"{total}); refusing — every manifest must be readable to compute a safe keep set " ++
          "(run 'index --rebuild-all' or repair the repo first)")
      else
        match selectByPolicy r.list opts.policy with
        | .error e => .error e
        | .ok keepReasons =>
          match protectAll rawIDs keepReasons r.loadCatalog with
          | .error e => .error e.1
          | .ok (found, dangling) =>
            let promoted := promotedOf found
            let promotedCount := promoted.length
            let names := ", ".intercalate promoted
            let ordered := (byRecency r.list).map (decision found)
            let remove := (ordered.filter fun d => !d.keep).map Decision.id
            if found.keys = [] then
              .error s!"policy would keep 0 of {total} backups; refusing to delete everything"
            else if opts.strict ∧ promoted ≠ [] then
              .error (s!"--strict: {promotedCount} expired backup(s) would be kept because kept " ++
                s!"backups reference them: {names}")
            else if remove.length = total then
              .error s!"computed plan would delete all {total} backups; refusing"
            else .ok ⟨ordered, remove, promoted, dangling, [], none, []⟩

/-- The answer to `Confirm`; without it the run goes ahead. -/
def confirmed (opts : Options) (plan : Plan) : Except String Bool :=
  match opts.confirm with
  | none => .ok true
  | some confirm => confirm plan

/-! ## The deletions -/

/-- One deletion; `fails` are those that fail, with their errors. -/
def deleteStep (fails : String → Option String) (s : Plan × Repository) (id : String) :
    Plan × Repository :=
  match fails id with
  | some e => ({ s.1 with deleteErrs := s.1.deleteErrs ++ [(id, e)] }, s.2)
  | none => ({ s.1 with deleted := s.1.deleted ++ [id] }, s.2.delete id)

/-- The deletion loop. -/
def deleteLoop (fails : String → Option String) (remove : List String) (s : Plan × Repository) :
    Plan × Repository :=
  remove.foldl (deleteStep fails) s

/-- The plan of a run that goes on to delete, and no other. -/
def planOf (r : Repository) (opts : Options) : Option Plan :=
  match makePlan r opts with
  | .error _ => none
  | .ok plan =>
    match opts.dryRun, confirmed opts plan with
    | false, .ok true => some plan
    | _, _ => none

/-- **`forget.Run`.** It returns a plan, an error, or both. -/
def run (opts : Options) (inp : Prune.Input) (fails : String → Option String) (r : Repository) :
    (Option Plan × Option String) × Repository :=
  match makePlan r opts with
  | .error e => ((none, some e), r)
  | .ok plan =>
    if opts.dryRun then ((some plan, none), r)
    else
      match confirmed opts plan with
      | .error e => ((some plan, some e), r)
      | .ok false => ((some plan, none), r)
      | .ok true =>
        let s := deleteLoop fails plan.remove (plan, r)
        let failed := s.1.deleteErrs.length
        if failed > 0 then
          ((some s.1, some s!"{failed} manifest(s) failed to delete (see plan)"), s.2)
        else if opts.prune ∧ s.1.deleted ≠ [] then
          -- the options of the prune name no hashes beyond those of the manifests
          match Prune.run { inp with dryRun := false, extraReferencedHashes := [] } s.2.base with
          | (.error e, base) =>
            ((some s.1, some s!"pruning after forget: {e}"), { s.2 with base := base })
          | (.ok res, base) =>
              ((some { s.1 with pruned := some res }, none), { s.2 with base := base })
        else ((some s.1, none), s.2)

/-- The repository when the process dies after `k` deletions, failed ones included. -/
def interrupted (opts : Options) (fails : String → Option String) (k : ℕ) (r : Repository) :
    Repository :=
  match planOf r opts with
  | none => r
  | some plan => (deleteLoop fails (plan.remove.take k) (plan, r)).2

/-- No backup that is still there references a deleted one. -/
def NoOrphans (r r' : Repository) : Prop :=
  ∀ x ∈ r'.ids, ∀ y ∈ r.ids, y ∉ r'.ids → ¬ r'.References x y

/-! ## What the deletions leave -/

section Deletions

variable {r : Repository} {fails : String → Option String}

lemma backup_delete {x id : String} (h : x ≠ id) :
    (r.delete id).base.manifests.backup x = r.base.manifests.backup x := by
  simp only [Repository.delete, Manifests.backup, List.find?_filter]
  congr 3
  funext b
  by_cases hb : b.1 = x
  · simp [hb, h]
  · simp [hb]

lemma mem_ids_delete {x id : String} : x ∈ (r.delete id).ids ↔ x ∈ r.ids ∧ x ≠ id := by
  unfold Repository.ids Manifests.ids
  rw [List.mem_filter, List.mem_filter]
  by_cases hx : x = id
  · subst hx
    simp [Repository.delete]
  · rw [backup_delete hx]
    simp only [ne_eq, hx, not_false_eq_true, and_true]
    refine and_congr_left fun _ => ?_
    simp only [Repository.delete, List.mem_map, List.mem_filter]
    constructor
    · rintro ⟨b, ⟨hb, -⟩, rfl⟩
      exact ⟨b, hb, rfl⟩
    · rintro ⟨b, hb, rfl⟩
      exact ⟨b, ⟨hb, by simpa using hx⟩, rfl⟩

/-- A deletion that was tried and did not fail. -/
def Gone (fails : String → Option String) (tried : List String) (id : String) : Prop :=
  id ∈ tried ∧ fails id = none

/-- The deletion loop removes what it does not fail at. -/
lemma deleteLoop_repository (tried : List String) (s : Plan × Repository) :
    (∀ x, x ∈ (deleteLoop fails tried s).2.ids ↔ x ∈ s.2.ids ∧ ¬ Gone fails tried x) ∧
      (∀ x, ¬ Gone fails tried x → (deleteLoop fails tried s).2.base.manifests.backup x =
        s.2.base.manifests.backup x) ∧
      (deleteLoop fails tried s).2.metadata = s.2.metadata := by
  induction tried generalizing s with
  | nil => simp [deleteLoop, Gone]
  | cons id tried ih =>
    rw [deleteLoop, List.foldl_cons, ← deleteLoop]
    obtain ⟨hids, hbackup, hmeta⟩ := ih (deleteStep fails s id)
    unfold deleteStep at hids hbackup hmeta ⊢
    cases hfail : fails id with
    | some e =>
      rw [hfail] at hids hbackup hmeta
      have hgone : ∀ x, Gone fails (id :: tried) x ↔ Gone fails tried x := by
        intro x
        simp only [Gone, List.mem_cons]
        refine ⟨fun h => ⟨h.1.resolve_left ?_, h.2⟩, fun h => ⟨.inr h.1, h.2⟩⟩
        rintro rfl
        simp [hfail] at h
      simp only [hgone]
      exact ⟨hids, hbackup, hmeta⟩
    | none =>
      rw [hfail] at hids hbackup hmeta
      have hgone : ∀ x, Gone fails (id :: tried) x ↔ x = id ∨ Gone fails tried x := by
        intro x
        simp only [Gone, List.mem_cons]
        constructor
        · rintro ⟨rfl | hx, hnone⟩
          · exact .inl rfl
          · exact .inr ⟨hx, hnone⟩
        · rintro (rfl | ⟨hx, hnone⟩)
          · exact ⟨.inl rfl, hfail⟩
          · exact ⟨.inr hx, hnone⟩
      refine ⟨fun x => ?_, fun x hx => ?_, hmeta⟩
      · rw [hids, mem_ids_delete, hgone]
        tauto
      · rw [hgone, not_or] at hx
        rw [hbackup x hx.2, backup_delete hx.1]

lemma references_congr {r r' : Repository} {x : String} (hmeta : r'.metadata = r.metadata)
    (hbackup : r'.base.manifests.backup x = r.base.manifests.backup x) (y : String) :
    r'.References x y ↔ r.References x y := by
  rw [Repository.References, hmeta, hbackup, Repository.References]

end Deletions

/-! ## What is protected -/

section Protection

variable {r : Repository} {opts : Options} {plan : Plan}

open Classical in
/-- What a run wants to delete, newest first: what is not referenced from what the policy keeps. -/
noncomputable def expired (r : Repository) (keepReasons : Protected) : List String :=
  ((byRecency r.list).map Backup.backupID).filter fun id =>
    ¬ Closure r.ids r.loadCatalog keepReasons id

/-- What a plan that was made has checked. -/
lemma makePlan_ok (h : makePlan r opts = .ok plan) :
    ∃ keepReasons found dangling, r.list.length = r.ids.length ∧
      selectByPolicy r.list opts.policy = .ok keepReasons ∧
      protectAll r.ids keepReasons r.loadCatalog = .ok (found, dangling) ∧
      plan.remove = ((byRecency r.list).filter fun b => b.backupID ∉ found).map Backup.backupID ∧
      plan.deleted = [] := by
  unfold makePlan Manifests.listIDs at h
  split at h
  · cases h
  · split at h
    · cases h
    · rename_i rawIDs hids
      split at hids
      · cases hids
      · cases hids
        simp only at h
        split at h
        · cases h
        · split at h
          · cases h
          · rename_i hlen
            split at h
            · cases h
            · rename_i keepReasons hselect
              split at h
              · cases h
              · rename_i found dangling hprotect
                split at h
                · cases h
                · split at h
                  · cases h
                  · split at h
                    · cases h
                    · cases h
                      refine ⟨keepReasons, found, dangling, not_not.1 hlen, hselect, hprotect,
                        ?_, rfl⟩
                      simp [List.filter_map, Function.comp_def, decision]

lemma protectAll_ok {allIDs : List String} {keepReasons : Protected}
    {load : String → Except String Backup} {found : Protected} {dangling : List Dangling}
    (h : protectAll allIDs keepReasons load = .ok (found, dangling)) :
    Protects allIDs load keepReasons (.ok (found, dangling)) := by
  obtain ⟨res, hres, hprotects⟩ := protect_protects allIDs load keepReasons
  rw [protectAll, hres _ (Nat.lt_succ_self _), Option.getD_some] at h
  exact h ▸ hprotects

/-- A backup that is listed, if every manifest reads. -/
lemma mem_list_iff (h : r.list.length = r.ids.length) {x : String} :
    x ∈ (byRecency r.list).map Backup.backupID ↔ x ∈ r.ids := by
  rw [Repository.list, List.length_insertionSort, List.filterMap_length_eq_length] at h
  simp only [List.mem_map, mem_byRecency, Repository.list, List.mem_insertionSort,
    List.mem_filterMap]
  constructor
  · rintro ⟨b, ⟨id, hid, hb⟩, rfl⟩
    unfold Repository.listed at hb
    split at hb
    · cases hb
    · cases hb
      exact hid
  · intro hx
    obtain ⟨b, hb⟩ := Option.isSome_iff_exists.1 (h x hx)
    refine ⟨b, ⟨x, hx, hb⟩, ?_⟩
    unfold Repository.listed at hb
    split at hb
    · cases hb
    · cases hb
      rfl

/-- The references of a backup that loads. -/
lemma references_iff {x y : String} {b : Backup} (h : r.loadCatalog x = .ok b) :
    r.References x y ↔ ∃ via, ⟨y, via⟩ ∈ referenceEdges b := by
  unfold Repository.loadCatalog at h
  split at h
  · split at h
    · cases h
    · rename_i m hmeta
      split at h
      · cases h
      · rename_i catalog hcatalog
        cases h
        simp only [Repository.References, hmeta, Except.ok.injEq, exists_eq_left',
          Prune.BackupFiles.dataBackupIDs, hcatalog, Except.toOption, Option.getD_some,
          mem_referenceEdges, List.mem_filter, decide_eq_true_eq]
        constructor
        · rintro ⟨hy, hparent | hdata⟩
          · exact ⟨.parent, hy, .inl ⟨rfl, hparent.symm⟩⟩
          · exact ⟨.data, hy, .inr ⟨rfl, hdata.1⟩⟩
        · rintro ⟨via, hy, ⟨-, hparent⟩ | ⟨-, hdata⟩⟩
          · exact ⟨hy, .inl hparent.symm⟩
          · exact ⟨hy, .inr ⟨hdata, by simpa using hy⟩⟩
  · cases h

lemma planOf_eq_some (h : planOf r opts = some plan) : makePlan r opts = .ok plan := by
  unfold planOf at h
  split at h
  · cases h
  · rename_i plan' hplan
    split at h
    · cases h
      exact hplan
    · cases h

/-- A plan removes what is expired, and what is expired is there. -/
lemma remove_eq_expired {keepReasons : Protected} (h : makePlan r opts = .ok plan)
    (hselect : selectByPolicy r.list opts.policy = .ok keepReasons) :
    plan.remove = expired r keepReasons ∧
      (∀ x, x ∈ expired r keepReasons ↔
        x ∈ r.ids ∧ ¬ Closure r.ids r.loadCatalog keepReasons x) ∧
      ∀ x, Closure r.ids r.loadCatalog keepReasons x →
        ∀ y ∈ r.ids, r.References x y → Closure r.ids r.loadCatalog keepReasons y := by
  classical
  obtain ⟨keep', found, dangling, hlen, hselect', hprotect, hremove, -⟩ := makePlan_ok h
  rw [hselect] at hselect'
  cases hselect'
  obtain ⟨hfound, hload, hclosed, -⟩ := protectAll_ok hprotect
  refine ⟨?_, fun x => ?_, fun x hx y hy hrefers => ?_⟩
  · rw [hremove, expired, List.filter_map]
    congr 1
    refine List.filter_congr fun b _ => ?_
    simp only [Function.comp_apply, hfound]
  · rw [expired, List.mem_filter, mem_list_iff hlen, decide_eq_true_eq]
  · have hmem := (hfound x).2 hx
    obtain ⟨b, hb⟩ := hload x hmem
    obtain ⟨via, hedge⟩ := (references_iff hb).1 hrefers
    exact (hfound y).1 (hclosed x hmem y ⟨hy, via, b, hb, hedge⟩)

end Protection

/-! ## Orphans -/

section Orphans

variable {r : Repository} {opts : Options} {fails : String → Option String}

/-- What `NoOrphans` reads of the repository that is left. -/
lemma noOrphans_congr {r1 r2 : Repository}
    (hbackups : r1.base.manifests.backups = r2.base.manifests.backups)
    (hmeta : r1.metadata = r2.metadata) : NoOrphans r r1 ↔ NoOrphans r r2 := by
  have hbackup : ∀ x, r1.base.manifests.backup x = r2.base.manifests.backup x := fun x => by
    rw [Manifests.backup, hbackups, Manifests.backup]
  have hids : r1.ids = r2.ids := by
    unfold Repository.ids Manifests.ids
    rw [hbackups, funext hbackup]
  unfold NoOrphans
  rw [hids]
  simp only [fun x => references_congr hmeta (hbackup x)]

/-- A prune leaves the manifests. -/
lemma run_backups (inp : Prune.Input) (base : Prune.Repository) :
    (Prune.run inp base).2.manifests.backups = base.manifests.backups := by
  have hbak : ∀ m : Manifests, (Prune.removeBakFiles m).2.backups = m.backups := fun m => by
    unfold Prune.removeBakFiles
    split <;> rfl
  have hswap : ∀ cfg entries result (r : Prune.Repository),
      (Prune.rewriteAndSwap inp cfg entries result r).2.manifests.backups =
        r.manifests.backups := by
    intro cfg entries result r
    unfold Prune.rewriteAndSwap
    simp only
    split
    · rfl
    · split
      · rfl
      · exact hbak _
  have hwith : ∀ cfg referenced all (r : Prune.Repository),
      (Prune.runWith inp cfg referenced all r).2.manifests.backups = r.manifests.backups := by
    intro cfg referenced all r
    unfold Prune.runWith
    simp only
    split
    · rfl
    · split
      · exact hbak _
      · exact hswap _ _ _ _
  have hrecovered : ∀ r : Prune.Repository,
      (Prune.runRecovered inp r).2.manifests.backups = r.manifests.backups := by
    intro r
    unfold Prune.runRecovered
    split
    · rfl
    · simp only
      split
      · rfl
      · split
        · rfl
        · exact hwith _ _ _ _
  unfold Prune.run
  split
  · split
    · rfl
    · exact hrecovered _
  · exact hrecovered _

/-- A run leaves the manifests that its deletion loop leaves. -/
lemma run_repository (opts : Options) (inp : Prune.Input) (fails : String → Option String)
    (r : Repository) : NoOrphans r (run opts inp fails r).2 ↔
      NoOrphans r (interrupted opts fails r.ids.length r) := by
  unfold run interrupted planOf
  cases hplan : makePlan r opts with
  | error e => rfl
  | ok plan =>
    have htake : plan.remove.take r.ids.length = plan.remove := by
      obtain ⟨keep, found, dangling, hlen, -, -, hremove, -⟩ := makePlan_ok hplan
      refine List.take_of_length_le ?_
      rw [hremove, List.length_map, ← hlen]
      exact (List.length_filter_le _ _).trans_eq (List.length_insertionSort _ _)
    cases opts.dryRun with
    | true => rfl
    | false =>
      simp only [Bool.false_eq_true, if_false]
      rcases confirmed opts plan with e | _ | _
      · rfl
      · rfl
      · simp only [htake]
        split
        · rfl
        · split
          · have hbackups := run_backups { inp with dryRun := false, extraReferencedHashes := [] }
              (deleteLoop fails plan.remove (plan, r)).2.base
            split
            · rename_i e base hprune
              rw [hprune] at hbackups
              exact noOrphans_congr hbackups rfl
            · rename_i res base hprune
              rw [hprune] at hbackups
              exact noOrphans_congr hbackups rfl
          · rfl

/-- What the condition for the deletions that are reached comes to. -/
lemma noOrphans_interrupted_iff (opts : Options) (fails : String → Option String) (k : ℕ)
    (r : Repository) : NoOrphans r (interrupted opts fails k r) ↔
      ∀ keepReasons, selectByPolicy r.list opts.policy = .ok keepReasons →
        (planOf r opts).isSome → ∀ x ∈ expired r keepReasons,
          ∀ y ∈ (expired r keepReasons).take k, fails y = none → r.References x y →
            x ∈ (expired r keepReasons).take k ∧ fails x = none := by
  unfold interrupted
  cases hplan : planOf r opts with
  | none =>
    simp only [Option.isSome_none, Bool.false_eq_true, false_implies, implies_true, iff_true]
    exact fun x _ y hy hgone => absurd hy hgone
  | some plan =>
    simp only [Option.isSome_some, true_implies]
    have hmade := planOf_eq_some hplan
    obtain ⟨keepReasons, -, -, -, hselect, -⟩ := makePlan_ok hmade
    obtain ⟨hremove, hexpired, hclosed⟩ := remove_eq_expired hmade hselect
    rw [hremove]
    obtain ⟨hids, hbackup, hmeta⟩ := @deleteLoop_repository fails
      ((expired r keepReasons).take k) (plan, r)
    constructor
    · intro horphans keep' hselect' x hx y hy hfail hrefers
      rw [hselect] at hselect'
      cases hselect'
      by_contra hx'
      have hxids := (hids x).2 ⟨((hexpired x).1 hx).1, hx'⟩
      have hyids := ((hexpired y).1 (List.mem_of_mem_take hy)).1
      refine horphans x hxids y hyids (fun hmem => ((hids y).1 hmem).2 ⟨hy, hfail⟩) ?_
      exact (references_congr hmeta (hbackup x hx') y).2 hrefers
    · intro hcond x hx y hy hgone hrefers
      obtain ⟨hxids, hx'⟩ := (hids x).1 hx
      have hrefers := (references_congr hmeta (hbackup x hx') y).1 hrefers
      have hygone : Gone fails ((expired r keepReasons).take k) y := by
        by_contra hnot
        exact hgone ((hids y).2 ⟨hy, hnot⟩)
      have hyexpired := (hexpired y).1 (List.mem_of_mem_take hygone.1)
      by_cases hclosure : Closure r.ids r.loadCatalog keepReasons x
      · exact hyexpired.2 (hclosed x hclosure y hy hrefers)
      · exact hx' (hcond keepReasons hselect x ((hexpired x).2 ⟨hxids, hclosure⟩) y hygone.1
          hygone.2 hrefers)

/-- **When forgetting leaves no orphans.** Of two expired backups of which one references the other,
the referenced one must not be deleted alone. A run that is not interrupted gets through the whole
list.

**Proof sketch.** What is kept is closed under references, so only an expired backup that is still
there can reference one that is gone. -/
theorem noOrphans_iff (opts : Options) (inp : Prune.Input) (fails : String → Option String)
    (r : Repository) :
    (∀ k, NoOrphans r (interrupted opts fails k r) ↔
      ∀ keepReasons, selectByPolicy r.list opts.policy = .ok keepReasons →
        (planOf r opts).isSome → ∀ x ∈ expired r keepReasons,
          ∀ y ∈ (expired r keepReasons).take k, fails y = none → r.References x y →
            x ∈ (expired r keepReasons).take k ∧ fails x = none) ∧
      (NoOrphans r (run opts inp fails r).2 ↔
        NoOrphans r (interrupted opts fails r.ids.length r)) :=
  ⟨fun k => noOrphans_interrupted_iff opts fails k r, run_repository opts inp fails r⟩

/-- A full backup, an increment before it and the base of that. -/
def chained : Repository where
  base := ⟨⟨none, none, none, none, none⟩, none,
    ["a", "b", "c"].map fun id => (id, ⟨some (.ok ⟨[], none, .ok []⟩), none, none⟩), []⟩
  metadata id :=
    if id = "a" then .ok ⟨1, "full", ""⟩
    else if id = "b" then .ok ⟨2, "incremental", "a"⟩
    else .ok ⟨3, "full", ""⟩

/-- Keep the last backup. -/
def keepLast : Options where
  policy := ⟨1, 0, 0, 0, 0, 0, ⟨0, 0, 0, 0⟩, false, 0,
    ⟨fun _ => ⟨0, 0, 0, 0, 0, 0⟩, fun t _ _ _ => t⟩⟩
  dryRun := false
  prune := false
  strict := false
  confirm := none

/-- The deletion of the increment fails. -/
def locked (id : String) : Option String := if id = "b" then some "permission denied" else none

/-- The settings of a prune, which is not asked for. -/
def idlePrune : Prune.Input :=
  ⟨false, none, [], .error "unused", id, some, fun _ => 0, fun _ => 64, fun _ => [], ([], []),
    fun _ => false, fun _ => .none, false⟩

/-- The increment is left behind and its parent is gone. -/
theorem forget_orphans_increment :
    ¬ NoOrphans chained (run keepLast idlePrune locked chained).2 := by
  rw [run_repository]
  intro horphans
  have hlen : chained.ids.length = 3 := by decide +kernel
  rw [hlen] at horphans
  have hb : "b" ∈ (interrupted keepLast locked 3 chained).ids := by decide +kernel
  have ha : "a" ∉ (interrupted keepLast locked 3 chained).ids := by decide +kernel
  refine horphans "b" hb "a" (by decide +kernel) ha
    ⟨by decide, .inl ⟨⟨2, "incremental", "a"⟩, ?_, rfl⟩⟩
  rfl

end Orphans

end DiskNexus.Forget
