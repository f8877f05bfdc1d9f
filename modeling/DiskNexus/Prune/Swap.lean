import DiskNexus.Lib.CrashLogic
import DiskNexus.Repo.FileName

/-!
# The prune swap and its recovery

`prune.atomicSwap` moves the rewritten `chunks/` and `index/` into place by renames, and
`prune.recoverIfNeeded` cleans up after a swap that did not finish. A removal works on a directory
tree and may be cut part way; a rename is atomic (`os.Rename`).
-/

namespace DiskNexus.Prune

open Binary CrashLogic

/-- The files of one directory. -/
abbrev Dir := RepoDir

/-- The staging directory's two subdirectories. -/
structure Staging where
  chunks : Option Dir
  index : Option Dir

/-- The directories of a repository that a prune touches. -/
structure Repo where
  chunks : Option Dir
  index : Option Dir
  staging : Option Staging
  oldChunks : Option Dir
  oldIndex : Option Dir

/-- The directories a prune renames and removes; `staging` holds the two after it. -/
inductive Path
  | chunks
  | index
  | staging
  | stagingChunks
  | stagingIndex
  | oldChunks
  | oldIndex
  deriving DecidableEq, Repr

/-! ## Reading and writing directories -/

/-- The files of a directory; `staging` itself has none. -/
@[simp] def Repo.get (r : Repo) : Path → Option Dir
  | .chunks => r.chunks
  | .index => r.index
  | .staging => r.staging.map fun _ => ∅
  | .stagingChunks => r.staging.bind (·.chunks)
  | .stagingIndex => r.staging.bind (·.index)
  | .oldChunks => r.oldChunks
  | .oldIndex => r.oldIndex

/-- Replace a directory. Inside a missing `staging` nothing can be created. -/
@[simp] def Repo.put (r : Repo) (p : Path) (d : Option Dir) : Repo :=
  match p with
  | .chunks => { r with chunks := d }
  | .index => { r with index := d }
  | .staging => { r with staging := d.map fun _ => ⟨none, none⟩ }
  | .stagingChunks => { r with staging := r.staging.map fun st => { st with chunks := d } }
  | .stagingIndex => { r with staging := r.staging.map fun st => { st with index := d } }
  | .oldChunks => { r with oldChunks := d }
  | .oldIndex => { r with oldIndex := d }

/-- `dirExists`. -/
@[simp] def Repo.has (r : Repo) (p : Path) : Bool := (r.get p).isSome

/-- Whether the directory a path lies in exists. -/
@[simp] def Repo.parentExists (r : Repo) : Path → Bool
  | .stagingChunks | .stagingIndex => r.staging.isSome
  | _ => true

/-! ## Filesystem calls -/

/-- The filesystem calls of the swap and the recovery. -/
inductive FsOp
  | dirExists (p : Path)
  | rename (src dst : Path)
  | removeAll (p : Path)
  | writeFile (p : Path) (name : FileName) (data : Bytes)

/-- What each call answers. The result of a removal is ignored by every caller. -/
def FsOp.Ans : FsOp → Type
  | .dirExists _ => Bool
  | .rename _ _ => Bool
  | .removeAll _ => Unit
  | .writeFile _ _ _ => Bool

/-- `os.Rename` of a directory. -/
@[simp] def Repo.rename (r : Repo) (src dst : Path) : Bool × Repo :=
  match r.get src with
  | none => (false, r)
  | some d =>
    if r.has dst || !r.parentExists dst then (false, r)
    else (true, (r.put src none).put dst (some d))

/-- `os.WriteFile` of one file into a directory. -/
@[simp] def Repo.writeFile (r : Repo) (p : Path) (name : FileName) (data : Bytes) : Bool × Repo :=
  match r.get p with
  | none => (false, r)
  | some d => (true, r.put p (some (d.insert name data)))

/-- The calls when nothing goes wrong. -/
def Repo.act (r : Repo) : (o : FsOp) → o.Ans × Repo
  | .dirExists p => (r.has p, r)
  | .rename src dst => r.rename src dst
  | .removeAll p => ((), r.put p none)
  | .writeFile p name data => r.writeFile p name data

/-! ## Failures and interruptions -/

/-- `d'` is what may remain of `d` while it is being removed. -/
def DirPart (d' d : Dir) : Prop := ∀ f, d'.lookup f = none ∨ d'.lookup f = d.lookup f

/-- What may remain of a directory that may already be gone. -/
def PartialDir (d' d : Option Dir) : Prop :=
  d' = none ∨ ∃ a b, d' = some a ∧ d = some b ∧ DirPart a b

/-- What a removal that is cut part way may leave. -/
def Repo.RemovedPart (r : Repo) (p : Path) (r' : Repo) : Prop :=
  match p with
  | .staging => ∃ st st', r.staging = some st ∧ PartialDir st'.chunks st.chunks ∧
      PartialDir st'.index st.index ∧ r' = { r with staging := some st' }
  | p => ∃ d d', r.get p = some d ∧ DirPart d' d ∧ r' = r.put p (some d')

/-- What a call leaves when the process dies inside it. A rename is atomic. -/
def Repo.Cut (r : Repo) (o : FsOp) (r' : Repo) : Prop :=
  match o with
  | .dirExists _ => False
  | .rename _ _ => False
  | .removeAll p => r.RemovedPart p r'
  | .writeFile p name data => ∃ part, part <+: data ∧ r' = (r.writeFile p name part).2

/-- A call that reports an error instead of doing its work. -/
def Repo.Fails (r : Repo) : (o : FsOp) → o.Ans → Repo → Prop
  | .rename _ _, ok, r' => ok = false ∧ r' = r
  | .writeFile p name data, ok, r' => ok = false ∧
      (r' = r ∨ ∃ part, part <+: data ∧ r' = (r.writeFile p name part).2)
  | _, _, _ => False

/-- The machine of the swap: every rename and every file write may fail, and the process may die. -/
def swapMachine : Machine FsOp FsOp.Ans Repo where
  step r o a r' := (a, r') = r.act o ∨ r.Fails o a r'
  cut := Repo.Cut

/-- The machine of a recovery whose own renames succeed: the process may still die. -/
def recoverMachine : Machine FsOp FsOp.Ans Repo where
  step r o a r' := (a, r') = r.act o
  cut := Repo.Cut

/-! ## The programs -/

/-- Programs over the filesystem calls. -/
abbrev FsProg := Prog FsOp FsOp.Ans

/-- `dirExists`, as a call. -/
def dirExists (p : Path) : FsProg Bool := Prog.issue (FsOp.dirExists p)

/-- `os.Rename`; `true` when it succeeded. -/
def rename (src dst : Path) : FsProg Bool := Prog.issue (FsOp.rename src dst)

/-- `os.RemoveAll`. -/
def removeAll (p : Path) : FsProg Unit := Prog.issue (FsOp.removeAll p)

/-- The file that marks the generation of a pack layout. -/
def packsGenerationFile : FileName := .generation

/-- `store.WriteGenerationFile`: write a fresh generation into a chunks directory. -/
def writeGenerationFile (chunksDir : Path) (gen : Bytes) : FsProg Bool :=
  Prog.issue (FsOp.writeFile chunksDir packsGenerationFile gen)

/-- The rollback of the packs after a later rename failed; its own renames are not checked. -/
def rollbackChunks (msg : String) : FsProg (Option String) := do
  let _ ← rename .chunks .stagingChunks
  let _ ← rename .oldChunks .chunks
  return some msg

/-- The end of the swap: remove the old directories and staging. -/
def swapCleanup : FsProg (Option String) := do
  removeAll .oldChunks
  removeAll .oldIndex
  removeAll .staging
  return none

/-- The four renames of the swap, each with the rollback of the ones before it. -/
def swapRenames : FsProg (Option String) := do
  if !(← rename .chunks .oldChunks) then
    return some "moving chunks aside"
  if !(← rename .stagingChunks .chunks) then
    let _ ← rename .oldChunks .chunks
    return some "moving staging chunks into place"
  if !(← rename .index .oldIndex) then
    rollbackChunks "moving index aside"
  else if !(← rename .stagingIndex .index) then
    let _ ← rename .oldIndex .index
    rollbackChunks "moving staging index into place"
  else swapCleanup

/-- `prune.atomicSwap`, with the two generations of its random source: the error it returns. -/
def atomicSwap (gen₁ gen₂ : Bytes) : FsProg (Option String) := do
  -- the source writes the generation twice; the second one is the one that stays
  if !(← writeGenerationFile .stagingChunks gen₁) then
    return some "writing packs generation into staging"
  if !(← writeGenerationFile .stagingChunks gen₂) then
    return some "writing packs generation into staging"
  swapRenames

/-- `prune.pruneRecoveryPending`. -/
def pruneRecoveryPending (r : Repo) : Bool :=
  r.has .staging || r.has .oldChunks || r.has .oldIndex

/-- The recovery of a crash between the first two renames: roll back to the old pair. -/
def recoverRollBack (hasOldIndex : Bool) : FsProg Unit := do
  let _ ← rename .oldChunks .chunks
  if hasOldIndex && !(← dirExists .index) then
    let _ ← rename .oldIndex .index

/-- The recovery when `chunks.prune-old` and `chunks` both exist: roll forward. -/
def recoverRollForward (stagingIndexExists hasOldIndex : Bool) : FsProg Unit := do
  if stagingIndexExists then
    removeAll .index
    let _ ← rename .stagingIndex .index
  else if !(← dirExists .index) && hasOldIndex then
    let _ ← rename .oldIndex .index
  removeAll .oldChunks

/-- The recovery without `chunks.prune-old`. -/
def recoverIndexOnly (hasOldIndex : Bool) : FsProg Unit := do
  if !(← dirExists .index) && hasOldIndex then
    let _ ← rename .oldIndex .index

/-- The final cleanup of a recovery. -/
def recoverCleanup (hasStaging : Bool) : FsProg Unit := do
  if (← dirExists .oldIndex) && (← dirExists .index) then
    removeAll .oldIndex
  if hasStaging then
    removeAll .staging

/-- `prune.recoverIfNeeded`. -/
def recoverIfNeeded : FsProg Unit := do
  let hasStaging ← dirExists .staging
  let hasOldChunks ← dirExists .oldChunks
  let hasOldIndex ← dirExists .oldIndex
  if !hasStaging && !hasOldChunks && !hasOldIndex then
    return ()
  let stagingIndexExists ← dirExists .stagingIndex
  let hasChunks ← dirExists .chunks
  (if hasOldChunks && !hasChunks then recoverRollBack hasOldIndex
    else if hasOldChunks && hasChunks then recoverRollForward stagingIndexExists hasOldIndex
    else recoverIndexOnly hasOldIndex)
  recoverCleanup hasStaging

end DiskNexus.Prune
