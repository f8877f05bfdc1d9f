import DiskNexus.Lib.Binary
import Mathlib.Data.List.AList

/-!
# The files of one directory

A directory is a finite map from file names to their bytes. A process creates, appends to,
patches, renames and removes files. It may die between two operations or inside one: an append
and a patch may be cut at any byte, the other operations are atomic.

## Main results

`crashAt_append`, `lookup_crashAt`
-/

namespace Files

open Binary

/-- The files of one directory, by name. -/
abbrev Dir (κ : Type) := AList (fun _ : κ => Bytes)

/-- The operations on files. `create` truncates a file that exists. -/
inductive FileOp (κ : Type)
  | create (name : κ)
  | append (name : κ) (data : Bytes)
  | patch (name : κ) (offset : ℕ) (data : Bytes)
  | rename (src dst : κ)
  | remove (name : κ)

variable {κ : Type} [DecidableEq κ]

/-- Append to a file; nothing happens to a missing one. -/
def appendTo (d : Dir κ) (name : κ) (data : Bytes) : Dir κ :=
  match d.lookup name with
  | none => d
  | some old => d.insert name (old ++ data)

/-- Overwrite bytes of a file. -/
def patchIn (d : Dir κ) (name : κ) (offset : ℕ) (data : Bytes) : Dir κ :=
  match d.lookup name with
  | none => d
  | some old => d.insert name (old.take offset ++ data ++ old.drop (offset + data.length))

/-- Rename a file over whatever the destination held. -/
def renameIn (d : Dir κ) (src dst : κ) : Dir κ :=
  match d.lookup src with
  | none => d
  | some data => (d.erase src).insert dst data

/-- The effect of an operation that completes. -/
def FileOp.act (d : Dir κ) : FileOp κ → Dir κ
  | .create name => d.insert name []
  | .append name data => appendTo d name data
  | .patch name offset data => patchIn d name offset data
  | .rename src dst => renameIn d src dst
  | .remove name => d.erase name

/-- The effect of an operation that is cut after `n` bytes. -/
def FileOp.actCut (n : ℕ) (d : Dir κ) : FileOp κ → Dir κ
  | .append name data => appendTo d name (data.take n)
  | .patch name offset data => patchIn d name offset (data.take n)
  | _ => d

/-- The effect of operations that all complete. -/
def runOps (d : Dir κ) (ops : List (FileOp κ)) : Dir κ := ops.foldl FileOp.act d

/-- The directory left by a process that dies after `k` operations and `n` bytes of the next. -/
def crashAt (d : Dir κ) (ops : List (FileOp κ)) (k n : ℕ) : Dir κ :=
  match ops[k]? with
  | none => runOps d (ops.take k)
  | some o => o.actCut n (runOps d (ops.take k))

@[simp] lemma runOps_nil (d : Dir κ) : runOps d [] = d := rfl

@[simp] lemma runOps_cons (d : Dir κ) (o : FileOp κ) (ops : List (FileOp κ)) :
    runOps d (o :: ops) = runOps (o.act d) ops := rfl

@[simp] lemma runOps_append (d : Dir κ) (ops₁ ops₂ : List (FileOp κ)) :
    runOps d (ops₁ ++ ops₂) = runOps (runOps d ops₁) ops₂ := List.foldl_append

variable {d : Dir κ} {ops : List (FileOp κ)} {name f : κ}

/-- A crash after the last operation. -/
lemma crashAt_of_length_le {k n : ℕ} (h : ops.length ≤ k) :
    crashAt d ops k n = runOps d ops := by
  rw [crashAt, List.getElem?_eq_none h, List.take_of_length_le h]

/-- A crash in a composed list of operations is a crash in one of its parts. -/
lemma crashAt_append (d : Dir κ) (ops1 ops2 : List (FileOp κ)) (k n : ℕ) :
    crashAt d (ops1 ++ ops2) k n =
      if k < ops1.length then crashAt d ops1 k n
      else crashAt (runOps d ops1) ops2 (k - ops1.length) n := by
  by_cases hk : k < ops1.length
  · rw [if_pos hk, crashAt, crashAt, List.getElem?_append_left hk,
      List.take_append_of_le_length hk.le]
  · rw [if_neg hk, crashAt, crashAt, List.getElem?_append_right (by omega), List.take_append,
      List.take_of_length_le (by omega), runOps_append]

/-! ## Files an operation leaves alone -/

/-- The operation may change the file `name`. -/
@[simp] def FileOp.Touches (name : κ) : FileOp κ → Prop
  | .create f => f = name
  | .append f _ => f = name
  | .patch f _ _ => f = name
  | .rename src dst => src = name ∨ dst = name
  | .remove f => f = name

section Untouched

omit [DecidableEq κ]

/-- A file the operations of a list do not touch. -/
def Untouched (name : κ) (ops : List (FileOp κ)) : Prop := ∀ o ∈ ops, ¬ o.Touches name

@[simp] lemma untouched_nil : Untouched name [] := nofun

@[simp] lemma untouched_cons {o : FileOp κ} :
    Untouched name (o :: ops) ↔ ¬ o.Touches name ∧ Untouched name ops :=
  List.forall_mem_cons

@[simp] lemma untouched_map {α : Type} {l : List α} {g : α → FileOp κ} :
    Untouched name (l.map g) ↔ ∀ a ∈ l, ¬ (g a).Touches name :=
  List.forall_mem_map

@[simp] lemma untouched_append {ops₁ ops₂ : List (FileOp κ)} :
    Untouched name (ops₁ ++ ops₂) ↔ Untouched name ops₁ ∧ Untouched name ops₂ :=
  List.forall_mem_append

lemma Untouched.append {ops1 ops2 : List (FileOp κ)} (h1 : Untouched name ops1)
    (h2 : Untouched name ops2) : Untouched name (ops1 ++ ops2) :=
  untouched_append.2 ⟨h1, h2⟩

end Untouched

lemma lookup_appendTo {old : Bytes} (h : d.lookup name = some old) (data : Bytes) :
    (appendTo d name data).lookup name = some (old ++ data) := by
  rw [appendTo, h]
  exact AList.lookup_insert d

lemma lookup_patchIn {old : Bytes} (h : d.lookup name = some old) (offset : ℕ) (data : Bytes) :
    (patchIn d name offset data).lookup name =
      some (old.take offset ++ data ++ old.drop (offset + data.length)) := by
  rw [patchIn, h]
  exact AList.lookup_insert d

lemma lookup_appendTo_ne (h : name ≠ f) (data : Bytes) :
    (appendTo d f data).lookup name = d.lookup name := by
  unfold appendTo
  split
  · rfl
  · exact AList.lookup_insert_ne h

lemma lookup_patchIn_ne (h : name ≠ f) (offset : ℕ) (data : Bytes) :
    (patchIn d f offset data).lookup name = d.lookup name := by
  unfold patchIn
  split
  · rfl
  · exact AList.lookup_insert_ne h

lemma lookup_renameIn_ne {src dst : κ} (h1 : name ≠ src) (h2 : name ≠ dst) :
    (renameIn d src dst).lookup name = d.lookup name := by
  unfold renameIn
  split
  · rfl
  · rw [AList.lookup_insert_ne h2, AList.lookup_erase_ne h1]

lemma lookup_act_of_not_touches {o : FileOp κ} (h : ¬ o.Touches name) :
    (o.act d).lookup name = d.lookup name := by
  cases o with
  | create f => exact AList.lookup_insert_ne (Ne.symm h)
  | append f data => exact lookup_appendTo_ne (Ne.symm h) data
  | patch f offset data => exact lookup_patchIn_ne (Ne.symm h) offset data
  | rename src dst =>
    obtain ⟨h1, h2⟩ := not_or.1 h
    exact lookup_renameIn_ne (Ne.symm h1) (Ne.symm h2)
  | remove f => exact AList.lookup_erase_ne (Ne.symm h)

lemma lookup_actCut_of_not_touches {o : FileOp κ} {n : ℕ} (h : ¬ o.Touches name) :
    (o.actCut n d).lookup name = d.lookup name := by
  cases o with
  | append f data => exact lookup_appendTo_ne (Ne.symm h) _
  | patch f offset data => exact lookup_patchIn_ne (Ne.symm h) offset _
  | create f => rfl
  | rename src dst => rfl
  | remove f => rfl

/-- Operations on other files leave a file alone. -/
lemma lookup_runOps (h : Untouched name ops) (d : Dir κ) :
    (runOps d ops).lookup name = d.lookup name := by
  induction ops generalizing d with
  | nil => rfl
  | cons o ops ih =>
    rw [runOps_cons, ih (fun o' ho' => h o' (.tail _ ho')),
      lookup_act_of_not_touches (h o (.head _))]

/-- Operations on other files leave a file alone, also when cut. -/
lemma lookup_crashAt (h : Untouched name ops) (d : Dir κ) (k n : ℕ) :
    (crashAt d ops k n).lookup name = d.lookup name := by
  have htake : Untouched name (ops.take k) := fun o ho => h o (List.mem_of_mem_take ho)
  unfold crashAt
  split
  · exact lookup_runOps htake d
  · rename_i o ho
    rw [lookup_actCut_of_not_touches (h o (List.mem_of_getElem? ho)),
      lookup_runOps htake]

/-! ## Replacing a file by renaming -/

omit [DecidableEq κ] in
/-- Write a new version of a file beside it and rename it into place. -/
def replaceOps (tmp name : κ) (data : Bytes) : List (FileOp κ) :=
  [.create tmp, .append tmp data, .rename tmp name]

omit [DecidableEq κ] in
/-- A replacement touches the file and its temporary only. -/
lemma untouched_replaceOps {tmp : κ} (h1 : tmp ≠ f) (h2 : name ≠ f) (data : Bytes) :
    Untouched f (replaceOps tmp name data) := by
  simp [replaceOps, h1, h2]

/-- A completed replacement. -/
lemma lookup_runOps_replaceOps (d : Dir κ) (tmp name : κ) (data : Bytes) :
    (runOps d (replaceOps tmp name data)).lookup name = some data := by
  simp [replaceOps, FileOp.act, appendTo, renameIn]

/-- A replacement that is cut leaves the old or the new version. -/
lemma lookup_crashAt_replaceOps {tmp : κ} (h : tmp ≠ name) (d : Dir κ) (data : Bytes) (k n : ℕ) :
    (crashAt d (replaceOps tmp name data) k n).lookup name = d.lookup name ∨
      (crashAt d (replaceOps tmp name data) k n).lookup name = some data := by
  by_cases hk : k < 3
  · -- up to the rename only the temporary has changed
    left
    have hops : replaceOps tmp name data =
        [FileOp.create tmp, FileOp.append tmp data] ++ [FileOp.rename tmp name] := rfl
    have hun : Untouched name [FileOp.create tmp, FileOp.append tmp data] := by
      simp [h]
    rw [hops, crashAt_append]
    split
    · exact lookup_crashAt hun d k n
    · obtain rfl : k = 2 := by simp at *; omega
      exact lookup_runOps hun d
  · right
    rw [crashAt_of_length_le (by simp [replaceOps]; omega), lookup_runOps_replaceOps]

end Files
