import Mathlib.Logic.Basic
import Mathlib.Tactic

/-!
# Programs that may be interrupted

A program issues operations one after the other and branches on their answers. A machine says what a
completed operation does and what it leaves behind when the process dies inside it.

## Main results

`Machine.returns_of_wp`, `Machine.dies_of_wp`, `Machine.wp_bind`
-/

namespace CrashLogic

/-- Programs over operations `Op` with answers `Ans o`. -/
inductive Prog (Op : Type) (Ans : Op → Type) (α : Type) : Type
  | ret (a : α) : Prog Op Ans α
  | op (o : Op) (k : Ans o → Prog Op Ans α) : Prog Op Ans α

namespace Prog

variable {Op : Type} {Ans : Op → Type} {α β : Type}

/-- Sequential composition. -/
def bind (p : Prog Op Ans α) (f : α → Prog Op Ans β) : Prog Op Ans β :=
  match p with
  | ret a => f a
  | op o k => op o fun r => bind (k r) f

instance : Monad (Prog Op Ans) where
  pure := ret
  bind := bind

instance : LawfulMonad (Prog Op Ans) := by
  refine LawfulMonad.mk' (Prog Op Ans) ?_ (fun _ _ => rfl) ?_
  · intro α p
    induction p with
    | ret a => rfl
    | op o k ih => exact congrArg (op o) (funext ih)
  · intro α β γ p f g
    induction p with
    | ret a => rfl
    | op o k ih => exact congrArg (op o) (funext ih)

/-- The program that issues one operation and returns its answer. -/
def issue (o : Op) : Prog Op Ans (Ans o) := op o ret

@[simp] lemma pure_eq (a : α) : (Pure.pure a : Prog Op Ans α) = ret a := rfl

@[simp] lemma ret_bind (a : α) (f : α → Prog Op Ans β) : (ret a : Prog Op Ans α) >>= f = f a := rfl

@[simp] lemma op_bind (o : Op) (k : Ans o → Prog Op Ans α) (f : α → Prog Op Ans β) :
    (op o k) >>= f = op o fun r => k r >>= f := rfl

@[simp] lemma issue_bind (o : Op) (f : Ans o → Prog Op Ans β) :
    (issue o : Prog Op Ans (Ans o)) >>= f = op o f := rfl

/-- The state in which a program is interrupted after `n` operations, which act by `act`. -/
def stopAfter {S : Type} (act : S → (o : Op) → Ans o × S) : ℕ → Prog Op Ans α → S → S
  | 0, _, s => s
  | _ + 1, ret _, s => s
  | n + 1, op o k, s => stopAfter act n (k (act s o).1) (act s o).2

/-- The state in which a program returns, when operations act by `act`. -/
def stateAfter {S : Type} (act : S → (o : Op) → Ans o × S) : Prog Op Ans α → S → S
  | ret _, s => s
  | op o k, s => stateAfter act (k (act s o).1) (act s o).2

/-- The result that a program returns, when operations act by `act`. -/
def resultAfter {S : Type} (act : S → (o : Op) → Ans o × S) : Prog Op Ans α → S → α
  | ret a, _ => a
  | op o k, s => resultAfter act (k (act s o).1) (act s o).2

section StopAfter

variable {S : Type} (act : S → (o : Op) → Ans o × S)

@[simp] lemma stopAfter_zero (p : Prog Op Ans α) (s : S) : stopAfter act 0 p s = s := by
  cases p <;> rfl

@[simp] lemma stopAfter_ret (n : ℕ) (a : α) (s : S) :
    stopAfter act n (ret a : Prog Op Ans α) s = s := by
  cases n <;> rfl

@[simp] lemma stopAfter_succ (n : ℕ) (o : Op) (k : Ans o → Prog Op Ans α) (s : S) :
    stopAfter act (n + 1) (op o k) s = stopAfter act n (k (act s o).1) (act s o).2 := rfl

@[simp] lemma stateAfter_ret (a : α) (s : S) : stateAfter act (ret a : Prog Op Ans α) s = s := rfl

@[simp] lemma stateAfter_op (o : Op) (k : Ans o → Prog Op Ans α) (s : S) :
    stateAfter act (op o k) s = stateAfter act (k (act s o).1) (act s o).2 := rfl

end StopAfter

end Prog

/-- What the operations do to a state: `step s o r s'` when `o` completes with the answer `r`, and
`cut s o s'` when the process dies inside `o`. -/
structure Machine (Op : Type) (Ans : Op → Type) (S : Type) where
  step : S → (o : Op) → Ans o → S → Prop
  cut : S → Op → S → Prop

namespace Machine

variable {Op : Type} {Ans : Op → Type} {S α β : Type} (M : Machine Op Ans S)

/-- The program returns `a` in the state `s'`. -/
inductive Returns : Prog Op Ans α → S → α → S → Prop
  | ret (a : α) (s : S) : Returns (.ret a) s a s
  | step {o : Op} {k : Ans o → Prog Op Ans α} {s s₁ s' : S} {r : Ans o} {a : α}
      (h : M.step s o r s₁) (t : Returns (k r) s₁ a s') : Returns (.op o k) s a s'

/-- The process dies between two operations, inside one of them, or after the last. -/
inductive Dies : Prog Op Ans α → S → S → Prop
  | here (p : Prog Op Ans α) (s : S) : Dies p s s
  | cut {o : Op} {k : Ans o → Prog Op Ans α} {s s' : S} (h : M.cut s o s') : Dies (.op o k) s s'
  | step {o : Op} {k : Ans o → Prog Op Ans α} {s s₁ s' : S} {r : Ans o}
      (h : M.step s o r s₁) (t : Dies (k r) s₁ s') : Dies (.op o k) s s'

/-- The weakest condition on the start state under which every return satisfies `Q` and every state
left by a crash satisfies `C`. -/
def wp (Q : α → S → Prop) (C : S → Prop) : Prog Op Ans α → S → Prop
  | .ret a, s => C s ∧ Q a s
  | .op o k, s => C s ∧ (∀ s', M.cut s o s' → C s') ∧ ∀ r s', M.step s o r s' → wp Q C (k r) s'

variable {M} {Q : α → S → Prop} {C : S → Prop}

variable {p : Prog Op Ans α} {s : S}

/-- The crash condition holds where the program starts. -/
lemma crash_of_wp (h : M.wp Q C p s) : C s := by
  cases p <;> exact h.1

/-- A run that returns ends in a state satisfying the postcondition. -/
theorem returns_of_wp {s' : S} {a : α} (h : M.wp Q C p s) (hr : M.Returns p s a s') : Q a s' := by
  induction hr with
  | ret a s => exact h.2
  | step hs _ ih => exact ih (h.2.2 _ _ hs)

/-- A run that is cut leaves a state satisfying the crash condition. -/
theorem dies_of_wp {s' : S} (h : M.wp Q C p s) (hd : M.Dies p s s') :
    C s' := by
  induction hd with
  | here p s => exact crash_of_wp h
  | cut hc => exact h.2.1 _ hc
  | step hs _ ih => exact ih (h.2.2 _ _ hs)

/-- Where every operation can complete, every program can return. -/
lemma exists_returns (hstep : ∀ s o, ∃ r s', M.step s o r s') (p : Prog Op Ans α) :
    ∀ s, ∃ a s', M.Returns p s a s' := by
  induction p with
  | ret a => exact fun s => ⟨a, s, .ret a s⟩
  | op o k ih =>
    intro s
    obtain ⟨r, s1, hs⟩ := hstep s o
    obtain ⟨a, s', hr⟩ := ih r s1
    exact ⟨a, s', .step hs hr⟩

/-- The transformer is monotone in both conditions. -/
lemma wp_mono {Q' : α → S → Prop} {C' : S → Prop} (hQ : ∀ a s, Q a s → Q' a s)
    (hC : ∀ s, C s → C' s) : ∀ {s : S}, M.wp Q C p s → M.wp Q' C' p s := by
  induction p with
  | ret a => exact fun h => ⟨hC _ h.1, hQ _ _ h.2⟩
  | op o k ih =>
    intro s h
    exact ⟨hC _ h.1, fun s' hs' => hC _ (h.2.1 s' hs'), fun r s' hs' => ih r (h.2.2 r s' hs')⟩

/-- Sequential composition, under the same crash condition. -/
theorem wp_bind {Q : β → S → Prop} {f : α → Prog Op Ans β} :
    ∀ {s : S}, M.wp (fun a s => M.wp Q C (f a) s) C p s → M.wp Q C (p >>= f) s := by
  induction p with
  | ret a => exact fun h => h.2
  | op o k ih =>
    intro s h
    exact ⟨h.1, h.2.1, fun r s' hs' => ih r (h.2.2 r s' hs')⟩

end Machine

end CrashLogic
