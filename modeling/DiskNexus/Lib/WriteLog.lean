import Mathlib.Tactic

/-!
# Programs that write

A program that issues writes and may fail. It sees the writes that were issued before, and gives its
result together with the writes it issues itself, which are there also when it fails.

## Main results

`bind_ok_iff`, `each_ok`, `collect_ok`
-/

namespace WriteLog

variable {ω ε α β : Type}

/-- A program: from the writes so far, its result and the writes it issues. -/
def Run (ω ε α : Type) : Type := List ω → Except ε α × List ω

/-- A result without a write. -/
def Run.ok (a : α) : Run ω ε α := fun _ => (.ok a, [])

/-- One program after the other. -/
def Run.andThen (m : Run ω ε α) (f : α → Run ω ε β) : Run ω ε β := fun past =>
  match m past with
  | (.error e, ws) => (.error e, ws)
  | (.ok a, ws) => ((f a (past ++ ws)).1, ws ++ (f a (past ++ ws)).2)

instance : Monad (Run ω ε) where
  pure := Run.ok
  bind := Run.andThen

/-- Issue a write. -/
def emit (w : ω) : Run ω ε Unit := fun _ => (.ok (), [w])

/-- Fail. -/
def fail (e : ε) : Run ω ε α := fun _ => (.error e, [])

/-- A result that needs no write. -/
def ofExcept (r : Except ε α) : Run ω ε α := fun _ => (r, [])

/-- The writes that were issued so far. -/
def issued : Run ω ε (List ω) := fun past => (.ok past, [])

/-- A program with its errors changed. -/
def mapError (f : ε → ε) (m : Run ω ε α) : Run ω ε α := fun past =>
  match m past with
  | (.error e, ws) => (.error (f e), ws)
  | (.ok a, ws) => (.ok a, ws)

/-- A program for each element of a list. -/
def each (f : β → Run ω ε Unit) : List β → Run ω ε Unit
  | [] => pure ()
  | b :: bs => do
    f b
    each f bs

/-- The results of a program for each element of a list. -/
def collect (f : β → Run ω ε α) : List β → Run ω ε (List α)
  | [] => pure []
  | b :: bs => do
    let a ← f b
    let as ← collect f bs
    pure (a :: as)

variable {m : Run ω ε α} {f : α → Run ω ε β} {past ws : List ω}

/-! ## Successful runs -/

@[simp] lemma pure_apply (a : α) (past : List ω) : (pure a : Run ω ε α) past = (.ok a, []) := rfl

@[simp] lemma fail_apply (e : ε) (past : List ω) : (fail e : Run ω ε α) past = (.error e, []) := rfl

@[simp] lemma emit_apply (w : ω) (past : List ω) : (emit w : Run ω ε Unit) past = (.ok (), [w]) :=
  rfl

@[simp] lemma ofExcept_apply (r : Except ε α) (past : List ω) :
    (ofExcept r : Run ω ε α) past = (r, []) := rfl

@[simp] lemma issued_apply (past : List ω) :
    (issued : Run ω ε (List ω)) past = (.ok past, []) := rfl

lemma bind_apply :
    (m >>= f) past =
      match m past with
      | (Except.error e, ws) => (Except.error e, ws)
      | (Except.ok a, ws) => ((f a (past ++ ws)).1, ws ++ (f a (past ++ ws)).2) := rfl

lemma bind_ok_iff {b : β} :
    (m >>= f) past = (.ok b, ws) ↔
      ∃ a ws1 ws2, m past = (.ok a, ws1) ∧ f a (past ++ ws1) = (.ok b, ws2) ∧ ws = ws1 ++ ws2 := by
  rw [bind_apply]
  rcases m past with ⟨e | a, ws1⟩
  · simp
  · simp only [Prod.mk.injEq, Except.ok.injEq]
    constructor
    · rintro ⟨h, rfl⟩
      exact ⟨a, ws1, _, ⟨rfl, rfl⟩, Prod.ext h rfl, rfl⟩
    · rintro ⟨a', ws1', ws2, ⟨rfl, rfl⟩, h, rfl⟩
      rw [h]
      exact ⟨rfl, rfl⟩

lemma ofExcept_bind_ok_iff {r : Except ε α} {b : β} :
    ((ofExcept r : Run ω ε α) >>= f) past = (.ok b, ws) ↔
      ∃ a, r = .ok a ∧ f a past = (.ok b, ws) := by
  cases r <;> simp [bind_apply]

lemma issued_bind (f : List ω → Run ω ε β) : (issued >>= f) past = f past past := by
  simp [bind_apply]

/-- A result made of the last one. -/
lemma bind_pure_ok_iff {g : α → β} {b : β} :
    (m >>= fun a => pure (g a)) past = (.ok b, ws) ↔ ∃ a, m past = (.ok a, ws) ∧ g a = b := by
  rw [bind_apply]
  rcases m past with ⟨e | a, ws1⟩ <;> simp [and_comm]

lemma mapError_ok_iff {g : ε → ε} {a : α} :
    mapError g m past = (.ok a, ws) ↔ m past = (.ok a, ws) := by
  unfold mapError
  rcases m past with ⟨e | a', ws'⟩ <;> simp

/-- What a loop leaves, if each of its rounds is known. -/
lemma each_ok {f : β → Run ω ε Unit} {g : β → List ω} {R : β → Prop} {bs : List β}
    (h : ∀ b ∈ bs, ∀ past ws, f b past = (.ok (), ws) → R b ∧ ws = g b) {past ws : List ω}
    (hrun : each f bs past = (.ok (), ws)) : (∀ b ∈ bs, R b) ∧ ws = bs.flatMap g := by
  induction bs generalizing past ws with
  | nil =>
    cases hrun
    exact ⟨fun b hb => (by cases hb), rfl⟩
  | cons b bs ih =>
    obtain ⟨_, ws1, ws2, h1, h2, rfl⟩ := bind_ok_iff.1 hrun
    obtain ⟨hb, rfl⟩ := h b (.head _) _ _ h1
    obtain ⟨hbs, rfl⟩ := ih (fun b' hb' => h b' (.tail _ hb')) h2
    exact ⟨List.forall_mem_cons.2 ⟨hb, hbs⟩, List.flatMap_cons.symm⟩

/-- What a loop with results leaves. -/
lemma collect_ok {f : β → Run ω ε α} {g : β → List ω} {R : β → Prop} {bs : List β}
    (h : ∀ b ∈ bs, ∀ past a ws, f b past = (.ok a, ws) → R b ∧ ws = g b) {past ws : List ω}
    {as : List α} (hrun : collect f bs past = (.ok as, ws)) :
    (∀ b ∈ bs, R b) ∧ ws = bs.flatMap g := by
  induction bs generalizing past ws as with
  | nil =>
    cases hrun
    exact ⟨fun b hb => (by cases hb), rfl⟩
  | cons b bs ih =>
    obtain ⟨a, ws1, ws', h1, hrest, rfl⟩ := bind_ok_iff.1 hrun
    obtain ⟨as', h2, -⟩ := bind_pure_ok_iff.1 hrest
    obtain ⟨hb, rfl⟩ := h b (.head _) _ _ _ h1
    obtain ⟨hbs, rfl⟩ := ih (fun b' hb' => h b' (.tail _ hb')) h2
    exact ⟨List.forall_mem_cons.2 ⟨hb, hbs⟩, List.flatMap_cons.symm⟩

end WriteLog
