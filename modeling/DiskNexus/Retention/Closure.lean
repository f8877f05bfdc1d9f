import DiskNexus.Retention.Select

/-!
# The fixpoint of retention selection

The fixpoint of `retention.Select` keeps what can be reached from the backups that the rules keep,
by parents and snapshots. Its inner loop follows the parents as the data has them, so it ends only
if every chain of parents does.
-/

namespace DiskNexus.Retention

/-! ## What has to be kept -/

section Spec

variable (backups : List BackupMeta) (policy : Policy) (now : ℤ)

/-- From a backup to its parent, or to a member of its snapshot. -/
inductive Link : String → String → Prop
  | parent {id : String} (h : parentOf backups id ≠ "") : Link id (parentOf backups id)
  | sibling {id x : String} (h : x ∈ siblings backups id) : Link id x

/-- One of the rules keeps the backup. -/
def Rooted (id : String) : Prop :=
  Active backups id ∨ Newest backups id ∨ OnLadder backups policy now id

/-- Reached from a backup that one of the rules keeps. -/
def Reached (id : String) : Prop :=
  ∃ root, Rooted backups policy now root ∧ Relation.ReflTransGen (Link backups) root id

/-- The chain of parents that starts with `pid` ends. -/
def Ends (pid : String) : Prop := ∃ n, (parentOf backups)^[n] pid = ""

/-- Nothing is left to do for a backup: its parents end, and its relatives are kept. -/
structure Settled (kept : Kept) (id : String) : Prop where
  ends : Ends backups (parentOf backups id)
  parent : parentOf backups id ≠ "" → parentOf backups id ∈ kept
  siblings : ∀ x ∈ siblings backups id, x ∈ kept

end Spec

variable {backups : List BackupMeta} {policy : Policy} {now : ℤ}

lemma Reached.link {id x : String} (h : Reached backups policy now id) (hlink : Link backups id x) :
    Reached backups policy now x := by
  obtain ⟨root, hroot, hreach⟩ := h
  exact ⟨root, hroot, hreach.tail hlink⟩

lemma Settled.mono {kept kept' : Kept} {id : String} (h : Settled backups kept id)
    (hsub : ∀ x ∈ kept, x ∈ kept') : Settled backups kept' id :=
  ⟨h.ends, fun hp => hsub _ (h.parent hp), fun x hx => hsub x (h.siblings x hx)⟩

/-! ## Steps -/

/-- What a step of the fixpoint can be. -/
inductive Steps (backups : List BackupMeta) (s : State) : Act → State → Prop
  | visit {id : String} (hphase : s.phase = .ranging) (hkept : id ∈ s.kept)
      (hnew : id ∉ s.visited) : Steps backups s (.visit id)
        { s with visited := id :: s.visited, phase := .walking id (parentOf backups id) }
  | parent {id pid : String} (hphase : s.phase = .walking id pid) (hpid : pid ≠ "") :
      Steps backups s .walk (s.add [pid] .chainAncestor (.walking id (parentOf backups pid)))
  | siblings {id : String} (hphase : s.phase = .walking id "") :
      Steps backups s .walk (s.add (siblings backups id) .snapshotSibling .ranging)
  | again (hphase : s.phase = .ranging) (hall : ∀ id ∈ s.start, id ∈ s.visited)
      (hchanged : s.changed = true) : Steps backups s .endPass s.newPass
  | finish (hphase : s.phase = .ranging) (hall : ∀ id ∈ s.start, id ∈ s.visited)
      (hchanged : s.changed = false) : Steps backups s .endPass { s with phase := .done }

lemma step_iff {s s' : State} {a : Act} : step backups s a = some s' ↔ Steps backups s a s' := by
  constructor
  · intro h
    cases a with
    | visit id =>
      cases hphase : s.phase with
      | ranging =>
        simp only [step, hphase, Option.ite_none_right_eq_some, Option.some.injEq] at h
        obtain ⟨⟨hkept, hnew⟩, rfl⟩ := h
        exact .visit hphase hkept hnew
      | _ => simp [step, hphase] at h
    | walk =>
      cases hphase : s.phase with
      | walking id pid =>
        simp only [step, hphase] at h
        split_ifs at h with hpid
        · subst hpid
          cases h
          exact .siblings hphase
        · cases h
          exact .parent hphase hpid
      | _ => simp [step, hphase] at h
    | endPass =>
      cases hphase : s.phase with
      | ranging =>
        simp only [step, hphase] at h
        split at h
        · rename_i hall
          split_ifs at h with hchanged
          · cases h
            exact .again hphase hall hchanged
          · cases h
            exact .finish hphase hall (by simpa using hchanged)
        · cases h
      | _ => simp [step, hphase] at h
  · rintro (⟨hphase, hkept, hnew⟩ | ⟨hphase, hpid⟩ | hphase | ⟨hphase, hall, hch⟩ |
      ⟨hphase, hall, hch⟩)
    · simp [step, hphase, hkept, hnew]
    · simp [step, hphase, hpid]
    · simp [step, hphase]
    · simpa [step, hphase, hch] using hall
    · simpa [step, hphase, hch] using hall

/-! ## The invariant of a run -/

section Invariant

variable (backups : List BackupMeta) (policy : Policy) (now : ℤ)

/-- What holds at the place where the fixpoint stands. In the walk, `pid` is an ancestor of `id`. -/
def Phase.At (kept : Kept) (visited : List String) : Phase → Prop
  | .ranging => ∀ x ∈ visited, Settled backups kept x
  | .walking id pid => (∀ x ∈ visited, x ≠ id → Settled backups kept x) ∧ id ∈ kept ∧
      (pid ≠ "" → Reached backups policy now pid) ∧
      (Ends backups pid → Ends backups (parentOf backups id)) ∧
      (pid = parentOf backups id ∨ parentOf backups id ∈ kept)
  | .done => ∀ x ∈ kept, Settled backups kept x

/-- The invariant of the fixpoint. -/
structure Inv (s : State) : Prop where
  seeds : ∀ x, Rooted backups policy now x → x ∈ s.kept
  reached : ∀ x ∈ s.kept, Reached backups policy now x
  start : ∀ x ∈ s.start, x ∈ s.kept
  unchanged : s.changed = false → ∀ x ∈ s.kept, x ∈ s.start
  phase : s.phase.At backups policy now s.kept s.visited

end Invariant

variable {s s' : State}

lemma inv_init : Inv backups policy now (State.init backups policy now) where
  seeds x hx := mem_seeds.2 hx
  reached x hx := ⟨x, mem_seeds.1 hx, .refl⟩
  start x hx := hx
  unchanged _ x hx := hx
  phase x hx := by cases hx

/-- Keeping reached IDs keeps the invariant, if it holds at the next place. -/
lemma Inv.add (h : Inv backups policy now s) {ids : List String} {reason : Reason} {phase : Phase}
    (hids : ∀ x ∈ ids, Reached backups policy now x)
    (hphase : phase.At backups policy now (keepAll s.kept ids reason) s.visited) :
    Inv backups policy now (s.add ids reason phase) where
  seeds x hx := mem_keepAll.2 (.inl (h.seeds x hx))
  reached x hx := (mem_keepAll.1 hx).elim (h.reached x) (hids x)
  start x hx := mem_keepAll.2 (.inl (h.start x hx))
  unchanged hch x hx := by
    simp only [State.add, Bool.or_eq_false_iff, List.any_eq_false, decide_eq_true_eq,
      not_not] at hch
    rcases mem_keepAll.1 hx with hx | hx
    · exact h.unchanged hch.1 x hx
    · exact h.unchanged hch.1 x (hch.2 x hx)
  phase := hphase

/-- **A step keeps the invariant.** -/
lemma Inv.step {a : Act} (h : Inv backups policy now s) (hstep : Steps backups s a s') :
    Inv backups policy now s' := by
  have hat := h.phase
  cases hstep with
  | @visit id hphase hkept hnew =>
    rw [hphase] at hat
    refine ⟨h.seeds, h.reached, h.start, h.unchanged, ?_⟩
    refine ⟨fun x hx hne => ?_, hkept, fun hpid => (h.reached id hkept).link (.parent hpid),
      fun hends => hends, .inl rfl⟩
    exact hat x ((List.mem_cons.1 hx).resolve_left hne)
  | @parent id pid hphase hpid =>
    rw [hphase] at hat
    obtain ⟨hsettled, hid, hreach, hends, hparent⟩ := hat
    have hsub : ∀ x ∈ s.kept, x ∈ keepAll s.kept [pid] .chainAncestor :=
      fun x hx => mem_keepAll.2 (.inl hx)
    refine h.add (by simpa using hreach hpid) ⟨fun x hx hne => (hsettled x hx hne).mono hsub,
      hsub _ hid, fun hp => (hreach hpid).link (.parent hp), fun hp => hends ?_, .inr ?_⟩
    · obtain ⟨n, hn⟩ := hp
      exact ⟨n + 1, hn⟩
    · rcases hparent with rfl | hparent
      · exact mem_keepAll.2 (.inr (by simp))
      · exact hsub _ hparent
  | @siblings id hphase =>
    rw [hphase] at hat
    obtain ⟨hsettled, hid, hreach, hends, hparent⟩ := hat
    have hsub : ∀ x ∈ s.kept, x ∈ keepAll s.kept (siblings backups id) .snapshotSibling :=
      fun x hx => mem_keepAll.2 (.inl hx)
    refine h.add (fun x hx => (h.reached id hid).link (.sibling hx)) fun x hx => ?_
    by_cases hne : x = id
    · subst hne
      refine ⟨hends ⟨0, rfl⟩, fun hp => hsub _ ?_, fun y hy => mem_keepAll.2 (.inr hy)⟩
      exact hparent.resolve_left fun heq => hp heq.symm
    · exact (hsettled x hx hne).mono hsub
  | again hphase hall hchanged =>
    exact ⟨h.seeds, h.reached, fun x hx => hx, fun _ x hx => hx, by
      rw [State.newPass, hphase]
      exact fun x hx => by cases hx⟩
  | finish hphase hall hchanged =>
    rw [hphase] at hat
    exact ⟨h.seeds, h.reached, h.start, h.unchanged,
      fun x hx => hat x (hall x (h.unchanged hchanged x hx))⟩

lemma inv_exec {as : List Act} (h : Inv backups policy now s)
    (hexec : exec backups s as = some s') :
    Inv backups policy now s' := by
  induction as generalizing s with
  | nil =>
    cases hexec
    exact h
  | cons a as ih =>
    rw [exec] at hexec
    split at hexec
    · cases hexec
    · rename_i s1 hstep
      exact ih (h.step (step_iff.1 hstep)) hexec

/-- A fixpoint that is done has settled everything it reaches. -/
lemma Inv.done (h : Inv backups policy now s) (hdone : s.phase = .done) {x : String}
    (hx : Reached backups policy now x) : x ∈ s.kept ∧ Settled backups s.kept x := by
  have hat := h.phase
  rw [hdone] at hat
  obtain ⟨root, hroot, hreach⟩ := hx
  have hkept : x ∈ s.kept := by
    induction hreach with
    | refl => exact h.seeds root hroot
    | tail _ hlink ih =>
      cases hlink with
      | parent hp => exact (hat _ ih).parent hp
      | sibling hs => exact (hat _ ih).siblings _ hs
  exact ⟨hkept, hat x hkept⟩

/-! ## Termination -/

/-- All IDs that occur. -/
def occurring (backups : List BackupMeta) : Finset String :=
  (backups.map BackupMeta.id ++ backups.map BackupMeta.parentID).toFinset

/-- A backup that is found is one of the list. -/
lemma byID_mem {id : String} (h : byID backups id ≠ .zero) :
    byID backups id ∈ backups ∧ (byID backups id).id = id := by
  unfold byID at h ⊢
  cases hfind : backups.reverse.find? fun b => b.id = id with
  | none => simp [hfind] at h
  | some b =>
    have hid := List.find?_some hfind
    exact ⟨List.mem_reverse.1 (List.mem_of_find?_eq_some hfind), by simpa using hid⟩

lemma parentOf_occurring {id : String} (h : parentOf backups id ≠ "") :
    parentOf backups id ∈ occurring backups := by
  have hzero : byID backups id ≠ .zero := by
    intro hzero
    rw [parentOf, hzero] at h
    exact h rfl
  have hmem := (byID_mem hzero).1
  exact List.mem_toFinset.2 (List.mem_append_right _ (List.mem_map_of_mem hmem))

lemma mem_siblings {id x : String} : x ∈ siblings backups id ↔
    (byID backups id).snapshotID ≠ "" ∧
      ∃ b ∈ backups, b.snapshotID = (byID backups id).snapshotID ∧ b.id = x := by
  unfold siblings
  by_cases h : (byID backups id).snapshotID = ""
  · simp [h]
  · simp [h, and_assoc]

lemma Reached.occurring {x : String} (h : Reached backups policy now x) :
    x ∈ occurring backups := by
  have hid : ∀ b ∈ backups, b.id ∈ Retention.occurring backups :=
    fun b hb => List.mem_toFinset.2 (List.mem_append_left _ (List.mem_map_of_mem hb))
  obtain ⟨root, hroot, hreach⟩ := h
  cases hreach with
  | refl =>
    rcases hroot with ⟨b, hb, rfl, -⟩ | ⟨b, hb, rfl, -⟩ | ⟨b, hb, rfl, -⟩ <;> exact hid b hb
  | tail _ hlink =>
    cases hlink with
    | parent hp => exact parentOf_occurring hp
    | sibling hs =>
      obtain ⟨-, b, hb, -, rfl⟩ := mem_siblings.1 hs
      exact hid b hb

open Classical in
/-- The number of parents that a walk still follows. -/
noncomputable def walkRank (backups : List BackupMeta) (pid : String) : ℕ :=
  if h : Ends backups pid then Nat.find h else 0

lemma walkRank_parentOf {pid : String} (hpid : pid ≠ "") (h : Ends backups (parentOf backups pid)) :
    walkRank backups (parentOf backups pid) < walkRank backups pid := by
  classical
  have hends : Ends backups pid := by
    obtain ⟨n, hn⟩ := h
    exact ⟨n + 1, hn⟩
  rw [walkRank, dif_pos h, walkRank, dif_pos hends]
  have hspec := Nat.find_spec hends
  cases hfind : Nat.find hends with
  | zero =>
    rw [hfind] at hspec
    exact absurd hspec hpid
  | succ n =>
    rw [hfind] at hspec
    exact Nat.lt_succ_of_le (Nat.find_min' h hspec)

/-- How far the fixpoint is from the next `range` step. -/
noncomputable def Phase.rank (backups : List BackupMeta) : Phase → ℕ
  | .done => 0
  | .ranging => 1
  | .walking _ pid => walkRank backups pid + 2

/-- What a run uses up: the IDs that are not kept, the pass that is still to come, the IDs that the
pass has not visited, and the rest of the walk. -/
noncomputable def State.rank (backups : List BackupMeta) (s : State) : ℕ ×ₗ ℕ ×ₗ ℕ ×ₗ ℕ :=
  toLex (((occurring backups).filter (· ∉ s.kept)).card, toLex (s.changed.toNat,
    toLex (((occurring backups).filter (· ∉ s.visited)).card, s.phase.rank backups)))

lemma rank_lt_of_phase {phase : Phase} (h : phase.rank backups < s.phase.rank backups) :
    ({ s with phase := phase } : State).rank backups < s.rank backups := by
  simp only [State.rank, Prod.Lex.toLex_lt_toLex]
  exact .inr ⟨trivial, .inr ⟨trivial, .inr ⟨trivial, h⟩⟩⟩

/-- Fewer elements are left once one of them is gone. -/
lemma card_filter_lt {u : Finset String} {p q : String → Prop} [DecidablePred p] [DecidablePred q]
    (hsub : ∀ y, p y → q y) {x : String} (hx : x ∈ u) (hq : q x) (hp : ¬ p x) :
    (u.filter p).card < (u.filter q).card := by
  refine Finset.card_lt_card ((Finset.ssubset_iff_of_subset fun y hy => ?_).2 ⟨x, ?_, ?_⟩)
  · rw [Finset.mem_filter] at hy ⊢
    exact ⟨hy.1, hsub y hy.2⟩
  · exact Finset.mem_filter.2 ⟨hx, hq⟩
  · exact fun hmem => hp (Finset.mem_filter.1 hmem).2

/-- Keeping IDs uses up one that is new, or else only the place counts. -/
lemma rank_add_lt {ids : List String} {reason : Reason} {phase : Phase}
    (hids : ∀ x ∈ ids, Reached backups policy now x)
    (hphase : ({ s with phase := phase } : State).rank backups < s.rank backups) :
    (s.add ids reason phase).rank backups < s.rank backups := by
  by_cases hnew : ∃ x ∈ ids, x ∉ s.kept
  · obtain ⟨x, hx, hxs⟩ := hnew
    have hcard : ((occurring backups).filter (· ∉ keepAll s.kept ids reason)).card <
        ((occurring backups).filter (· ∉ s.kept)).card :=
      card_filter_lt (fun y hy hys => hy (mem_keepAll.2 (.inl hys))) (hids x hx).occurring hxs
        (not_not.2 (mem_keepAll.2 (.inr hx)))
    exact Prod.Lex.toLex_lt_toLex.2 (.inl hcard)
  · push Not at hnew
    have hkept : ∀ y, y ∈ keepAll s.kept ids reason ↔ y ∈ s.kept :=
      fun y => mem_keepAll.trans ⟨fun h => h.elim (fun hy => hy) (hnew y), .inl⟩
    have hchanged : (s.changed || ids.any fun id => id ∉ s.kept) = s.changed := by
      have : (ids.any fun id => id ∉ s.kept) = false := by
        simpa [List.any_eq_false] using hnew
      rw [this, Bool.or_false]
    have hrank : (s.add ids reason phase).rank backups =
        ({ s with phase := phase } : State).rank backups := by
      simp only [State.rank, State.add, hkept, hchanged]
    rwa [hrank]

/-- **A step uses something up** if every chain of parents ends. -/
lemma Steps.rank_lt {a : Act} (hstep : Steps backups s a s') (h : Inv backups policy now s)
    (hends : ∀ x, Reached backups policy now x → Ends backups (parentOf backups x)) :
    s'.rank backups < s.rank backups := by
  have hat := h.phase
  cases hstep with
  | @visit id hphase hkept hnew =>
    have hcard : ((occurring backups).filter (· ∉ id :: s.visited)).card <
        ((occurring backups).filter (· ∉ s.visited)).card :=
      card_filter_lt (fun y hy hys => hy (.tail _ hys))
        (h.reached id hkept).occurring hnew (not_not.2 (.head _))
    simp only [State.rank, Prod.Lex.toLex_lt_toLex]
    exact .inr ⟨trivial, .inr ⟨trivial, .inl hcard⟩⟩
  | @parent id pid hphase hpid =>
    rw [hphase] at hat
    have hreach := hat.2.2.1 hpid
    refine rank_add_lt (by simpa using hreach) (rank_lt_of_phase ?_)
    rw [hphase]
    exact Nat.add_lt_add_right (walkRank_parentOf hpid (hends pid hreach)) 2
  | @siblings id hphase =>
    rw [hphase] at hat
    refine rank_add_lt (fun x hx => (h.reached id hat.2.1).link (.sibling hx)) (rank_lt_of_phase ?_)
    rw [hphase]
    simp [Phase.rank]
  | again hphase hall hchanged =>
    refine Prod.Lex.toLex_lt_toLex.2 (.inr ⟨rfl, Prod.Lex.toLex_lt_toLex.2 (.inl ?_)⟩)
    simp [State.newPass, hchanged]
  | finish hphase hall hchanged =>
    refine rank_lt_of_phase ?_
    rw [hphase]
    exact Nat.zero_lt_one

/-- The next state, whatever is chosen. -/
def Next (backups : List BackupMeta) (s' s : State) : Prop := ∃ a, step backups s a = some s'

lemma acc_of_ends (hends : ∀ x, Reached backups policy now x → Ends backups (parentOf backups x))
    (h : Inv backups policy now s) : Acc (Next backups) s := by
  induction hrank : s.rank backups using WellFoundedLT.induction generalizing s with
  | ind r ih =>
    refine ⟨s, fun s' ⟨a, hstep⟩ => ?_⟩
    have hsteps := step_iff.1 hstep
    exact ih _ (hrank ▸ hsteps.rank_lt h hends) (h.step hsteps) rfl

/-- A fixpoint that is not done can go on. -/
lemma Inv.progress (h : Inv backups policy now s) (hdone : s.phase ≠ .done) :
    ∃ s', Next backups s' s := by
  cases hphase : s.phase with
  | ranging =>
    by_cases hall : ∀ id ∈ s.start, id ∈ s.visited
    · cases hchanged : s.changed with
      | true => exact ⟨_, .endPass, step_iff.2 (.again hphase hall hchanged)⟩
      | false => exact ⟨_, .endPass, step_iff.2 (.finish hphase hall hchanged)⟩
    · push Not at hall
      obtain ⟨id, hid, hnew⟩ := hall
      exact ⟨_, .visit id, step_iff.2 (.visit hphase (h.start id hid) hnew)⟩
  | walking id pid =>
    by_cases hpid : pid = ""
    · subst hpid
      exact ⟨_, .walk, step_iff.2 (.siblings hphase)⟩
    · exact ⟨_, .walk, step_iff.2 (.parent hphase hpid)⟩
  | done => exact absurd hphase hdone

/-- A fixpoint that cannot go on for ever gets done. -/
lemma exists_done (hacc : Acc (Next backups) s) (h : Inv backups policy now s) :
    ∃ as s', exec backups s as = some s' ∧ s'.phase = .done := by
  induction hacc with
  | intro s _ ih =>
    by_cases hdone : s.phase = .done
    · exact ⟨[], s, rfl, hdone⟩
    · obtain ⟨s1, a, hstep⟩ := h.progress hdone
      obtain ⟨as, s', hexec, hdone'⟩ := ih s1 ⟨a, hstep⟩ (h.step (step_iff.1 hstep))
      refine ⟨a :: as, s', ?_, hdone'⟩
      rw [exec, hstep]
      exact hexec

lemma finishes_iff_acc :
    Finishes backups policy now ↔ Acc (Next backups) (State.init backups policy now) := by
  rw [Finishes, ← not_iff_not, not_not, not_acc_iff_exists_descending_chain]
  rfl

lemma ends_of_finishes (h : Finishes backups policy now) {x : String}
    (hx : Reached backups policy now x) : Ends backups (parentOf backups x) := by
  obtain ⟨as, s, hexec, hdone⟩ := exists_done (finishes_iff_acc.1 h) inv_init
  exact ((inv_exec inv_init hexec).done hdone hx).2.ends

lemma finishes_of_ends
    (h : ∀ x, Reached backups policy now x → Ends backups (parentOf backups x)) :
    Finishes backups policy now :=
  finishes_iff_acc.2 (acc_of_ends h inv_init)

/-- **When `Select` finishes**: the parents of every backup that it reaches have to end. A backup
that is its own ancestor is walked round for ever.

**Proof sketch.** If the chains end, `State.rank` decreases. Conversely a run that is done has
visited everything that it keeps since the last change, and each visit has walked to the end of the
parents. -/
theorem finishes_iff :
    Finishes backups policy now ↔
      ∀ x, Reached backups policy now x → Ends backups (parentOf backups x) :=
  ⟨fun h _ hx => ends_of_finishes h hx, finishes_of_ends⟩

/-- A backup that names itself as its parent. -/
def ownParent : BackupMeta := ⟨"a", "C:", "in_progress", 0, 0, "a", ""⟩

/-- `Select` does not return for one backup that is its own parent. -/
theorem not_finishes_ownParent : ¬ Finishes [ownParent] ⟨0, 0, 0, 0⟩ 0 := by
  intro h
  have hactive : Active [ownParent] "a" := by decide
  obtain ⟨n, hn⟩ := ends_of_finishes h ⟨"a", .inl hactive, .refl⟩
  have hfix : ∀ n, (parentOf [ownParent])^[n] "a" = "a" := fun n =>
    Function.iterate_fixed (by decide) n
  have hparent : parentOf [ownParent] "a" = "a" := by decide
  rw [hparent, hfix] at hn
  exact absurd hn (by decide)

end DiskNexus.Retention
