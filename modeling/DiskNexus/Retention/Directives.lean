import DiskNexus.Retention.Closure

/-!
# The prime directives of retention

What `retention.Select` must never put into the forget set: a backup that is not completed, the
newest completed backup of a source, an ancestor of a kept backup, and a member of a snapshot that
has a kept member. A parent that is missing is kept as well.
-/

namespace DiskNexus.Retention

variable {backups backups' : List BackupMeta} {policy : Policy} {now : ℤ} {s s' t : State}

/-! ## Backups with unique IDs -/

lemma byID_of_mem (huniq : (backups.map BackupMeta.id).Nodup) {b : BackupMeta} (hb : b ∈ backups) :
    byID backups b.id = b := by
  unfold byID
  cases hfind : backups.reverse.find? fun c => c.id = b.id with
  | none =>
    have hnone := List.find?_eq_none.1 hfind b (List.mem_reverse.2 hb)
    simp at hnone
  | some c =>
    have hc := List.mem_reverse.1 (List.mem_of_find?_eq_some hfind)
    have hid := List.find?_some hfind
    exact List.inj_on_of_nodup_map huniq hc hb (by simpa using hid)

lemma byID_of_forall_ne {id : String} (h : ∀ b ∈ backups, b.id ≠ id) : byID backups id = .zero := by
  unfold byID
  rw [List.find?_eq_none.2 fun b hb => by simpa using h b (List.mem_reverse.1 hb)]
  rfl

lemma byID_perm (huniq : (backups.map BackupMeta.id).Nodup) (hperm : backups'.Perm backups)
    (id : String) : byID backups' id = byID backups id := by
  have huniq' : (backups'.map BackupMeta.id).Nodup := (hperm.map _).nodup_iff.2 huniq
  by_cases h : ∃ b ∈ backups, b.id = id
  · obtain ⟨b, hb, rfl⟩ := h
    rw [byID_of_mem huniq hb, byID_of_mem huniq' (hperm.mem_iff.2 hb)]
  · push Not at h
    rw [byID_of_forall_ne h, byID_of_forall_ne fun b hb => h b (hperm.mem_iff.1 hb)]

/-! ## Acyclic parent links -/

/-- `y` is the parent of `x`. -/
def IsParent (backups : List BackupMeta) (x y : String) : Prop :=
  parentOf backups x = y ∧ y ≠ ""

/-- No backup is its own ancestor. -/
def Acyclic (backups : List BackupMeta) : Prop :=
  ∀ x, ¬ Relation.TransGen (IsParent backups) x x

/-- An endless chain of parents goes on to each of its later members. -/
lemma transGen_iterate {pid : String} (h : ∀ n, (parentOf backups)^[n] pid ≠ "") {i j : ℕ}
    (hij : i < j) :
    Relation.TransGen (IsParent backups) ((parentOf backups)^[i] pid)
      ((parentOf backups)^[j] pid) := by
  have hlink : ∀ n, IsParent backups ((parentOf backups)^[n] pid)
      ((parentOf backups)^[n + 1] pid) :=
    fun n => ⟨(Function.iterate_succ_apply' _ n pid).symm, h (n + 1)⟩
  induction j, hij using Nat.le_induction with
  | base => exact .single (hlink i)
  | succ j _ ih => exact ih.tail (hlink j)

/-- **Without cycles every chain of parents ends**: only finitely many IDs occur. -/
lemma Acyclic.ends (h : Acyclic backups) (pid : String) : Ends backups pid := by
  by_contra hends
  have hne : ∀ n, (parentOf backups)^[n] pid ≠ "" := fun n hn => hends ⟨n, hn⟩
  have hoccurs : ∀ n, (parentOf backups)^[n + 1] pid ∈ occurring backups := by
    intro n
    have hn := hne (n + 1)
    rw [Function.iterate_succ_apply'] at hn ⊢
    exact parentOf_occurring hn
  obtain ⟨i, j, hij, heq⟩ := Finite.exists_ne_map_eq_of_infinite
    fun n => (⟨_, hoccurs n⟩ : { x // x ∈ occurring backups })
  have heq : (parentOf backups)^[i + 1] pid = (parentOf backups)^[j + 1] pid :=
    congrArg Subtype.val heq
  rcases Nat.lt_or_gt_of_ne hij with hlt | hlt
  · have hcycle := transGen_iterate hne (Nat.succ_lt_succ hlt)
    rw [heq] at hcycle
    exact h _ hcycle
  · have hcycle := transGen_iterate hne (Nat.succ_lt_succ hlt)
    rw [← heq] at hcycle
    exact h _ hcycle

/-- Parents of a smaller rank. -/
lemma acyclic_of_rank (rank : String → ℕ)
    (h : ∀ b ∈ backups, b.parentID ≠ "" → rank b.parentID < rank b.id) : Acyclic backups := by
  have hparent : ∀ x y, IsParent backups x y → rank y < rank x := by
    rintro x y ⟨rfl, hne⟩
    obtain ⟨hmem, hid⟩ := byID_mem fun hzero => hne (by rw [parentOf, hzero]; rfl)
    have hlt := h _ hmem hne
    rwa [hid] at hlt
  have hlt : ∀ x y, Relation.TransGen (IsParent backups) x y → rank y < rank x := by
    intro x y hxy
    induction hxy with
    | single hp => exact hparent _ _ hp
    | tail _ hp ih => exact (hparent _ _ hp).trans ih
  exact fun x hcycle => lt_irrefl _ (hlt x x hcycle)

/-! ## The answers -/

/-- An answer keeps what is reached, and forgets the other backups. -/
lemma selects_kept {r : Result} (h : Selects backups policy now r) :
    (∀ x, r.kept x = true ↔ Reached backups policy now x) ∧
      r.forget = ((backups.filter fun b => !r.kept b.id).map BackupMeta.id).insertionSort
        (· ≤ ·) := by
  obtain ⟨as, s, hexec, hdone, rfl⟩ := h
  have hinv := inv_exec inv_init hexec
  refine ⟨fun x => ?_, ?_⟩
  · simp only [State.result, decide_eq_true_eq]
    exact ⟨hinv.reached x, fun hx => (hinv.done hdone hx).1⟩
  · simp [State.result]

lemma mem_forget {r : Result} (h : Selects backups policy now r) {id : String} :
    id ∈ r.forget ↔ r.kept id = false ∧ ∃ b ∈ backups, b.id = id := by
  rw [(selects_kept h).2, List.mem_insertionSort, List.mem_map]
  constructor
  · rintro ⟨b, hb, rfl⟩
    obtain ⟨hb, hkept⟩ := List.mem_filter.1 hb
    exact ⟨by simpa using hkept, b, hb, rfl⟩
  · rintro ⟨hkept, b, hb, rfl⟩
    exact ⟨b, List.mem_filter.2 ⟨hb, by simpa using hkept⟩, rfl⟩

/-- Two answers keep the same, and forget the same. -/
lemma selects_unique {r r' : Result} (h : Selects backups policy now r)
    (h' : Selects backups policy now r') : r.kept = r'.kept ∧ r.forget = r'.forget := by
  have hkept : r.kept = r'.kept := by
    funext x
    rw [Bool.eq_iff_iff, (selects_kept h).1, (selects_kept h').1]
  exact ⟨hkept, by rw [(selects_kept h).2, (selects_kept h').2, hkept]⟩

lemma exists_selects (h : Acyclic backups) (policy : Policy) (now : ℤ) :
    Finishes backups policy now ∧ ∃ r, Selects backups policy now r := by
  have hends : ∀ x, Reached backups policy now x → Ends backups (parentOf backups x) :=
    fun x _ => h.ends _
  obtain ⟨as, s, hexec, hdone⟩ := exists_done (acc_of_ends hends inv_init) inv_init
  exact ⟨finishes_of_ends hends, _, as, s, hexec, hdone, rfl⟩

/-! ## The order of the backups -/

/-- Two states that a run cannot tell apart: maps with their keys in other orders. -/
structure Alike (s t : State) : Prop where
  kept : ∀ x, s.kept.lookup x = t.kept.lookup x
  start : ∀ x, x ∈ s.start ↔ x ∈ t.start
  visited : s.visited = t.visited
  changed : s.changed = t.changed
  phase : s.phase = t.phase

lemma Alike.mem (h : Alike s t) {x : String} : x ∈ s.kept ↔ x ∈ t.kept := by
  rw [← AList.lookup_isSome, h.kept, AList.lookup_isSome]

lemma Alike.add (h : Alike s t) {ids ids' : List String} (hids : ∀ x, x ∈ ids ↔ x ∈ ids')
    (reason : Reason) (phase : Phase) :
    Alike (s.add ids reason phase) (t.add ids' reason phase) where
  kept x := by simp only [State.add, lookup_keepAll, h.kept, hids]
  start := h.start
  visited := h.visited
  changed := by
    have hany : (ids.any fun id => id ∉ s.kept) = ids'.any fun id => id ∉ t.kept := by
      rw [Bool.eq_iff_iff, List.any_eq_true, List.any_eq_true]
      simp only [hids, h.mem]
    simp only [State.add, h.changed, hany]
  phase := rfl

lemma mem_siblings_perm (huniq : (backups.map BackupMeta.id).Nodup) (hperm : backups'.Perm backups)
    (id x : String) : x ∈ siblings backups id ↔ x ∈ siblings backups' id := by
  simp only [mem_siblings, byID_perm huniq hperm, hperm.mem_iff]

/-- **One step on permuted backups.** -/
lemma Alike.step (h : Alike s t) (huniq : (backups.map BackupMeta.id).Nodup)
    (hperm : backups'.Perm backups) {a : Act} (hstep : Steps backups s a s') :
    ∃ t', Steps backups' t a t' ∧ Alike s' t' := by
  have hparent : ∀ x, parentOf backups x = parentOf backups' x := fun x => by
    rw [parentOf, parentOf, byID_perm huniq hperm]
  have hall : (∀ id ∈ s.start, id ∈ s.visited) → ∀ id ∈ t.start, id ∈ t.visited :=
    fun hall id hid => h.visited ▸ hall id ((h.start id).2 hid)
  cases hstep with
  | @visit id hphase hkept hnew =>
    refine ⟨_, .visit (h.phase ▸ hphase) (h.mem.1 hkept) (h.visited ▸ hnew), ?_⟩
    exact ⟨h.kept, h.start, by simp [h.visited], h.changed, by simp [hparent]⟩
  | @parent id pid hphase hpid =>
    refine ⟨_, .parent (h.phase ▸ hphase) hpid, ?_⟩
    rw [hparent]
    exact h.add (fun _ => Iff.rfl) _ _
  | @siblings id hphase =>
    exact ⟨_, .siblings (h.phase ▸ hphase), h.add (mem_siblings_perm huniq hperm id) _ _⟩
  | again hphase hvisited hchanged =>
    refine ⟨_, .again (h.phase ▸ hphase) (hall hvisited) (h.changed ▸ hchanged), ?_⟩
    exact ⟨h.kept, fun x => h.mem, rfl, rfl, h.phase⟩
  | finish hphase hvisited hchanged =>
    refine ⟨_, .finish (h.phase ▸ hphase) (hall hvisited) (h.changed ▸ hchanged), ?_⟩
    exact ⟨h.kept, h.start, h.visited, h.changed, rfl⟩

lemma Alike.exec (h : Alike s t) (huniq : (backups.map BackupMeta.id).Nodup)
    (hperm : backups'.Perm backups) {as : List Act} (hexec : exec backups s as = some s') :
    ∃ t', Retention.exec backups' t as = some t' ∧ Alike s' t' := by
  induction as generalizing s t with
  | nil =>
    cases hexec
    exact ⟨t, rfl, h⟩
  | cons a as ih =>
    rw [Retention.exec] at hexec
    split at hexec
    · cases hexec
    · rename_i s1 hstep
      obtain ⟨t1, hstep', h1⟩ := h.step huniq hperm (step_iff.1 hstep)
      obtain ⟨t', hexec', h'⟩ := ih h1 hexec
      refine ⟨t', ?_, h'⟩
      rw [Retention.exec, step_iff.2 hstep']
      exact hexec'

lemma alike_init (hperm : backups'.Perm backups) (policy : Policy) (now : ℤ) :
    Alike (State.init backups policy now) (State.init backups' policy now) := by
  have hseeds : ∀ x, (seeds backups policy now).lookup x =
    (seeds backups' policy now).lookup x := by
    intro x
    rw [lookup_seeds, lookup_seeds]
    refine if_congr ?_ rfl (if_congr ?_ rfl (if_congr ?_ rfl rfl))
    · simp only [Active, hperm.mem_iff]
    · simp only [Newest, hperm.mem_iff]
    · simp only [OnLadder, hperm.mem_iff]
  refine ⟨hseeds, fun x => ?_, rfl, rfl, rfl⟩
  change x ∈ seeds backups policy now ↔ x ∈ seeds backups' policy now
  rw [← AList.lookup_isSome, hseeds, AList.lookup_isSome]

lemma Alike.result (h : Alike s t) (hperm : backups'.Perm backups) :
    t.result backups' = s.result backups := by
  have hforget : (t.result backups').forget = (s.result backups).forget := by
    have hfilter : (backups'.filter fun b => b.id ∉ t.kept).Perm
        (backups.filter fun b => b.id ∉ s.kept) := by
      simp only [← h.mem]
      exact hperm.filter _
    refine List.Perm.eq_of_pairwise' (List.pairwise_insertionSort (· ≤ ·) _)
      (List.pairwise_insertionSort (· ≤ ·) _) ?_
    exact (List.perm_insertionSort _ _).trans
      ((hfilter.map _).trans (List.perm_insertionSort _ _).symm)
  simp only [State.result, Result.mk.injEq] at hforget ⊢
  refine ⟨?_, hforget, ?_⟩
  · funext x
    simp only [h.mem]
  · funext x
    rw [h.kept]

/-- The answers to permuted backups. -/
lemma Selects.perm (huniq : (backups.map BackupMeta.id).Nodup) (hperm : backups'.Perm backups)
    {r : Result} (h : Selects backups policy now r) : Selects backups' policy now r := by
  obtain ⟨as, s, hexec, hdone, rfl⟩ := h
  obtain ⟨t, hexec', halike⟩ := (alike_init hperm policy now).exec huniq hperm hexec
  exact ⟨as, t, hexec', halike.phase ▸ hdone, halike.result hperm⟩

/-! ## The directives -/

/-- The directives for one answer. -/
structure Directives (backups : List BackupMeta) (policy : Policy) (now : ℤ) (r : Result) :
    Prop where
  /-- What is kept is active, the newest of its source or of its bucket on the ladder, or such a
  backup leads to it by parents and snapshots; no other backup is. -/
  reached : ∀ id, r.kept id = true ↔ Reached backups policy now id
  /-- Each backup is either kept or forgotten. -/
  either : ∀ b ∈ backups,
    r.kept b.id = true ∧ b.id ∉ r.forget ∨ r.kept b.id = false ∧ b.id ∈ r.forget
  /-- Only backups are forgotten, each once. -/
  forget : r.forget.Nodup ∧ ∀ id ∈ r.forget, ∃ b ∈ backups, b.id = id
  /-- What is kept is a backup, or the missing parent of one that is kept. -/
  kept : ∀ id, r.kept id = true → (∃ b ∈ backups, b.id = id) ∨
    (∀ b ∈ backups, b.id ≠ id) ∧ ∃ b ∈ backups, r.kept b.id = true ∧ b.parentID = id
  active : ∀ b ∈ backups, b.status ≠ "completed" → r.kept b.id = true
  /-- Of each source with a completed backup, one is newer than all others and kept. -/
  newest : ∀ b ∈ backups, b.completed = true → ∃ b₀ ∈ backups, b₀.completed = true ∧
    b₀.source = b.source ∧ r.kept b₀.id = true ∧
    ∀ b' ∈ backups, b'.completed = true → b'.source = b.source → b' ≠ b₀ → newer b₀ b' = true
  ancestors : ∀ b ∈ backups, r.kept b.id = true →
    ∀ id, Relation.TransGen (IsParent backups) b.id id → r.kept id = true
  siblings : ∀ b ∈ backups, r.kept b.id = true → b.snapshotID ≠ "" →
    ∀ b' ∈ backups, b'.snapshotID = b.snapshotID → r.kept b'.id = true

/-- The newest completed backup of a source, when it has one. -/
lemma exists_newest (huniq : (backups.map BackupMeta.id).Nodup) {b : BackupMeta} (hb : b ∈ backups)
    (hdone : b.completed = true) :
    ∃ b0 ∈ backups, b0.completed = true ∧ b0.source = b.source ∧ Newest backups b0.id ∧
      ∀ b' ∈ backups, b'.completed = true → b'.source = b.source → b' ≠ b0 →
      newer b0 b' = true := by
  have hleads := leads_newest backups b.source
  cases hcur : (newest backups).lookup b.source with
  | none =>
    rw [hcur] at hleads
    exact absurd rfl (hleads b hb hdone)
  | some b0 =>
    rw [hcur] at hleads
    obtain ⟨hb0, hdone0, hsrc, hmax⟩ := hleads
    have hnewest : Newest backups b0.id :=
      ⟨b0, hb0, rfl, hdone0, fun b' hb' hd hs => hmax b' hb' hd (hs.trans hsrc)⟩
    refine ⟨b0, hb0, hdone0, hsrc, hnewest, fun b' hb' hdone' hsrc' hne => ?_⟩
    refine newer_iff.2 (lt_of_le_of_ne (not_newer_iff.1 (hmax b' hb' hdone' hsrc')) fun heq =>
      hne ?_)
    exact List.inj_on_of_nodup_map huniq hb' hb0 (id_eq_of_rank_eq heq)

/-- What is reached is a backup, or the parent of one that is reached. -/
lemma Reached.mem_or_parent {x : String} (h : Reached backups policy now x) :
    (∃ b ∈ backups, b.id = x) ∨
      ∃ b ∈ backups, Reached backups policy now b.id ∧ b.parentID = x := by
  obtain ⟨root, hroot, hreach⟩ := h
  cases hreach with
  | refl =>
    rcases hroot with ⟨b, hb, hid, -⟩ | ⟨b, hb, hid, -⟩ | ⟨b, hb, hid, -⟩ <;> exact .inl
      ⟨b, hb, hid⟩
  | @tail y _ hreach hlink =>
    cases hlink with
    | parent hp =>
      obtain ⟨hmem, hid⟩ := byID_mem (fun hzero => hp (by rw [parentOf, hzero]; rfl))
      exact .inr ⟨byID backups y, hmem, hid.symm ▸ ⟨root, hroot, hreach⟩, rfl⟩
    | sibling hs =>
      obtain ⟨-, b, hb, -, hid⟩ := mem_siblings.1 hs
      exact .inl ⟨b, hb, hid⟩

lemma Selects.directives (huniq : (backups.map BackupMeta.id).Nodup) {r : Result}
    (h : Selects backups policy now r) : Directives backups policy now r := by
  obtain ⟨hkept, hforget⟩ := selects_kept h
  refine ⟨hkept, fun b hb => ?_, ⟨?_, fun id hid => ((mem_forget h).1 hid).2⟩, fun id hid => ?_,
    fun b hb hstatus => ?_, fun b hb hdone => ?_, fun b hb hb' id hid => ?_,
    fun b hb hkeep hsid b' hb' hsame => ?_⟩
  · cases hr : r.kept b.id with
    | true => exact .inl ⟨rfl, fun hmem => by simp [(mem_forget h).1 hmem] at hr⟩
    | false => exact .inr ⟨rfl, (mem_forget h).2 ⟨hr, b, hb, rfl⟩⟩
  · rw [hforget, (List.perm_insertionSort _ _).nodup_iff]
    exact huniq.sublist (List.filter_sublist.map _)
  · by_cases hmem : ∃ b ∈ backups, b.id = id
    · exact .inl hmem
    · refine .inr ⟨fun b hb heq => hmem ⟨b, hb, heq⟩, ?_⟩
      obtain ⟨b, hb, hreach, hparent⟩ := ((hkept id).1 hid).mem_or_parent.resolve_left hmem
      exact ⟨b, hb, (hkept _).2 hreach, hparent⟩
  · have hactive : Active backups b.id :=
      ⟨b, hb, rfl, by simpa [BackupMeta.completed] using hstatus⟩
    exact (hkept _).2 ⟨b.id, .inl hactive, .refl⟩
  · obtain ⟨b0, hb0, hdone0, hsrc, hnewest, hmax⟩ := exists_newest huniq hb hdone
    exact ⟨b0, hb0, hdone0, hsrc, (hkept _).2 ⟨b0.id, .inr (.inl hnewest), .refl⟩, hmax⟩
  · refine (hkept id).2 ?_
    induction hid with
    | single hp => exact ((hkept _).1 hb').link (hp.1 ▸ .parent (hp.1.symm ▸ hp.2))
    | tail _ hp ih => exact ih.link (hp.1 ▸ .parent (hp.1.symm ▸ hp.2))
  · refine (hkept _).2 (((hkept _).1 hkeep).link (.sibling (mem_siblings.2 ?_)))
    rw [byID_of_mem huniq hb]
    exact ⟨hsid, b', hb', hsame, rfl⟩

/-- **The prime directives.** Without cycles in the parent links `Select` finishes with an answer;
every answer follows the directives; the answers do not depend on the order of the backups, and two
of them differ in the recorded reasons at most.

**Proof sketch.** An answer keeps exactly what is reached from the backups that the rules keep. A
run on the permuted backups stays alike step by step, since the loops only ask what the maps hold.
-/
theorem selects_directives (huniq : (backups.map BackupMeta.id).Nodup) (hacyclic : Acyclic backups)
    (policy : Policy) (now : ℤ) :
    Finishes backups policy now ∧ (∃ r, Selects backups policy now r) ∧
      (∀ r, Selects backups policy now r → Directives backups policy now r) ∧
      (∀ backups' : List BackupMeta, backups'.Perm backups →
        ∀ r, Selects backups' policy now r ↔ Selects backups policy now r) ∧
      ∀ r r', Selects backups policy now r → Selects backups policy now r' →
        r.kept = r'.kept ∧ r.forget = r'.forget := by
  obtain ⟨hfinish, hselects⟩ := exists_selects hacyclic policy now
  refine ⟨hfinish, hselects, fun r hr => hr.directives huniq, fun backups' hperm r => ?_,
    fun r r' hr hr' => selects_unique hr hr'⟩
  have huniq' : (backups'.map BackupMeta.id).Nodup := (hperm.map _).nodup_iff.2 huniq
  exact ⟨Selects.perm huniq' hperm.symm, Selects.perm huniq hperm⟩

/-- A backup whose parent is missing. -/
def orphan : BackupMeta := ⟨"a", "C:", "completed", 0, 0, "gone", ""⟩

lemma acyclic_orphan : Acyclic [orphan] :=
  acyclic_of_rank (fun id => if id = "a" then 1 else 0) (by decide)

/-- An increment and its full backup, with one between them; a member of the snapshot of the
increment, with a newer backup of its source; and one that still runs. -/
def chain : List BackupMeta :=
  [⟨"full", "C:", "completed", 1, 2, "", ""⟩, ⟨"old", "C:", "completed", 3, 4, "", ""⟩,
    ⟨"inc", "C:", "completed", 5, 6, "full", "s"⟩, ⟨"boot", "D:", "completed", 1, 2, "", "s"⟩,
    ⟨"late", "D:", "completed", 3, 4, "", ""⟩, ⟨"run", "C:", "running", 0, 0, "", ""⟩]

/-- All but the one in between are kept, for the ladder or for the increment. -/
theorem selects_directives_chain : ∃ r, Selects chain ⟨100, 100, 100, 100⟩ 7 r ∧
    Directives chain ⟨100, 100, 100, 100⟩ 7 r ∧ r.kept "run" = true ∧ r.kept "inc" = true ∧
      r.kept "full" = true ∧ r.kept "boot" = true ∧ "old" ∈ r.forget := by
  obtain ⟨-, ⟨r, hr⟩, hall, -⟩ := selects_directives (by decide : (chain.map BackupMeta.id).Nodup)
    (acyclic_of_rank (fun id => if id = "inc" then 1 else 0) (by decide)) ⟨100, 100, 100, 100⟩ 7
  have hdir := hall r hr
  have hinc : r.kept "inc" = true := (hdir.reached _).2 ⟨"inc", .inr (.inl (by decide)), .refl⟩
  refine ⟨r, hr, hdir, hdir.active chain[5] (by decide) (by decide), hinc,
    hdir.ancestors chain[2] (by decide) hinc "full" (.single ⟨by decide, by decide⟩),
    hdir.siblings chain[2] (by decide) hinc (by decide) chain[3] (by decide) rfl, ?_⟩
  refine ((hdir.either chain[1] (by decide)).resolve_left fun hkept => ?_).2
  obtain ⟨root, hroot, hreach⟩ := (hdir.reached "old").1 hkept.1
  rcases Relation.ReflTransGen.cases_tail hreach with rfl | ⟨y, -, hlink⟩
  · revert hroot
    unfold Rooted
    decide
  · -- it is nobody's parent, and in no snapshot
    have hparent : ∀ b ∈ chain, b.parentID ≠ "old" := by decide
    have hsnapshot : ∀ b ∈ chain, b.snapshotID ≠ "" → b.id ≠ "old" := by decide
    generalize hx : "old" = x at hlink
    cases hlink with
    | parent hp =>
      obtain ⟨hmem, -⟩ := byID_mem fun hzero => hp (by rw [parentOf, hzero]; rfl)
      exact hparent _ hmem hx.symm
    | sibling hs =>
      obtain ⟨hsid, b, hb, hsame, hid⟩ := mem_siblings.1 hs
      exact hsnapshot b hb (hsame ▸ hsid) (hid.trans hx.symm)

/-- The ID of a missing parent is kept, so the kept IDs are not all IDs of backups. -/
theorem kept_missing_parent :
    ([orphan].map BackupMeta.id).Nodup ∧ Acyclic [orphan] ∧
      ∃ r, Selects [orphan] ⟨0, 0, 0, 0⟩ 0 r ∧ r.kept "gone" = true ∧
        ∀ b ∈ [orphan], b.id ≠ "gone" := by
  obtain ⟨-, r, hr⟩ := exists_selects acyclic_orphan ⟨0, 0, 0, 0⟩ 0
  refine ⟨by decide, acyclic_orphan, r, hr, ((selects_kept hr).1 _).2 ?_, by decide⟩
  refine ⟨"a", .inr (.inl (by decide)), .single ?_⟩
  have hparent : parentOf [orphan] "a" = "gone" := by decide
  exact hparent ▸ .parent (by decide)

end DiskNexus.Retention
