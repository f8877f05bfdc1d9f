import Mathlib.Data.List.AList
import Mathlib.Data.List.Sort
import Mathlib.Data.String.Basic
import Mathlib.Logic.Relation
import Mathlib.Tactic

/-!
# Retention selection

`retention.Select` decides which backups a policy keeps: those that are not completed, the newest of
each source, one per bucket of age, and then the parents of what is kept and the other members of
its snapshots. The fixpoint ranges over the map that it extends; `Act.visit` makes the choices that
Go leaves open.
-/

namespace DiskNexus.Retention

/-- `retention.BackupMeta`. Times are instants, in nanoseconds. -/
structure BackupMeta where
  id : String
  source : String
  status : String
  startedAt : ℤ
  completedAt : ℤ
  parentID : String
  snapshotID : String
  deriving DecidableEq

/-- The zero value, which a lookup of a missing key returns. -/
def BackupMeta.zero : BackupMeta := ⟨"", "", "", 0, 0, "", ""⟩

/-- `retention.Policy`: a cadence for each tier of age. -/
structure Policy where
  withinWeek : ℤ
  afterWeek : ℤ
  after90Days : ℤ
  afterYear : ℤ

/-- Why a backup is kept. -/
inductive Reason
  | active
  | newestOfSource
  | ladder
  | chainAncestor
  | snapshotSibling
  deriving DecidableEq

/-- The text of a reason. -/
def Reason.text : Reason → String
  | .active => "active"
  | .newestOfSource => "newest-of-source"
  | .ladder => "ladder"
  | .chainAncestor => "chain-ancestor"
  | .snapshotSibling => "snapshot-sibling"

/-- The kept IDs, with the reason recorded for each. -/
abbrev Kept := AList (fun _ : String => Reason)

/-- Whether a backup is completed. -/
def BackupMeta.completed (b : BackupMeta) : Bool := b.status = "completed"

/-- `newer`, the order on backups that decides which is the newest. -/
def newer (a b : BackupMeta) : Bool :=
  if a.completedAt ≠ b.completedAt then b.completedAt < a.completedAt
  else if a.startedAt ≠ b.startedAt then b.startedAt < a.startedAt
  else a.id < b.id

/-- `24 * time.Hour`. -/
def day : ℤ := 24 * 3600 * 10 ^ 9

/-- `Policy.cadenceFor`. -/
def Policy.cadenceFor (p : Policy) (age : ℤ) : ℤ :=
  if age < 7 * day then p.withinWeek
  else if age < 90 * day then p.afterWeek
  else if age < 365 * day then p.after90Days
  else p.afterYear

/-- `Time.Sub`, which saturates. -/
def sub (t u : ℤ) : ℤ := max (-2 ^ 63) (min (2 ^ 63 - 1) (t - u))

/-- The closure `keep`: the first reason stays. -/
def keep (kept : Kept) (id : String) (reason : Reason) : Kept :=
  if id ∈ kept then kept else kept.insert id reason

/-- Keep several IDs for one reason. -/
def keepAll (kept : Kept) (ids : List String) (reason : Reason) : Kept :=
  ids.foldl (fun kept id => keep kept id reason) kept

/-! ## The rules -/

/-- The newest completed backup of each source, by the loop over the backups. -/
def newest (backups : List BackupMeta) : AList (fun _ : String => BackupMeta) :=
  backups.foldl (fun m b =>
    if b.completed then
      match m.lookup b.source with
      | none => m.insert b.source b
      | some cur => if newer b cur then m.insert b.source b else m
    else m) ∅

/-- The bucket of a backup on the ladder, if its tier has a cadence. -/
def bucketKey (policy : Policy) (now : ℤ) (b : BackupMeta) : Option (ℤ × ℤ) :=
  let age := sub now b.completedAt
  let cad := policy.cadenceFor age
  if cad ≤ 0 then none else some (cad, age.tdiv cad)

/-- The ladder over the backups of a source, newest first, with the buckets `seen`. -/
def ladder (policy : Policy) (now : ℤ) : List BackupMeta → List (ℤ × ℤ) → Kept → Kept
  | [], _, kept => kept
  | b :: list, seen, kept =>
    match bucketKey policy now b with
    | none => ladder policy now list seen (keep kept b.id .ladder)
    | some k =>
      if k ∈ seen then ladder policy now list seen kept
      else ladder policy now list (k :: seen) (keep kept b.id .ladder)

/-- The completed backups of a source, newest first. -/
def bySource (backups : List BackupMeta) (source : String) : List BackupMeta :=
  (backups.filter fun b => b.completed ∧ b.source = source).insertionSort fun a b => !newer b a

/-- What the three rules keep. -/
def seeds (backups : List BackupMeta) (policy : Policy) (now : ℤ) : Kept :=
  let active := (backups.filter fun b => !b.completed).map BackupMeta.id
  let kept := keepAll ∅ active .active
  let kept := keepAll kept ((newest backups).entries.map fun s => s.2.id) .newestOfSource
  let sources := ((backups.filter BackupMeta.completed).map BackupMeta.source).dedup
  sources.foldl (fun kept source => ladder policy now (bySource backups source) [] kept) kept

/-! ## The fixpoint -/

/-- `byID`, where a later backup replaces an earlier one of the same ID. -/
def byID (backups : List BackupMeta) (id : String) : BackupMeta :=
  (backups.reverse.find? fun b => b.id = id).getD .zero

/-- The parent of a backup, `""` for none. -/
def parentOf (backups : List BackupMeta) (id : String) : String := (byID backups id).parentID

/-- `snapMembers[sid]` for the snapshot of a backup. -/
def siblings (backups : List BackupMeta) (id : String) : List String :=
  let sid := (byID backups id).snapshotID
  if sid = "" then [] else (backups.filter fun b => b.snapshotID = sid).map BackupMeta.id

/-- Where the fixpoint stands: at the head of the `range` loop, in the walk along the parents of
`id` with `pid` next, or behind the outer loop. -/
inductive Phase
  | ranging
  | walking (id pid : String)
  | done
  deriving DecidableEq

/-- The state of the fixpoint, with the keys of the map when the pass began, which the `range` loop
visits in any case, and those it has visited. -/
structure State where
  kept : Kept
  start : List String
  visited : List String
  changed : Bool
  phase : Phase

/-- A choice of the `range` loop, or the step that comes next. -/
inductive Act
  | visit (id : String)
  | walk
  | endPass
  deriving DecidableEq

/-- Keep IDs on the way, and note whether one of them was new. -/
def State.add (s : State) (ids : List String) (reason : Reason) (phase : Phase) : State :=
  { s with
    kept := keepAll s.kept ids reason
    changed := s.changed || ids.any fun id => id ∉ s.kept
    phase := phase }

/-- The next iteration of the outer loop. -/
def State.newPass (s : State) : State :=
  { s with start := s.kept.keys, visited := [], changed := false }

/-- One step of the fixpoint. -/
def step (backups : List BackupMeta) (s : State) : Act → Option State
  | .visit id =>
    match s.phase with
    | .ranging =>
      if id ∈ s.kept ∧ id ∉ s.visited then
        some { s with visited := id :: s.visited, phase := .walking id (parentOf backups id) }
      else none
    | _ => none
  | .walk =>
    match s.phase with
    | .walking id pid =>
      if pid = "" then some (s.add (siblings backups id) .snapshotSibling .ranging)
      else some (s.add [pid] .chainAncestor (.walking id (parentOf backups pid)))
    | _ => none
  | .endPass =>
    match s.phase with
    | .ranging =>
      if ∀ id ∈ s.start, id ∈ s.visited then
        if s.changed then some s.newPass else some { s with phase := .done }
      else none
    | _ => none

/-- A run of the fixpoint. -/
def exec (backups : List BackupMeta) : State → List Act → Option State
  | s, [] => some s
  | s, a :: as =>
    match step backups s a with
    | none => none
    | some s' => exec backups s' as

/-- The fixpoint when it starts, in its first pass. -/
def State.init (backups : List BackupMeta) (policy : Policy) (now : ℤ) : State :=
  let kept := seeds backups policy now
  ⟨kept, kept.keys, [], false, .ranging⟩

/-- `retention.Result`. -/
structure Result where
  kept : String → Bool
  forget : List String
  reasons : String → Option String

/-- The result of a fixpoint that is done. -/
def State.result (backups : List BackupMeta) (s : State) : Result where
  kept id := id ∈ s.kept
  forget := ((backups.filter fun b => b.id ∉ s.kept).map BackupMeta.id).insertionSort (· ≤ ·)
  reasons id := (s.kept.lookup id).map Reason.text

/-- `Select` can return this result. -/
def Selects (backups : List BackupMeta) (policy : Policy) (now : ℤ) (r : Result) : Prop :=
  ∃ as s, exec backups (State.init backups policy now) as = some s ∧ s.phase = .done ∧
    s.result backups = r

/-- `Select` finishes, whatever the `range` loops choose. -/
def Finishes (backups : List BackupMeta) (policy : Policy) (now : ℤ) : Prop :=
  ¬ ∃ run : ℕ → State, run 0 = State.init backups policy now ∧
    ∀ n, ∃ a, step backups (run n) a = some (run (n + 1))

/-! ## Keeping IDs -/

lemma lookup_keep (kept : Kept) (id : String) (reason : Reason) (x : String) :
    (keep kept id reason).lookup x =
      (kept.lookup x).or (if x = id then some reason else none) := by
  unfold keep
  split
  · rename_i hid
    split_ifs with hx
    · obtain ⟨r, hr⟩ := Option.isSome_iff_exists.1 (AList.lookup_isSome.2 (hx ▸ hid))
      simp [hr]
    · simp
  · rename_i hid
    split_ifs with hx
    · subst hx
      simp [AList.lookup_eq_none.2 hid]
    · simp [AList.lookup_insert_ne hx]

lemma lookup_keepAll (kept : Kept) (ids : List String) (reason : Reason) (x : String) :
    (keepAll kept ids reason).lookup x =
      (kept.lookup x).or (if x ∈ ids then some reason else none) := by
  induction ids generalizing kept with
  | nil => simp [keepAll]
  | cons id ids ih =>
    rw [keepAll, List.foldl_cons, ← keepAll, ih, lookup_keep, Option.or_assoc]
    congr 1
    by_cases hx : x = id <;> by_cases hmem : x ∈ ids <;> simp [hx, hmem]

lemma mem_keepAll {kept : Kept} {ids : List String} {reason : Reason} {x : String} :
    x ∈ keepAll kept ids reason ↔ x ∈ kept ∨ x ∈ ids := by
  rw [← AList.lookup_isSome, lookup_keepAll, ← AList.lookup_isSome]
  by_cases hx : x ∈ ids <;> simp [hx]

/-! ## The order on backups -/

/-- What `newer` compares. -/
def BackupMeta.rank (b : BackupMeta) : ℤ ×ₗ (ℤ ×ₗ Stringᵒᵈ) :=
  toLex (b.completedAt, toLex (b.startedAt, OrderDual.toDual b.id))

lemma newer_iff {a b : BackupMeta} : newer a b = true ↔ b.rank < a.rank := by
  unfold newer BackupMeta.rank
  rw [Prod.Lex.toLex_lt_toLex, Prod.Lex.toLex_lt_toLex, OrderDual.toDual_lt_toDual]
  split
  · rename_i h
    simp [Ne.symm h]
  · rename_i h
    rw [not_not.1 h]
    split_ifs with h'
    · simp [Ne.symm h']
    · rw [not_not.1 h']
      simp

lemma not_newer_iff {a b : BackupMeta} : newer a b = false ↔ a.rank ≤ b.rank := by
  rw [← Bool.not_eq_true, newer_iff, not_lt]

/-- Backups of one rank have one ID. -/
lemma id_eq_of_rank_eq {a b : BackupMeta} (h : a.rank = b.rank) : a.id = b.id := by
  simp only [BackupMeta.rank, EmbeddingLike.apply_eq_iff_eq, Prod.mk.injEq] at h
  exact h.2.2

/-! ## What the rules keep -/

section Rules

variable (backups : List BackupMeta) (policy : Policy) (now : ℤ)

/-- A backup that is not completed. -/
def Active (id : String) : Prop := ∃ b ∈ backups, b.id = id ∧ b.completed = false

/-- The newest completed backup of its source. -/
def Newest (id : String) : Prop :=
  ∃ b ∈ backups, b.id = id ∧ b.completed = true ∧
    ∀ b' ∈ backups, b'.completed = true → b'.source = b.source → newer b' b = false

/-- A completed backup whose tier has no cadence, or the newest of its bucket. -/
def OnLadder (id : String) : Prop :=
  ∃ b ∈ backups, b.id = id ∧ b.completed = true ∧
    (bucketKey policy now b = none ∨ ∀ b' ∈ backups, b'.completed = true → b'.source = b.source →
      bucketKey policy now b' = bucketKey policy now b → newer b' b = false)

instance (id : String) : Decidable (Active backups id) :=
  inferInstanceAs (Decidable (∃ b ∈ backups, _))

instance (id : String) : Decidable (Newest backups id) :=
  inferInstanceAs (Decidable (∃ b ∈ backups, _))

instance (id : String) : Decidable (OnLadder backups policy now id) :=
  inferInstanceAs (Decidable (∃ b ∈ backups, _))

end Rules

variable {backups : List BackupMeta} {policy : Policy} {now : ℤ}

/-- The candidate of a source while the loop runs: its newest completed backup so far. -/
def Leads (backups : List BackupMeta) (source : String) : Option BackupMeta → Prop
  | none => ∀ b ∈ backups, b.completed = true → b.source ≠ source
  | some b => b ∈ backups ∧ b.completed = true ∧ b.source = source ∧
      ∀ b' ∈ backups, b'.completed = true → b'.source = source → newer b' b = false

/-- A backup that is not completed, or of another source, is no candidate. -/
lemma Leads.skip {source : String} {m : Option BackupMeta} (h : Leads backups source m)
    {b : BackupMeta} (hb : b.completed = true → b.source ≠ source) :
    Leads (backups ++ [b]) source m := by
  cases m with
  | none =>
    intro b' hb'
    rcases List.mem_append.1 hb' with hb' | hb'
    · exact h b' hb'
    · exact List.mem_singleton.1 hb' ▸ hb
  | some cur =>
    obtain ⟨hmem, hdone, hsrc, hmax⟩ := h
    refine ⟨List.mem_append_left _ hmem, hdone, hsrc, fun b' hb' hdone' hsrc' => ?_⟩
    rcases List.mem_append.1 hb' with hb' | hb'
    · exact hmax b' hb' hdone' hsrc'
    · rw [List.mem_singleton.1 hb'] at hdone' hsrc'
      exact absurd hsrc' (hb hdone')

/-- A backup that no earlier one beats is the next candidate. -/
lemma Leads.replace {b : BackupMeta} (hb : b.completed = true)
    (hmax : ∀ b' ∈ backups, b'.completed = true → b'.source = b.source → newer b' b = false) :
    Leads (backups ++ [b]) b.source (some b) := by
  refine ⟨by simp, hb, rfl, fun b' hb' hdone hsrc => ?_⟩
  rcases List.mem_append.1 hb' with hb' | hb'
  · exact hmax b' hb' hdone hsrc
  · rw [List.mem_singleton.1 hb']
    exact not_newer_iff.2 le_rfl

/-- The loop keeps a candidate for each source. -/
lemma leads_newest (backups : List BackupMeta) (source : String) :
    Leads backups source ((newest backups).lookup source) := by
  induction backups using List.reverseRecOn with
  | nil => simp [newest, Leads]
  | append_singleton backups b ih =>
    rw [newest, List.foldl_append, ← newest, List.foldl_cons, List.foldl_nil]
    by_cases hb : b.completed = true
    · rw [if_pos hb]
      by_cases hsource : source = b.source
      · subst hsource
        cases hcur : (newest backups).lookup b.source with
        | none =>
          rw [hcur] at ih
          simp only [AList.lookup_insert]
          exact Leads.replace hb fun b' hb' hdone hsrc => absurd hsrc (ih b' hb' hdone)
        | some cur =>
          rw [hcur] at ih
          obtain ⟨hmem, hdone, hsrc, hmax⟩ := ih
          simp only
          cases hnew : newer b cur with
          | true =>
            simp only [if_true, AList.lookup_insert]
            refine Leads.replace hb fun b' hb' hdone' hsrc' => ?_
            have hle := not_newer_iff.1 (hmax b' hb' hdone' hsrc')
            exact not_newer_iff.2 (hle.trans (newer_iff.1 hnew).le)
          | false =>
            simp only [Bool.false_eq_true, if_false, hcur]
            refine ⟨List.mem_append_left _ hmem, hdone, hsrc, fun b' hb' hdone' hsrc' => ?_⟩
            rcases List.mem_append.1 hb' with hb' | hb'
            · exact hmax b' hb' hdone' hsrc'
            · rwa [List.mem_singleton.1 hb']
      · -- the loop leaves the other sources alone
        have hsame : (match (newest backups).lookup b.source with
            | none => (newest backups).insert b.source b
            | some cur => if newer b cur = true then (newest backups).insert b.source b
                else newest backups).lookup source = (newest backups).lookup source := by
          split
          · exact AList.lookup_insert_ne hsource
          · split
            · exact AList.lookup_insert_ne hsource
            · rfl
        rw [hsame]
        exact ih.skip fun _ => Ne.symm hsource
    · rw [if_neg hb]
      exact ih.skip fun h => absurd h hb

/-- The candidates after the loop. -/
lemma mem_newest {id : String} :
    id ∈ (newest backups).entries.map (fun s => s.2.id) ↔ Newest backups id := by
  rw [List.mem_map]
  constructor
  · rintro ⟨⟨source, b⟩, hmem, rfl⟩
    have hspec := leads_newest backups source
    rw [AList.mem_lookup_iff.2 hmem] at hspec
    obtain ⟨hb, hdone, rfl, hmax⟩ := hspec
    exact ⟨b, hb, rfl, hdone, hmax⟩
  · rintro ⟨b, hb, rfl, hdone, hmax⟩
    have hspec := leads_newest backups b.source
    cases hcur : (newest backups).lookup b.source with
    | none =>
      rw [hcur] at hspec
      exact absurd rfl (hspec b hb hdone)
    | some cur =>
      rw [hcur] at hspec
      obtain ⟨hmem, hdone', hsrc, hmax'⟩ := hspec
      -- neither of the two is newer than the other, so they have one ID
      have h1 := not_newer_iff.1 (hmax cur hmem hdone' hsrc)
      have h2 := not_newer_iff.1 (hmax' b hb hdone rfl)
      exact ⟨⟨b.source, cur⟩, AList.mem_lookup_iff.1 hcur, id_eq_of_rank_eq (le_antisymm h1 h2)⟩

/-- A backup of the list that the ladder keeps when the buckets in `seen` are taken. -/
def Tops (policy : Policy) (now : ℤ) (seen : List (ℤ × ℤ)) (list : List BackupMeta) (id : String) :
    Prop :=
  ∃ b ∈ list, b.id = id ∧ (bucketKey policy now b = none ∨
    (∀ k ∈ seen, bucketKey policy now b ≠ some k) ∧
      ∀ b' ∈ list, bucketKey policy now b' = bucketKey policy now b → newer b' b = false)

instance (seen : List (ℤ × ℤ)) (list : List BackupMeta) (id : String) :
    Decidable (Tops policy now seen list id) :=
  inferInstanceAs (Decidable (∃ b ∈ list, _))

section Ladder

variable {seen : List (ℤ × ℤ)} {b : BackupMeta} {list : List BackupMeta} {id : String}

lemma tops_cons_none (hkey : bucketKey policy now b = none) :
    Tops policy now seen (b :: list) id ↔ id = b.id ∨ Tops policy now seen list id := by
  constructor
  · rintro ⟨c, hc, rfl, htop⟩
    rcases List.mem_cons.1 hc with rfl | hc
    · exact .inl rfl
    · exact .inr ⟨c, hc, rfl, htop.imp_right fun h =>
        ⟨h.1, fun b' hb' => h.2 b' (.tail _ hb')⟩⟩
  · rintro (rfl | ⟨c, hc, rfl, htop⟩)
    · exact ⟨b, List.mem_cons_self, rfl, .inl hkey⟩
    · refine ⟨c, .tail _ hc, rfl, ?_⟩
      rcases htop with hnone | ⟨hseen, hmax⟩
      · exact .inl hnone
      · by_cases hnone : bucketKey policy now c = none
        · exact .inl hnone
        · refine .inr ⟨hseen, fun b' hb' heq => ?_⟩
          rcases List.mem_cons.1 hb' with rfl | hb'
          · exact absurd (heq.symm.trans hkey) hnone
          · exact hmax b' hb' heq

lemma tops_cons_seen {k : ℤ × ℤ} (hkey : bucketKey policy now b = some k) (hk : k ∈ seen) :
    Tops policy now seen (b :: list) id ↔ Tops policy now seen list id := by
  constructor
  · rintro ⟨c, hc, rfl, htop⟩
    rcases List.mem_cons.1 hc with rfl | hc
    · rcases htop with hnone | ⟨hseen, -⟩
      · rw [hkey] at hnone
        cases hnone
      · exact absurd hkey (hseen k hk)
    · exact ⟨c, hc, rfl, htop.imp_right fun h =>
        ⟨h.1, fun b' hb' => h.2 b' (.tail _ hb')⟩⟩
  · rintro ⟨c, hc, rfl, htop⟩
    refine ⟨c, .tail _ hc, rfl, htop.imp_right fun h => ⟨h.1, fun b' hb' heq => ?_⟩⟩
    rcases List.mem_cons.1 hb' with rfl | hb'
    · exact absurd (heq.symm.trans hkey) (h.1 k hk)
    · exact h.2 b' hb' heq

lemma tops_cons_new {k : ℤ × ℤ} (hkey : bucketKey policy now b = some k) (hk : k ∉ seen)
    (hsorted : ∀ c ∈ list, newer c b = false) :
    Tops policy now seen (b :: list) id ↔
      id = b.id ∨ Tops policy now (k :: seen) list id := by
  constructor
  · rintro ⟨c, hc, rfl, htop⟩
    rcases List.mem_cons.1 hc with rfl | hc
    · exact .inl rfl
    · rcases htop with hnone | ⟨hseen, hmax⟩
      · exact .inr ⟨c, hc, rfl, .inl hnone⟩
      · by_cases hck : bucketKey policy now c = some k
        · -- the head is not older, and no older than the newest of the bucket
          have h1 := not_newer_iff.1 (hmax b (.head _) (hkey.trans hck.symm))
          have h2 := not_newer_iff.1 (hsorted c hc)
          exact .inl (id_eq_of_rank_eq (le_antisymm h2 h1))
        · refine .inr ⟨c, hc, rfl, .inr ⟨?_, fun b' hb' => hmax b' (.tail _ hb')⟩⟩
          exact List.forall_mem_cons.2 ⟨hck, hseen⟩
  · rintro (rfl | ⟨c, hc, rfl, htop⟩)
    · refine ⟨b, List.mem_cons_self, rfl, .inr ⟨fun k' hk' heq => ?_, ?_⟩⟩
      · rw [hkey] at heq
        cases heq
        exact hk hk'
      · intro b' hb' _
        rcases List.mem_cons.1 hb' with rfl | hb'
        · exact not_newer_iff.2 le_rfl
        · exact hsorted b' hb'
    · refine ⟨c, .tail _ hc, rfl, htop.imp_right fun h => ?_⟩
      obtain ⟨hck, hseen⟩ := List.forall_mem_cons.1 h.1
      refine ⟨hseen, fun b' hb' heq => ?_⟩
      rcases List.mem_cons.1 hb' with rfl | hb'
      · exact absurd (heq.symm.trans hkey) hck
      · exact h.2 b' hb' heq

end Ladder

/-- What the ladder adds: the newest of each bucket not seen yet. -/
lemma lookup_ladder {list : List BackupMeta} (hsorted : list.Pairwise fun a b => newer b a = false)
    (seen : List (ℤ × ℤ)) (kept : Kept) (x : String) :
    (ladder policy now list seen kept).lookup x =
      (kept.lookup x).or (if Tops policy now seen list x then some .ladder else none) := by
  induction list generalizing seen kept with
  | nil => simp [ladder, Tops]
  | cons b list ih =>
    obtain ⟨hhead, htail⟩ := List.pairwise_cons.1 hsorted
    have hadd : ∀ seen', (Tops policy now seen (b :: list) x ↔
        x = b.id ∨ Tops policy now seen' list x) →
        (ladder policy now list seen' (keep kept b.id .ladder)).lookup x = (kept.lookup x).or
          (if Tops policy now seen (b :: list) x then some .ladder else none) := by
      intro seen' htops
      rw [ih htail, lookup_keep, Option.or_assoc, if_congr htops rfl rfl]
      congr 1
      by_cases hx : x = b.id <;> simp [hx]
    rw [ladder]
    cases hkey : bucketKey policy now b with
    | none => exact hadd seen (tops_cons_none hkey)
    | some k =>
      simp only
      by_cases hk : k ∈ seen
      · rw [if_pos hk, ih htail, if_congr (tops_cons_seen hkey hk) rfl rfl]
      · rw [if_neg hk]
        exact hadd (k :: seen) (tops_cons_new hkey hk hhead)

lemma pairwise_bySource (backups : List BackupMeta) (source : String) :
    (bySource backups source).Pairwise fun a b => newer b a = false := by
  have htotal : Std.Total fun a b : BackupMeta => (!newer b a) = true :=
    ⟨fun a b => by simpa [not_newer_iff] using le_total b.rank a.rank⟩
  have htrans : IsTrans BackupMeta fun a b => (!newer b a) = true :=
    ⟨fun a b c hab hbc => by
      rw [Bool.not_eq_true', not_newer_iff] at hab hbc ⊢
      exact hbc.trans hab⟩
  have hsorted := List.pairwise_insertionSort (fun a b : BackupMeta => (!newer b a) = true)
    (backups.filter fun b => b.completed ∧ b.source = source)
  exact hsorted.imp fun h => by simpa using h

/-- The ladders of all sources. -/
lemma lookup_ladders (kept : Kept) (x : String) :
    (((backups.filter BackupMeta.completed).map BackupMeta.source).dedup.foldl
      (fun kept source => ladder policy now (bySource backups source) [] kept) kept).lookup x =
        (kept.lookup x).or (if OnLadder backups policy now x then some .ladder else none) := by
  have hfold : ∀ (sources : List String) (kept : Kept),
      (sources.foldl (fun kept source => ladder policy now (bySource backups source) [] kept)
        kept).lookup x = (kept.lookup x).or
          (if ∃ source ∈ sources, Tops policy now [] (bySource backups source) x
            then some .ladder else none) := by
    intro sources
    induction sources with
    | nil => simp
    | cons source sources ih =>
      intro kept
      rw [List.foldl_cons, ih, lookup_ladder (pairwise_bySource _ _), Option.or_assoc]
      congr 1
      by_cases h : Tops policy now [] (bySource backups source) x <;> simp [h]
  rw [hfold]
  congr 2
  simp only [Tops, OnLadder, bySource, List.mem_insertionSort, List.mem_filter, List.mem_dedup,
    List.mem_map, decide_eq_true_eq, eq_iff_iff]
  constructor
  · rintro ⟨source, -, b, ⟨hb, hdone, rfl⟩, rfl, htop⟩
    exact ⟨b, hb, rfl, hdone, htop.imp_right fun h b' hb' hdone' hsrc => h.2 b' ⟨hb', hdone', hsrc⟩⟩
  · rintro ⟨b, hb, rfl, hdone, htop⟩
    refine ⟨b.source, ⟨b, ⟨hb, hdone⟩, rfl⟩, b, ⟨hb, hdone, rfl⟩, rfl, htop.imp_right fun h => ?_⟩
    exact ⟨by simp, fun b' hb' => h b' hb'.1 hb'.2.1 hb'.2.2⟩

/-- **What the rules keep**, and the reason that is recorded. -/
theorem lookup_seeds (x : String) :
    (seeds backups policy now).lookup x =
      if Active backups x then some .active
      else if Newest backups x then some .newestOfSource
      else if OnLadder backups policy now x then some .ladder
      else none := by
  have hactive : x ∈ (backups.filter fun b => !b.completed).map BackupMeta.id ↔
      Active backups x := by
    simp [Active, and_comm, and_left_comm]
  unfold seeds
  rw [lookup_ladders, lookup_keepAll, lookup_keepAll, if_congr hactive rfl rfl,
    if_congr mem_newest rfl rfl]
  by_cases h1 : Active backups x <;> by_cases h2 : Newest backups x <;> simp [h1, h2]

lemma mem_seeds {x : String} : x ∈ seeds backups policy now ↔
    Active backups x ∨ Newest backups x ∨ OnLadder backups policy now x := by
  rw [← AList.lookup_isSome, lookup_seeds]
  by_cases h1 : Active backups x <;> by_cases h2 : Newest backups x <;> simp [h1, h2]

end DiskNexus.Retention
