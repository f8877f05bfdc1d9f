import DiskNexus.Forget.Protect

/-!
# Keep policies

`forget.selectByPolicy` names the backups that a policy keeps: the last ones outright, the newest of
each of the most recent hours, days, weeks, months and years, and everything within a calendar
window.
-/

namespace DiskNexus.Forget

/-- `forget.CalDur`. -/
structure CalDur where
  years : ℤ
  months : ℤ
  days : ℤ
  hours : ℤ
  deriving DecidableEq

/-- `CalDur.IsZero`. -/
def CalDur.isZero (d : CalDur) : Bool := d = ⟨0, 0, 0, 0⟩

/-- The fields of an instant in a location that the rules read. -/
structure Civil where
  year : ℤ
  month : ℤ
  yearDay : ℤ
  hour : ℤ
  isoYear : ℤ
  isoWeek : ℤ
  deriving DecidableEq

/-- The calendar of a location. Instants are nanoseconds since the zero time. -/
structure Calendar where
  civil : ℤ → Civil
  addDate : ℤ → ℤ → ℤ → ℤ → ℤ

/-- `forget.Policy`. -/
structure Policy where
  last : ℤ
  hourly : ℤ
  daily : ℤ
  weekly : ℤ
  monthly : ℤ
  yearly : ℤ
  within : CalDur
  hasWithin : Bool
  now : ℤ
  calendar : Calendar

namespace Policy

/-- Whether the window of the policy selects anything. -/
def windowed (p : Policy) : Bool := p.hasWithin && !p.within.isZero

/-- `Policy.Any`. -/
def any (p : Policy) : Bool :=
  p.last > 0 || p.hourly > 0 || p.daily > 0 || p.weekly > 0 || p.monthly > 0 || p.yearly > 0 ||
    p.windowed

/-- `Policy.needsTime`. -/
def needsTime (p : Policy) : Bool :=
  p.hourly > 0 || p.daily > 0 || p.weekly > 0 || p.monthly > 0 || p.yearly > 0 || p.windowed

end Policy

/-- The order of `byRecency`: newer first, then the larger ID. -/
def Recent (a b : Backup) : Prop :=
  b.timestamp < a.timestamp ∨ b.timestamp = a.timestamp ∧ b.backupID ≤ a.backupID

instance : DecidableRel Recent := fun _ _ => inferInstanceAs (Decidable (_ ∨ _))

/-- `byRecency`. -/
def byRecency (bs : List Backup) : List Backup := bs.insertionSort Recent

/-- A rule that keeps the newest backup of each of a number of periods. -/
structure Rule where
  name : String
  n : ℤ
  key : Civil → ℤ

/-- The rules of a policy. -/
def Policy.rules (p : Policy) : List Rule :=
  [⟨"hourly", p.hourly, fun c => c.year * 1000000 + c.yearDay * 100 + c.hour⟩,
    ⟨"daily", p.daily, fun c => c.year * 1000 + c.yearDay⟩,
    ⟨"weekly", p.weekly, fun c => c.isoYear * 100 + c.isoWeek⟩,
    ⟨"monthly", p.monthly, fun c => c.year * 100 + c.month⟩,
    ⟨"yearly", p.yearly, fun c => c.year⟩]

/-- The closure `add`. -/
def addReason (reasons : Protected) (id reason : String) : Protected :=
  reasons.insert id ((reasons.lookup id).getD [] ++ [reason])

/-- The loop of one rule; `kept` counts the periods so far, `lastKey` is the last. -/
def periodic (p : Policy) (rule : Rule) : List Backup → ℤ → Option ℤ → Protected → Protected
  | [], _, _, reasons => reasons
  | b :: desc, kept, lastKey, reasons =>
    if kept ≥ rule.n then reasons
    else
      let k := rule.key (p.calendar.civil b.timestamp)
      if lastKey ≠ some k then
        periodic p rule desc (kept + 1) (some k) (addReason reasons b.backupID rule.name)
      else periodic p rule desc kept lastKey reasons

/-- Keep backups for one reason. -/
def addAll (reason : String) (bs : List Backup) (reasons : Protected) : Protected :=
  bs.foldl (fun reasons b => addReason reasons b.backupID reason) reasons

/-- The start of the window; a `time.Duration` has 64 bits. -/
def Policy.cutoff (p : Policy) : ℤ :=
  p.calendar.addDate p.now (-p.within.years) (-p.within.months) (-p.within.days) +
    Int.bmod (-p.within.hours * 3600 * 10 ^ 9) (2 ^ 64)

/-- `selectByPolicy`. -/
def selectByPolicy (bs : List Backup) (p : Policy) : Except String Protected :=
  let desc := byRecency bs
  match if p.needsTime then desc.find? fun b => b.timestamp = 0 else none with
  | some b =>
    let name := short b.backupID
    .error (s!"backup {name} has no timestamp; cannot apply a time-based keep rule (only " ++
      "--keep-last is defined for timestamp-less backups)")
  | none =>
    let reasons := addAll "last" (desc.take p.last.toNat) ∅
    let reasons := p.rules.foldl (fun reasons rule =>
      if rule.n ≤ 0 then reasons else periodic p rule desc 0 none reasons) reasons
    .ok (if p.windowed then addAll "within" (desc.filter fun b => ¬ b.timestamp < p.cutoff) reasons
      else reasons)

/-! ## What a rule keeps -/

lemma mem_byRecency {bs : List Backup} {b : Backup} : b ∈ byRecency bs ↔ b ∈ bs :=
  List.mem_insertionSort _

lemma pairwise_byRecency (bs : List Backup) : (byRecency bs).Pairwise Recent := by
  have htotal : Std.Total Recent := ⟨fun a b => by
    rcases lt_trichotomy a.timestamp b.timestamp with h | h | h
    · exact .inr (.inl h)
    · rcases le_total a.backupID b.backupID with h' | h'
      · exact .inr (.inr ⟨h, h'⟩)
      · exact .inl (.inr ⟨h.symm, h'⟩)
    · exact .inl (.inl h)⟩
  have htrans : IsTrans Backup Recent := ⟨fun a b c hab hbc => by
    rcases hab with hab | ⟨hab, hab'⟩ <;> rcases hbc with hbc | ⟨hbc, hbc'⟩
    · exact .inl (hbc.trans hab)
    · exact .inl (hbc ▸ hab)
    · exact .inl (hab ▸ hbc)
    · exact .inr ⟨hbc.trans hab, hbc'.trans hab'⟩⟩
  exact List.pairwise_insertionSort Recent bs

/-- A backup is kept for a reason. -/
def KeptFor (reasons : Protected) (id reason : String) : Prop :=
  reason ∈ (reasons.lookup id).getD []

section Kept

variable {p : Policy} {rule : Rule} {reasons : Protected} {id reason : String}

lemma keptFor_addAll {name : String} {bs : List Backup} :
    KeptFor (addAll name bs reasons) id reason ↔
      KeptFor reasons id reason ∨ reason = name ∧ id ∈ bs.map Backup.backupID := by
  induction bs generalizing reasons with
  | nil => simp [addAll]
  | cons b bs ih =>
    have hhead : KeptFor (addReason reasons b.backupID name) id reason ↔
        KeptFor reasons id reason ∨ reason = name ∧ id = b.backupID := by
      unfold KeptFor addReason
      by_cases h : id = b.backupID
      · subst h
        simp
      · simp [AList.lookup_insert_ne h, h]
    rw [addAll, List.foldl_cons, ← addAll, ih, hhead, List.map_cons, List.mem_cons]
    tauto

/-- The period of a backup under a rule. -/
def Rule.period (rule : Rule) (p : Policy) (b : Backup) : ℤ :=
  rule.key (p.calendar.civil b.timestamp)

/-- The backups that the loop of a rule keeps. -/
def picks (p : Policy) (rule : Rule) : List Backup → ℤ → Option ℤ → List Backup
  | [], _, _ => []
  | b :: desc, kept, lastKey =>
    if kept ≥ rule.n then []
    else if lastKey ≠ some (rule.period p b) then
      b :: picks p rule desc (kept + 1) (some (rule.period p b))
    else picks p rule desc kept lastKey

lemma periodic_eq (desc : List Backup) (kept : ℤ) (lastKey : Option ℤ) (reasons : Protected) :
    periodic p rule desc kept lastKey reasons =
      addAll rule.name (picks p rule desc kept lastKey) reasons := by
  induction desc generalizing kept lastKey reasons with
  | nil => rfl
  | cons b desc ih =>
    rw [periodic, picks]
    by_cases hfull : kept ≥ rule.n
    · rw [if_pos hfull, if_pos hfull]
      rfl
    rw [if_neg hfull, if_neg hfull]
    by_cases hnew : lastKey ≠ some (rule.period p b)
    · rw [if_pos hnew, addAll, List.foldl_cons, ← addAll, ← ih]
      exact if_pos hnew
    · rw [if_neg hnew, ← ih]
      exact if_neg hnew

/-- The later periods than that of `b`, but for the last one. -/
def laterPeriods (p : Policy) (rule : Rule) (desc : List Backup) (lastKey : Option ℤ) (b : Backup) :
    Finset ℤ :=
  (desc.map (rule.period p)).toFinset.filter fun k => rule.period p b < k ∧ lastKey ≠ some k

/-- A new period is a later one for all in older periods. -/
lemma laterPeriods_cons {a b : Backup} {desc : List Backup} {lastKey : Option ℤ}
    (hnew : lastKey ≠ some (rule.period p a))
    (hbelow : ∀ c ∈ desc, lastKey ≠ some (rule.period p c))
    (hlt : rule.period p b < rule.period p a) :
    (laterPeriods p rule (a :: desc) lastKey b).card =
      (laterPeriods p rule desc (some (rule.period p a)) b).card + 1 := by
  have hinsert : laterPeriods p rule (a :: desc) lastKey b =
      insert (rule.period p a) (laterPeriods p rule desc (some (rule.period p a)) b) := by
    ext k
    simp only [laterPeriods, List.map_cons, List.toFinset_cons, Finset.mem_filter,
      Finset.mem_insert, List.mem_toFinset, List.mem_map, ne_eq, Option.some.injEq]
    constructor
    · rintro ⟨rfl | ⟨c, hc, rfl⟩, hk, -⟩
      · exact .inl rfl
      · by_cases h : rule.period p a = rule.period p c
        · exact .inl h.symm
        · exact .inr ⟨⟨c, hc, rfl⟩, hk, h⟩
    · rintro (rfl | ⟨⟨c, hc, rfl⟩, hk, -⟩)
      · exact ⟨.inl rfl, hlt, hnew⟩
      · exact ⟨.inr ⟨c, hc, rfl⟩, hk, hbelow c hc⟩
  rw [hinsert, Finset.card_insert_of_notMem (by simp [laterPeriods])]

/-- **The loop of a rule** over backups in strict order picks the most recent ones of their periods,
as long as fewer than the given number of periods are more recent.

**Proof sketch.** Induction on the list, along which the periods do not increase. -/
lemma mem_picks {desc : List Backup} {kept : ℤ} {lastKey : Option ℤ} {b : Backup}
    (hs : desc.Pairwise fun a c => Recent a c ∧ ¬ Recent c a)
    (hmono : ∀ a c : Backup, Recent a c → rule.period p c ≤ rule.period p a)
    (hlast : ∀ l, lastKey = some l → ∀ c ∈ desc, rule.period p c ≤ l) :
    b ∈ picks p rule desc kept lastKey ↔ b ∈ desc ∧ lastKey ≠ some (rule.period p b) ∧
      (∀ c ∈ desc, rule.period p c = rule.period p b → c = b ∨ Recent b c) ∧
        kept + (laterPeriods p rule desc lastKey b).card < rule.n := by
  induction desc generalizing kept lastKey with
  | nil => simp [picks]
  | cons a desc ih =>
    obtain ⟨hhead, htail⟩ := List.pairwise_cons.1 hs
    have hle : ∀ c ∈ desc, rule.period p c ≤ rule.period p a := fun c hc =>
      hmono a c (hhead c hc).1
    rw [picks]
    split
    · refine iff_of_false List.not_mem_nil fun h => ?_
      omega
    rename_i hroom
    split
    · -- a new period begins with the head
      rename_i hnew
      have hbelow : ∀ c ∈ desc, lastKey ≠ some (rule.period p c) := by
        intro c hc heq
        have h1 := hlast _ heq a (.head _)
        exact hnew (heq.trans (congrArg some (le_antisymm (hle c hc) h1)))
      rw [List.mem_cons, ih htail (fun l hl c hc => Option.some.inj hl ▸ hle c hc)]
      constructor
      · rintro (rfl | ⟨hb, hne, hfirst, hcount⟩)
        · have hnone : laterPeriods p rule (b :: desc) lastKey b = ∅ := by
            refine Finset.filter_false_of_mem fun k hk => ?_
            obtain ⟨c, hc, rfl⟩ := List.mem_map.1 (List.mem_toFinset.1 hk)
            rcases List.mem_cons.1 hc with rfl | hc
            · exact fun h => lt_irrefl _ h.1
            · exact fun h => absurd h.1 (not_lt.2 (hle c hc))
          refine ⟨.head _, hnew, fun c hc _ => ?_, ?_⟩
          · rcases List.mem_cons.1 hc with rfl | hc
            · exact .inl rfl
            · exact .inr (hhead c hc).1
          · rw [hnone]
            simpa using hroom
        · have hlt : rule.period p b < rule.period p a :=
            lt_of_le_of_ne (hle b hb) fun h => hne (congrArg some h.symm)
          refine ⟨.tail _ hb, hbelow b hb, fun c hc heq => ?_, ?_⟩
          · rcases List.mem_cons.1 hc with rfl | hc
            · exact absurd heq hlt.ne'
            · exact hfirst c hc heq
          · rw [laterPeriods_cons hnew hbelow hlt]
            omega
      · rintro ⟨hb, hne, hfirst, hcount⟩
        rcases List.mem_cons.1 hb with rfl | hb
        · exact .inl rfl
        have hlt : rule.period p b < rule.period p a := by
          refine lt_of_le_of_ne (hle b hb) fun h => ?_
          rcases hfirst a (.head _) h.symm with rfl | hrec
          · exact (hhead a hb).2 (hhead a hb).1
          · exact (hhead b hb).2 hrec
        refine .inr ⟨hb, fun h => hlt.ne' (Option.some.inj h),
          fun c hc => hfirst c (.tail _ hc), ?_⟩
        rw [laterPeriods_cons hnew hbelow hlt] at hcount
        omega
    · -- the head is of the last period
      rename_i hold
      rw [not_not] at hold
      have hsame : laterPeriods p rule (a :: desc) lastKey b =
        laterPeriods p rule desc lastKey b := by
        simp [laterPeriods, Finset.filter_insert, hold]
      rw [ih htail (fun l hl c hc => hlast l hl c (.tail _ hc)), hsame]
      constructor
      · rintro ⟨hb, hne, hfirst, hcount⟩
        refine ⟨.tail _ hb, hne, fun c hc heq => ?_, hcount⟩
        rcases List.mem_cons.1 hc with rfl | hc
        · exact absurd (hold.trans (congrArg some heq)) hne
        · exact hfirst c hc heq
      · rintro ⟨hb, hne, hfirst, hcount⟩
        rcases List.mem_cons.1 hb with rfl | hb
        · exact absurd hold hne
        · exact ⟨hb, hne, fun c hc => hfirst c (.tail _ hc), hcount⟩

lemma keptFor_rules {desc : List Backup} (rules : List Rule) :
    KeptFor (rules.foldl (fun reasons rule =>
        if rule.n ≤ 0 then reasons else periodic p rule desc 0 none reasons) reasons) id reason ↔
      KeptFor reasons id reason ∨ ∃ rule ∈ rules, reason = rule.name ∧
        id ∈ (picks p rule desc 0 none).map Backup.backupID := by
  induction rules generalizing reasons with
  | nil => simp
  | cons rule rules ih =>
    have hhead : KeptFor (if rule.n ≤ 0 then reasons else periodic p rule desc 0 none reasons) id
        reason ↔ KeptFor reasons id reason ∨
          reason = rule.name ∧ id ∈ (picks p rule desc 0 none).map Backup.backupID := by
      split_ifs with hn
      · have hnil : picks p rule desc 0 none = [] := by
          cases desc with
          | nil => rfl
          | cons b desc => rw [picks, if_pos hn]
        simp [hnil]
      · rw [periodic_eq, keptFor_addAll]
    rw [List.foldl_cons, ih, hhead]
    simp only [List.exists_mem_cons_iff, or_assoc]

/-- The rules of a policy have names of their own. -/
lemma rule_name {rule rule' : Rule} (h : rule ∈ p.rules) (h' : rule' ∈ p.rules) :
    (rule.name = rule'.name → rule = rule') ∧ rule.name ≠ "last" ∧ rule.name ≠ "within" := by
  simp only [Policy.rules, List.mem_cons, List.not_mem_nil, or_false] at h h'
  rcases h with rfl | rfl | rfl | rfl | rfl <;> rcases h' with rfl | rfl | rfl | rfl | rfl <;> simp

/-- The most recent backup of one of the periods that the rule has room for. -/
def KeptByRule (p : Policy) (rule : Rule) (bs : List Backup) (b : Backup) : Prop :=
  (∀ c ∈ bs, rule.period p c = rule.period p b → Recent b c) ∧
    (((bs.map (rule.period p)).toFinset.filter fun k => rule.period p b < k).card : ℤ) < rule.n

/-- **A periodic rule** keeps the most recent backup of each of its number of most recent periods
that have a backup, whatever the other rules and the order of the backups are. -/
theorem keptFor_rule_iff {bs : List Backup} (hids : (bs.map Backup.backupID).Nodup)
    (hrule : rule ∈ p.rules) (hmono : Monotone fun t => rule.key (p.calendar.civil t))
    (h : selectByPolicy bs p = .ok reasons) (id : String) :
    (KeptFor reasons id rule.name ↔ ∃ b ∈ bs, b.backupID = id ∧ KeptByRule p rule bs b) ∧
      ∀ (bs' : List Backup) (p' : Policy) (reasons' : Protected), bs'.Perm bs → rule ∈ p'.rules →
        p'.calendar = p.calendar → selectByPolicy bs' p' = .ok reasons' →
          (KeptFor reasons' id rule.name ↔ KeptFor reasons id rule.name) := by
  have hexact : ∀ (bs : List Backup) (p : Policy) (reasons : Protected),
      (bs.map Backup.backupID).Nodup → rule ∈ p.rules →
        (Monotone fun t => rule.key (p.calendar.civil t)) → selectByPolicy bs p = .ok reasons →
          (KeptFor reasons id rule.name ↔ ∃ b ∈ bs, b.backupID = id ∧ KeptByRule p rule bs b) := by
    intro bs p reasons hids hrule hmono h
    -- only the loop of the rule itself adds its name
    have hpicks : KeptFor reasons id rule.name ↔
        id ∈ (picks p rule (byRecency bs) 0 none).map Backup.backupID := by
      obtain ⟨-, hlast, hwithin⟩ := rule_name hrule hrule
      have hempty : ¬ KeptFor ∅ id rule.name := by simp [KeptFor]
      have hmine : (∃ rule' ∈ p.rules, rule.name = rule'.name ∧
          id ∈ (picks p rule' (byRecency bs) 0 none).map Backup.backupID) ↔
            id ∈ (picks p rule (byRecency bs) 0 none).map Backup.backupID :=
        ⟨fun ⟨rule', hrule', hname, hid⟩ => by rwa [(rule_name hrule hrule').1 hname],
          fun hid => ⟨rule, hrule, rfl, hid⟩⟩
      unfold selectByPolicy at h
      simp only at h
      split at h
      · cases h
      · cases h
        split <;> simp only [keptFor_addAll, keptFor_rules, hempty, hlast, hwithin, hmine,
          false_and, or_false, false_or]
    have hids' : ((byRecency bs).map Backup.backupID).Nodup :=
      ((List.perm_insertionSort Recent bs).map _).nodup_iff.2 hids
    have hstrict : (byRecency bs).Pairwise fun a c => Recent a c ∧ ¬ Recent c a := by
      refine (pairwise_byRecency bs).imp₂ (fun a c hrec hne => ⟨hrec, fun hrec' => ?_⟩)
        (List.pairwise_map.1 hids')
      unfold Recent at hrec hrec'
      have hid : c.backupID = a.backupID := le_antisymm (by grind) (by grind)
      exact hne hid.symm
    have hperiod : ∀ a c : Backup, Recent a c → rule.period p c ≤ rule.period p a := by
      intro a c hrec
      refine hmono ?_
      rcases hrec with h | h
      · exact h.le
      · exact h.1.le
    have hkeys : laterPeriods p rule (byRecency bs) none =
        fun b => (bs.map (rule.period p)).toFinset.filter fun k => rule.period p b < k := by
      funext b
      ext k
      simp [laterPeriods, mem_byRecency]
    rw [hpicks, List.mem_map]
    refine exists_congr fun b => ?_
    rw [mem_picks hstrict hperiod (by rintro l ⟨⟩), hkeys, mem_byRecency]
    simp only [mem_byRecency, KeptByRule, ne_eq, reduceCtorEq, not_false_eq_true, true_and,
      zero_add]
    constructor
    · rintro ⟨⟨hb, hfirst, hcount⟩, rfl⟩
      refine ⟨hb, rfl, fun c hc heq => ?_, hcount⟩
      rcases hfirst c hc heq with rfl | hrec
      · exact .inr ⟨rfl, le_rfl⟩
      · exact hrec
    · rintro ⟨hb, rfl, hfirst, hcount⟩
      exact ⟨⟨hb, fun c hc heq => .inr (hfirst c hc heq), hcount⟩, rfl⟩
  refine ⟨hexact bs p reasons hids hrule hmono h, fun bs' p' reasons' hperm hrule' hcal h' => ?_⟩
  rw [hexact bs p reasons hids hrule hmono h,
    hexact bs' p' reasons' ((hperm.map _).nodup_iff.2 hids) hrule' (by rwa [hcal]) h']
  have hkeys : (bs'.map (rule.period p)).toFinset = (bs.map (rule.period p)).toFinset := by
    ext k
    simp [hperm.mem_iff]
  have hperiod : rule.period p' = rule.period p := by
    funext b
    rw [Rule.period, Rule.period, hcal]
  simp only [KeptByRule, hperiod, hkeys, hperm.mem_iff]

end Kept

/-! ## The calendar of UTC -/

/-- The days before a year. Day 0 is the first of January of year 1. -/
def yearStart (y : ℤ) : ℤ := 365 * (y - 1) + (y - 1) / 4 - (y - 1) / 100 + (y - 1) / 400

/-- The year of a day. The mean length of years gives it up to one. -/
def yearOf (day : ℤ) : ℤ :=
  let y := 400 * day / 146097 + 1
  if day < yearStart y then y - 1 else if yearStart (y + 1) ≤ day then y + 1 else y

/-- The days of a year before its months. -/
def monthStarts (y : ℤ) : List ℤ :=
  let february := yearStart (y + 1) - yearStart y - 337
  [0, 31].append ([0, 31, 61, 92, 122, 153, 184, 214, 245, 275].map (31 + february + ·))

/-- The fields of an instant in UTC. The week of a day is that of its Thursday. -/
def utcCivil (t : ℤ) : Civil :=
  let day := t / (86400 * 10 ^ 9)
  let y := yearOf day
  let thursday := day - day % 7 + 3
  { year := y
    month := (monthStarts y).countP (· ≤ day - yearStart y)
    yearDay := day - yearStart y + 1
    hour := t / (3600 * 10 ^ 9) % 24
    isoYear := yearOf thursday
    isoWeek := (thursday - yearStart (yearOf thursday)) / 7 + 1 }

/-- `time.UTC`. -/
def utc : Calendar where
  civil := utcCivil
  addDate t years months days :=
    let c := utcCivil t
    let dayOfMonth := c.yearDay - (monthStarts c.year).getD (c.month - 1).toNat 0
    let m := 12 * (c.year + years) + (c.month - 1 + months)
    let day :=
      yearStart (m / 12) + (monthStarts (m / 12)).getD (m % 12).toNat 0 + (dayOfMonth - 1) +
      days
    day * (86400 * 10 ^ 9) + t % (86400 * 10 ^ 9)

lemma yearOf_spec (day : ℤ) : yearStart (yearOf day) ≤ day ∧ day < yearStart (yearOf day + 1) := by
  unfold yearOf yearStart
  simp only
  split_ifs <;> omega

lemma yearStart_lt {y z : ℤ} (h : y < z) : yearStart y < yearStart z := by
  unfold yearStart
  omega

lemma yearOf_mono : Monotone yearOf := by
  intro a b hab
  by_contra hlt
  have ha := yearOf_spec a
  have hb := yearOf_spec b
  rcases (Int.add_one_le_of_lt (not_le.1 hlt)).eq_or_lt with h | h
  · rw [h] at hb
    omega
  · have := yearStart_lt h
    omega

-- a month before the last of March 2024 is the 31st of February, that is the second of March
example : utcCivil (utc.addDate ((yearStart 2024 + 90) * (86400 * 10 ^ 9)) 0 (-1) 0) =
    ⟨2024, 3, 62, 0, 2024, 9⟩ := by decide +kernel

/-- Keep the last of the years that have a backup. -/
def keepYear : Policy := ⟨0, 0, 0, 0, 0, 1, ⟨0, 0, 0, 0⟩, false, 0, utc⟩

/-- The rule of the years. -/
def yearRule : Rule := ⟨"yearly", 1, fun c => c.year⟩

/-- Backups at the end of 2024, at the beginning of 2025 and at its end. -/
def twoYears : List Backup :=
  [⟨"a", yearStart 2025 * (86400 * 10 ^ 9) - 1, "full", "", []⟩,
    ⟨"b", yearStart 2025 * (86400 * 10 ^ 9), "full", "", []⟩,
    ⟨"c", yearStart 2026 * (86400 * 10 ^ 9) - 1, "full", "", []⟩]

theorem keptFor_rule_years : ∃ reasons, selectByPolicy twoYears keepYear = .ok reasons ∧
    ∀ id, KeptFor reasons id "yearly" ↔ id = "c" := by
  obtain ⟨reasons, h⟩ : ∃ reasons, selectByPolicy twoYears keepYear = .ok reasons := ⟨_, rfl⟩
  have hmono : Monotone fun t => yearRule.key (keepYear.calendar.civil t) :=
    fun _ _ h => yearOf_mono (Int.ediv_le_ediv (by decide) h)
  have hrule : yearRule ∈ keepYear.rules := by simp [yearRule, keepYear, Policy.rules]
  have hkept : ∀ b ∈ twoYears, KeptByRule keepYear yearRule twoYears b ↔ b.backupID = "c" := by
    unfold KeptByRule
    decide +kernel
  refine ⟨reasons, h, fun id => ?_⟩
  rw [show "yearly" = yearRule.name from rfl, (keptFor_rule_iff (by decide) hrule hmono h id).1]
  constructor
  · rintro ⟨b, hb, rfl, hb'⟩
    exact (hkept b hb).1 hb'
  · rintro rfl
    have hmem : twoYears[2] ∈ twoYears := List.getElem_mem _
    exact ⟨_, hmem, rfl, (hkept _ hmem).2 rfl⟩

end DiskNexus.Forget
