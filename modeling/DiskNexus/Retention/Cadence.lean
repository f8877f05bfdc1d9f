import DiskNexus.Retention.Directives

/-!
# How far the ladder thins

A backup that `Select` forgets shares its bucket with a newer one that is kept. The index of a
bucket is a quotient that is rounded towards zero, of an age that saturates: the bucket of index
zero reaches to both sides of the evaluation time, and the last buckets hold everything beyond the
range of a `time.Duration`.
-/

namespace DiskNexus.Retention

variable {backups : List BackupMeta} {policy : Policy} {now : ℤ}

/-- Every forgotten backup has a newer kept one within one cadence. -/
def Thinned (backups : List BackupMeta) (policy : Policy) (now : ℤ) (r : Result) : Prop :=
  ∀ b ∈ backups, b.id ∈ r.forget → ∃ k ∈ backups, r.kept k.id = true ∧ k.completed = true ∧
    k.source = b.source ∧ newer k b = true ∧
      k.completedAt - b.completedAt < policy.cadenceFor (sub now b.completedAt)

/-- The cadence and the index of the bucket for a completion time. -/
def bucket (policy : Policy) (now t : ℤ) : ℤ × ℤ :=
  (policy.cadenceFor (sub now t), (sub now t).tdiv (policy.cadenceFor (sub now t)))

lemma bucketKey_eq (hpos : ∀ age, 0 < policy.cadenceFor age) (b : BackupMeta) :
    bucketKey policy now b = some (bucket policy now b.completedAt) :=
  if_neg (not_le.2 (hpos _))

/-- The newest backup of a bucket is on the ladder. -/
lemma exists_onLadder {b : BackupMeta} (hb : b ∈ backups) (hdone : b.completed = true) :
    ∃ k ∈ backups, k.completed = true ∧ k.source = b.source ∧
      bucketKey policy now k = bucketKey policy now b ∧ b.rank ≤ k.rank ∧
        OnLadder backups policy now k.id := by
  let mates := backups.toFinset.filter fun k => k.completed = true ∧ k.source = b.source ∧
    bucketKey policy now k = bucketKey policy now b
  have hmem : ∀ k, k ∈ mates ↔ k ∈ backups ∧ k.completed = true ∧ k.source = b.source ∧
      bucketKey policy now k = bucketKey policy now b := by
    simp [mates]
  have hself : b ∈ mates := (hmem b).2 ⟨hb, hdone, rfl, rfl⟩
  obtain ⟨k, hk, hmax⟩ := mates.exists_max_image BackupMeta.rank ⟨b, hself⟩
  obtain ⟨hk, hkdone, hksrc, hkey⟩ := (hmem k).1 hk
  refine ⟨k, hk, hkdone, hksrc, hkey, hmax b hself, k, hk, rfl, hkdone, .inr ?_⟩
  intro b' hb' hdone' hsrc' hkey'
  exact not_newer_iff.2
    (hmax b' ((hmem b').2 ⟨hb', hdone', hsrc'.trans hksrc, hkey'.trans hkey⟩))

/-- No two instants of a bucket lie a cadence or more apart. -/
def Close (policy : Policy) (now : ℤ) (times : Set ℤ) : Prop :=
  ∀ s ∈ times, ∀ t ∈ times, s < t → bucket policy now s = bucket policy now t →
    t - s < policy.cadenceFor (sub now s)

lemma thinned_of_close {times : String → Set ℤ} (hclose : ∀ src, Close policy now (times src))
    (hpos : ∀ age, 0 < policy.cadenceFor age)
    (htimes : ∀ b ∈ backups, b.completed = true → b.completedAt ∈ times b.source) {r : Result}
    (h : Selects backups policy now r) : Thinned backups policy now r := by
  intro b hb hforget
  have hkept := (selects_kept h).1
  have hlost : ¬ Rooted backups policy now b.id := fun hroot => by
    have := (hkept b.id).2 ⟨b.id, hroot, .refl⟩
    rw [((mem_forget h).1 hforget).1] at this
    cases this
  have hdone : b.completed = true := by
    cases hb' : b.completed with
    | true => rfl
    | false => exact absurd (.inl ⟨b, hb, rfl, hb'⟩) hlost
  obtain ⟨k, hk, hkdone, hksrc, hkey, hrank, hladder⟩ :=
    @exists_onLadder backups policy now b hb hdone
  have hnewer : newer k b = true := by
    refine newer_iff.2 (lt_of_le_of_ne hrank fun heq => hlost ?_)
    rw [id_eq_of_rank_eq heq]
    exact .inr (.inr hladder)
  refine ⟨k, hk, (hkept _).2 ⟨k.id, .inr (.inr hladder), .refl⟩, hkdone, hksrc, hnewer, ?_⟩
  have hlater : b.completedAt ≤ k.completedAt := by
    rcases Prod.Lex.toLex_le_toLex.1 hrank with hlt | heq
    · exact hlt.le
    · exact heq.1.le
  rcases hlater.eq_or_lt with heq | hlt
  · rw [← heq, sub_self]
    exact hpos _
  · rw [bucketKey_eq hpos, bucketKey_eq hpos] at hkey
    exact hclose b.source _ (htimes b hb hdone) _ (hksrc ▸ htimes k hk hkdone) hlt
      (Option.some.inj hkey).symm

/-- A backup without a parent and a snapshot. -/
def plain (src id : String) (t : ℤ) : BackupMeta := ⟨id, src, "completed", t, t, "", ""⟩

/-- Of two backups of one source and bucket the older one is forgotten. -/
lemma exists_forgets (hpos : ∀ age, 0 < policy.cadenceFor age) (src : String) {s t : ℤ}
    (hlt : s < t)
    (hbucket : bucket policy now s = bucket policy now t) :
    ∃ r, Selects [plain src "a" s, plain src "b" t] policy now r ∧ r.kept "a" = false ∧
      "a" ∈ r.forget := by
  have hbyID : ∀ id, (byID [plain src "a" s, plain src "b" t] id).parentID = "" ∧
      (byID [plain src "a" s, plain src "b" t] id).snapshotID = "" := by
    intro id
    by_cases hzero : byID [plain src "a" s, plain src "b" t] id = .zero
    · rw [hzero]
      exact ⟨rfl, rfl⟩
    · have hmem := (byID_mem hzero).1
      simp only [List.mem_cons, List.not_mem_nil, or_false] at hmem
      rcases hmem with h | h <;> rw [h] <;> exact ⟨rfl, rfl⟩
  have hlink : ∀ x y, ¬ Link [plain src "a" s, plain src "b" t] x y := by
    rintro x y (hp | hs)
    · exact hp (hbyID x).1
    · exact (mem_siblings.1 hs).1 (hbyID x).2
  have hacyclic : Acyclic [plain src "a" s, plain src "b" t] := by
    intro x hcycle
    obtain ⟨y, hy, -⟩ := Relation.TransGen.head'_iff.1 hcycle
    exact hlink x y (hy.1 ▸ .parent (hy.1.symm ▸ hy.2))
  obtain ⟨-, r, hr⟩ := exists_selects hacyclic policy now
  have hnewer : newer (plain src "b" t) (plain src "a" s) = true := by
    simp [newer, plain, hlt.ne', hlt]
  have hlost : r.kept "a" = false := by
    rw [← Bool.not_eq_true, (selects_kept hr).1]
    rintro ⟨root, hroot, hreach⟩
    obtain rfl : root = "a" := by
      cases hreach with
      | refl => rfl
      | tail _ h => exact absurd h (hlink _ _)
    -- the newer backup is of the same source, and of the same bucket
    have ha : ∀ b ∈ [plain src "a" s, plain src "b" t], b.id = "a" → b = plain src "a" s := by
      simp [plain]
    rcases hroot with ⟨b, hb, hid, hactive⟩ | ⟨b, hb, hid, -, hmax⟩ | ⟨b, hb, hid, -, htop⟩ <;>
      obtain rfl := ha b hb hid
    · cases hactive
    · have := hmax (plain src "b" t) (by simp) rfl rfl
      rw [hnewer] at this
      cases this
    · rw [bucketKey_eq hpos] at htop
      have := htop.resolve_left (by simp) (plain src "b" t) (by simp) rfl rfl
        ((bucketKey_eq hpos _).trans (congrArg some hbucket.symm))
      rw [hnewer] at this
      cases this
  exact ⟨r, hr, hlost, (mem_forget hr).2 ⟨hlost, plain src "a" s, by simp, rfl⟩⟩

/-- If they lie a cadence apart, that is too far: only the newer one is kept. -/
lemma exists_not_thinned (hpos : ∀ age, 0 < policy.cadenceFor age) (src : String) {s t : ℤ}
    (hlt : s < t) (hbucket : bucket policy now s = bucket policy now t)
    (hgap : policy.cadenceFor (sub now s) ≤ t - s) :
    ∃ r, Selects [plain src "a" s, plain src "b" t] policy now r ∧
      ¬ Thinned [plain src "a" s, plain src "b" t] policy now r := by
  obtain ⟨r, hr, hlost, hforget⟩ := exists_forgets hpos src hlt hbucket
  refine ⟨r, hr, fun hthin => ?_⟩
  obtain ⟨k, hk, hkept, -, -, -, hclose⟩ := hthin (plain src "a" s) (by simp) hforget
  simp only [List.mem_cons, List.not_mem_nil, or_false] at hk
  rcases hk with rfl | rfl
  · rw [show (plain src "a" s).id = "a" from rfl, hlost] at hkept
    cases hkept
  · exact absurd hclose (not_lt.2 hgap)

/-- **How far the ladder thins.** For backups that are completed at the given times of their sources
every forgotten one has a newer kept one of its source within one cadence, exactly if no two of the
times of a source share a bucket and lie a cadence apart. All times between the evaluation time and
the largest duration before it are of this kind.

**Proof sketch.** The newest backup of a bucket is on the ladder. Two backups of a bucket that are
too far apart are a failing input by themselves. Ages that are not negative and do not saturate have
the same quotient only if they differ by less than the cadence. -/
theorem thinned_iff (hpos : ∀ age, 0 < policy.cadenceFor age) (now : ℤ) (times : String → Set ℤ) :
    ((∀ backups : List BackupMeta, (backups.map BackupMeta.id).Nodup →
      (∀ b ∈ backups, b.completed = true → b.completedAt ∈ times b.source) →
        ∀ r, Selects backups policy now r → Thinned backups policy now r) ↔
      ∀ src, Close policy now (times src)) ∧
    Close policy now {t | t ≤ now ∧ now - t < 2 ^ 63} := by
  refine ⟨⟨fun h src s hs t ht hlt hbucket => ?_, fun hclose backups _ htimes r hr =>
    thinned_of_close hclose hpos htimes hr⟩, fun s hs t ht hlt hbucket => ?_⟩
  · by_contra hgap
    obtain ⟨r, hr, hnot⟩ := exists_not_thinned hpos src hlt hbucket (not_lt.1 hgap)
    refine hnot (h _ (by simp [plain]) (fun b hb _ => ?_) r hr)
    simp only [List.mem_cons, List.not_mem_nil, or_false] at hb
    rcases hb with rfl | rfl
    · exact hs
    · exact ht
  · have hage : ∀ u : ℤ, u ≤ now ∧ now - u < 2 ^ 63 → sub now u = now - u := by
      intro u hu
      unfold sub
      omega
    obtain ⟨hcad, hidx⟩ := Prod.mk.inj hbucket
    rw [← hcad, hage s hs, hage t ht, Int.tdiv_eq_ediv_of_nonneg (by have := hs.1; omega),
      Int.tdiv_eq_ediv_of_nonneg (by have := ht.1; omega)] at hidx
    rw [hage s hs]
    have hc := hpos (now - s)
    generalize policy.cadenceFor (now - s) = c at hidx hc ⊢
    have h1 := Int.emod_lt_of_pos (now - s) hc
    have h2 := Int.emod_nonneg (now - t) hc.ne'
    have h3 := Int.mul_ediv_add_emod (now - s) c
    have h4 := Int.mul_ediv_add_emod (now - t) c
    rw [hidx] at h3
    omega

/-- A cadence of ten in every tier. -/
def everyTen : Policy := ⟨10, 10, 10, 10⟩

lemma everyTen_pos (age : ℤ) : 0 < everyTen.cadenceFor age := by
  unfold Policy.cadenceFor everyTen
  split_ifs <;> decide

/-- Of two backups before the evaluation time the older one is forgotten. -/
theorem thinned_iff_everyTen :
    ∃ r, Selects [plain "C:" "a" (-9), plain "C:" "b" (-2)] everyTen 0 r ∧
    "a" ∈ r.forget ∧ Thinned [plain "C:" "a" (-9), plain "C:" "b" (-2)] everyTen 0 r := by
  obtain ⟨r, hr, -, hforget⟩ := @exists_forgets everyTen 0 everyTen_pos "C:" (-9) (-2) (by decide)
    (by decide)
  have hiff := thinned_iff everyTen_pos 0 fun _ => {t | t ≤ 0 ∧ 0 - t < 2 ^ 63}
  refine ⟨r, hr, hforget, hiff.1.2 (fun _ => hiff.2) _ (by decide) (fun b hb _ => ?_) r hr⟩
  simp only [List.mem_cons, List.not_mem_nil, or_false] at hb
  rcases hb with rfl | rfl <;> decide

/-- Nine before and nine after the evaluation time: the older one is forgotten. -/
theorem thins_across_now :
    ∃ r, Selects [plain "C:" "a" (-9), plain "C:" "b" 9] everyTen 0 r ∧
      ¬ Thinned [plain "C:" "a" (-9), plain "C:" "b" 9] everyTen 0 r :=
  exists_not_thinned everyTen_pos "C:" (by decide) (by decide) (by decide)

end DiskNexus.Retention
