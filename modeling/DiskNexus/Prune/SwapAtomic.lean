import DiskNexus.Prune.Swap

/-!
# The prune swap is atomic

A swap that fails or dies anywhere, followed by any number of recoveries that die anywhere and
one that completes, leaves the old packs with the old index or the new packs with the new one.

## Main results

`recover_wp_old`, `recover_wp_new`, `atomicSwap_wp`, `atomicSwap_recover_settled`
-/

namespace DiskNexus.Prune

open Binary CrashLogic

variable {p : Path} {oldC oldI newC newI : Dir} {i oi : Option Dir} {st : Option Staging}
  {r r' : Repo}

section Rules

variable {α : Type} {Q : α → Repo → Prop} {C : Repo → Prop} {s : Repo}

/-- A call of a recovery that completes has one outcome. -/
lemma recover_wp_op {o : FsOp} {k : o.Ans → FsProg α} :
    recoverMachine.wp Q C (.op o k) s ↔ C s ∧ (∀ s', s.Cut o s' → C s') ∧
      recoverMachine.wp Q C (k (s.act o).1) (s.act o).2 := by
  refine and_congr_right' (and_congr_right' ⟨fun h => h _ _ rfl, fun h a s' hs => ?_⟩)
  obtain ⟨rfl, rfl⟩ := Prod.mk.inj hs
  exact h

/-- A directory test in a recovery. -/
lemma recover_wp_dirExists {k : Bool → FsProg α} :
    recoverMachine.wp Q C (dirExists p >>= k) s ↔
      C s ∧ recoverMachine.wp Q C (k (s.has p)) s :=
  recover_wp_op.trans ⟨fun h => ⟨h.1, h.2.2⟩, fun h => ⟨h.1, fun _ => False.elim, h.2⟩⟩

/-- A rename in a recovery. -/
lemma recover_wp_rename {src dst : Path} {k : Bool → FsProg α} :
    recoverMachine.wp Q C (rename src dst >>= k) s ↔
      C s ∧ recoverMachine.wp Q C (k (s.rename src dst).1) (s.rename src dst).2 :=
  recover_wp_op.trans ⟨fun h => ⟨h.1, h.2.2⟩, fun h => ⟨h.1, fun _ => False.elim, h.2⟩⟩

/-- A removal in a recovery: it may also be cut part way. -/
lemma recover_wp_removeAll {k : Unit → FsProg α} :
    recoverMachine.wp Q C (removeAll p >>= k) s ↔
      C s ∧ (∀ s', s.RemovedPart p s' → C s') ∧ recoverMachine.wp Q C (k ()) (s.put p none) :=
  recover_wp_op

/-- A removal that ends a recovery. -/
lemma recover_wp_removeAll_last {Q : Unit → Repo → Prop} :
    recoverMachine.wp Q C (removeAll p) s ↔
      C s ∧ (∀ s', s.RemovedPart p s' → C s') ∧ C (s.put p none) ∧ Q () (s.put p none) := by
  rw [← bind_pure (removeAll p), recover_wp_removeAll]
  rfl

/-- A rename in the swap either fails and changes nothing, or does its work. -/
lemma swap_wp_rename {src dst : Path} {k : Bool → FsProg α} (hC : C s)
    (hfail : swapMachine.wp Q C (k false) s)
    (hok : swapMachine.wp Q C (k (s.rename src dst).1) (s.rename src dst).2) :
    swapMachine.wp Q C (rename src dst >>= k) s := by
  refine ⟨hC, fun _ hcut => hcut.elim, fun a s' hs => ?_⟩
  rcases hs with hs | ⟨ha, rfl⟩
  · obtain ⟨rfl, rfl⟩ := Prod.mk.inj hs
    exact hok
  · obtain rfl : a = false := ha
    exact hfail

/-- A removal in the swap. -/
lemma swap_wp_removeAll {k : Unit → FsProg α} (hC : C s) (hcut : ∀ s', s.RemovedPart p s' → C s')
    (h : swapMachine.wp Q C (k ()) (s.put p none)) :
    swapMachine.wp Q C (removeAll p >>= k) s := by
  refine ⟨hC, hcut, fun a s' hs => ?_⟩
  rcases hs with hs | hs
  · obtain ⟨rfl, rfl⟩ := Prod.mk.inj hs
    exact h
  · exact hs.elim

/-- A write of the generation file may fail or be cut, and leave a prefix of the data. -/
lemma swap_wp_writeGenerationFile {gen : Bytes} {k : Bool → FsProg α} (hC : C s)
    (hcut : ∀ data, C (s.writeFile p packsGenerationFile data).2)
    (hfail : swapMachine.wp Q C (k false) s)
    (hpart : ∀ data, swapMachine.wp Q C (k false) (s.writeFile p packsGenerationFile data).2)
    (hok : swapMachine.wp Q C (k (s.writeFile p packsGenerationFile gen).1)
      (s.writeFile p packsGenerationFile gen).2) :
    swapMachine.wp Q C (writeGenerationFile p gen >>= k) s := by
  refine ⟨hC, ?_, fun a s' hs => ?_⟩
  · rintro s' ⟨data, -, rfl⟩
    exact hcut data
  · rcases hs with hs | ⟨ha, hs⟩
    · obtain ⟨rfl, rfl⟩ := Prod.mk.inj hs
      exact hok
    · obtain rfl : a = false := ha
      rcases hs with rfl | ⟨data, -, rfl⟩
      · exact hfail
      · exact hpart data

end Rules

/-! ## What a swap and a recovery keep -/

/-- The old pair is there, each half under its own name or its aside name. -/
structure OldKept (oldC oldI : Dir) (r : Repo) : Prop where
  chunks : r.chunks = some oldC ∧ r.oldChunks = none ∨ r.chunks = none ∧ r.oldChunks = some oldC
  index : r.index = some oldI ∧ r.oldIndex = none ∨ r.index = none ∧ r.oldIndex = some oldI

/-- The new pair is in the repository: the index in place, or in staging as long as the old packs
are there. -/
structure NewKept (newC newI : Dir) (r : Repo) : Prop where
  chunks : r.chunks = some newC
  index : r.oldChunks.isSome ∧ r.get .stagingIndex = some newI ∨
    r.index = some newI ∧ (r.oldChunks.isSome → r.get .stagingIndex = none)

lemma oldKept_iff {c oc : Option Dir} :
    OldKept oldC oldI ⟨c, i, st, oc, oi⟩ ↔
      (c = some oldC ∧ oc = none ∨ c = none ∧ oc = some oldC) ∧
      (i = some oldI ∧ oi = none ∨ i = none ∧ oi = some oldI) :=
  ⟨fun h => ⟨h.chunks, h.index⟩, fun h => ⟨h.1, h.2⟩⟩

lemma newKept_iff {c oc : Option Dir} :
    NewKept newC newI ⟨c, i, st, oc, oi⟩ ↔ c = some newC ∧
      (oc.isSome ∧ st.bind (·.index) = some newI ∨
        i = some newI ∧ (oc.isSome → st.bind (·.index) = none)) :=
  ⟨fun h => ⟨h.chunks, h.index⟩, fun h => ⟨h.1, h.2⟩⟩

/-- The pair in place and nothing else. -/
def Settled (c i : Dir) (r : Repo) : Prop := r = ⟨some c, some i, none, none, none⟩

/-- What a cut removal of a directory outside staging leaves of it. -/
lemma removedPart_staging (h : r.RemovedPart .staging r') :
    ∃ st, r' = { r with staging := st } := by
  obtain ⟨st, st', -, -, -, rfl⟩ := h
  exact ⟨_, rfl⟩

/-- The cleanup at the end of a recovery leaves the pair alone. -/
lemma cleanup_wp {C : Repo → Prop} (c i : Dir) (st : Option Staging) (oi : Option Dir)
    (hC : ∀ st' oi', (oi = none → oi' = none) → C ⟨some c, some i, st', none, oi'⟩) :
    recoverMachine.wp (fun _ r => Settled c i r) C (recoverCleanup st.isSome)
      ⟨some c, some i, st, none, oi⟩ := by
  have hnone : ∀ st', C ⟨some c, some i, st', none, none⟩ := fun st' => hC st' none fun _ => rfl
  have hst : ∀ st s', Repo.RemovedPart ⟨some c, some i, st, none, none⟩ .staging s' → C s' := by
    rintro st s' h
    obtain ⟨st', rfl⟩ := removedPart_staging h
    exact hnone st'
  rcases oi with _ | oi
  · rcases st with _ | st
    · simp [recoverCleanup, recover_wp_dirExists, Machine.wp, Settled, hnone]
    · simpa [recoverCleanup, recover_wp_dirExists, recover_wp_removeAll_last, Settled, hnone]
        using hst _
  · have hoi : ∀ st oi', C ⟨some c, some i, st, none, oi'⟩ := fun st oi' => hC st oi' (by simp)
    have hpart : ∀ st s', Repo.RemovedPart ⟨some c, some i, st, none, some oi⟩ .oldIndex s' →
        C s' := by
      rintro st s' ⟨d, d', -, -, rfl⟩
      exact hoi st _
    rcases st with _ | st
    · simpa [recoverCleanup, recover_wp_dirExists, recover_wp_removeAll, Machine.wp, Settled, hoi]
        using hpart _
    · simpa [recoverCleanup, recover_wp_dirExists, recover_wp_removeAll, Settled, hoi,
        recover_wp_removeAll_last] using ⟨hpart _, hst _⟩

/-- **Recovery to the old pair**: it is settled, and kept where the recovery is cut. -/
theorem recover_wp_old (h : OldKept oldC oldI r) :
    recoverMachine.wp (fun _ r => Settled oldC oldI r) (OldKept oldC oldI) recoverIfNeeded r := by
  obtain ⟨hc, hi⟩ := h
  obtain ⟨c, i, st, oc, oi⟩ := r
  have hclean := cleanup_wp oldC oldI st none (C := OldKept oldC oldI)
    (by rintro st' oi' h; obtain rfl := h rfl; exact ⟨by simp, by simp⟩)
  rcases hc with ⟨rfl, rfl⟩ | ⟨rfl, rfl⟩ <;> rcases hi with ⟨rfl, rfl⟩ | ⟨rfl, rfl⟩
  · rcases st with _ | st
    · simp [recoverIfNeeded, recover_wp_dirExists, Machine.wp, Settled, oldKept_iff]
    · simp [recoverIfNeeded, recoverIndexOnly, recover_wp_dirExists, oldKept_iff]
      simpa using hclean
  · simp [recoverIfNeeded, recoverIndexOnly, recover_wp_dirExists, recover_wp_rename, oldKept_iff]
    exact hclean
  all_goals
    simp [recoverIfNeeded, recoverRollBack, recover_wp_dirExists, recover_wp_rename, oldKept_iff]
    exact hclean

/-- Rolling forward with the staged index still in staging. -/
lemma rollForward_wp_staged {oc : Dir} {st : Staging} (b : Bool) (hst : st.index = some newI) :
    recoverMachine.wp
      (fun _ r => r = ⟨some newC, some newI, some { st with index := none }, none, oi⟩)
      (NewKept newC newI) (recoverRollForward true b) ⟨some newC, i, some st, some oc, oi⟩ := by
  have hstaged : ∀ i, NewKept newC newI ⟨some newC, i, some st, some oc, oi⟩ := by
    simp [newKept_iff, hst]
  have hindex : ∀ s', Repo.RemovedPart ⟨some newC, i, some st, some oc, oi⟩ .index s' →
      NewKept newC newI s' := by
    rintro s' ⟨d, d', -, -, rfl⟩
    exact hstaged _
  have hold : ∀ s', Repo.RemovedPart
      ⟨some newC, some newI, some { st with index := none }, some oc, oi⟩ .oldChunks s' →
      NewKept newC newI s' := by
    rintro s' ⟨d, d', -, -, rfl⟩
    simp [newKept_iff]
  simp only [recoverRollForward, if_true, recover_wp_removeAll, recover_wp_rename,
    recover_wp_removeAll_last]
  refine ⟨hstaged i, hindex, hstaged none, ?_⟩
  simpa [hst, newKept_iff] using hold

/-- Rolling forward once the new index is in place. -/
lemma rollForward_wp_installed {oc : Dir} (b : Bool) (hst : st.bind (·.index) = none) :
    recoverMachine.wp (fun _ r => r = ⟨some newC, some newI, st, none, oi⟩)
      (NewKept newC newI) (recoverRollForward false b) ⟨some newC, some newI, st, some oc, oi⟩ := by
  have hold : ∀ s', Repo.RemovedPart ⟨some newC, some newI, st, some oc, oi⟩ .oldChunks s' →
      NewKept newC newI s' := by
    rintro s' ⟨d, d', -, -, rfl⟩
    simp [newKept_iff, hst]
  simp only [recoverRollForward, recover_wp_dirExists, Bool.false_eq_true, if_false]
  simpa [newKept_iff, hst, recover_wp_removeAll_last] using hold

/-- **Recovery to the new pair**: it is settled, and kept where the recovery is cut. -/
theorem recover_wp_new (h : NewKept newC newI r) :
    recoverMachine.wp (fun _ r => Settled newC newI r) (NewKept newC newI) recoverIfNeeded r := by
  have hr := h
  obtain ⟨c, i, st, oc, oi⟩ := r
  obtain ⟨rfl, hi⟩ := newKept_iff.1 h
  have hclean : ∀ st oi, recoverMachine.wp (fun _ r => Settled newC newI r) (NewKept newC newI)
      (recoverCleanup st.isSome) ⟨some newC, some newI, st, none, oi⟩ := fun st oi =>
    cleanup_wp newC newI st oi fun st' oi' _ => by simp [newKept_iff]
  rcases oc with _ | oc
  · -- the old packs are gone: only leftovers to clean
    obtain rfl : i = some newI := by simpa using hi
    rcases st with _ | st <;> rcases oi with _ | oi
    · simp [recoverIfNeeded, recover_wp_dirExists, Machine.wp, Settled, hr]
    · have hc := hclean none (some oi)
      simpa [recoverIfNeeded, recoverIndexOnly, recover_wp_dirExists, hr] using hc
    all_goals
      simpa [recoverIfNeeded, recoverIndexOnly, recover_wp_dirExists, hr] using hclean (some _) _
  · rcases hi with ⟨-, hst⟩ | ⟨rfl, hst⟩
    · -- the new index is still in staging
      obtain ⟨st, rfl, hst⟩ := Option.bind_eq_some_iff.1 hst
      simp only [recoverIfNeeded, recover_wp_dirExists, Repo.has, Repo.get, Option.isSome_some,
        Option.isSome_map, hst, hr, true_and, Bool.not_true, Bool.and_false,
        Bool.false_and, Bool.and_self, Bool.false_eq_true, if_false, if_true]
      refine Machine.wp_bind (Machine.wp_mono ?_ (fun _ h => h) (rollForward_wp_staged _ hst))
      rintro - s rfl
      exact hclean (some _) oi
    · -- the new index is in place
      have hst := hst rfl
      simp only [recoverIfNeeded, recover_wp_dirExists, Repo.has, Repo.get, Option.isSome_some,
        Option.isSome_map, hst, hr, true_and, Bool.not_true, Bool.and_false, Option.isSome_none,
        Bool.false_and, Bool.and_self, Bool.false_eq_true, if_false, if_true]
      refine Machine.wp_bind (Machine.wp_mono ?_ (fun _ h => h) (rollForward_wp_installed _ hst))
      rintro - s rfl
      exact hclean _ oi

/-! ## The swap -/

/-- What the swap keeps at every point: one of the two pairs. -/
def Kept (oldC oldI newC newI : Dir) (r : Repo) : Prop :=
  OldKept oldC oldI r ∨ NewKept newC newI r

section Swap

variable {oldC oldI newC newI : Dir}

/-- The swap up to the renames keeps the old pair. -/
lemma kept_staging (st : Option Staging) :
    Kept oldC oldI newC newI ⟨some oldC, some oldI, st, none, none⟩ :=
  .inl (by simp [oldKept_iff])

/-- The rollback of the packs, with the old index under either name. -/
lemma rollbackChunks_wp {msg : String}
    (hi : i = some oldI ∧ oi = none ∨ i = none ∧ oi = some oldI) :
    swapMachine.wp (fun _ => Kept oldC oldI newC newI) (Kept oldC oldI newC newI)
      (rollbackChunks msg)
      ⟨some newC, i, some ⟨none, some newI⟩, some oldC, oi⟩ := by
  have hstart : Kept oldC oldI newC newI ⟨some newC, i, some ⟨none, some newI⟩, some oldC, oi⟩ :=
    .inr (by simp [newKept_iff])
  have haside : Kept oldC oldI newC newI
      ⟨none, i, some ⟨some newC, some newI⟩, some oldC, oi⟩ := .inl (by simpa [oldKept_iff])
  have hback : Kept oldC oldI newC newI
      ⟨some oldC, i, some ⟨some newC, some newI⟩, none, oi⟩ := .inl (by simpa [oldKept_iff])
  refine swap_wp_rename hstart ?_ ?_
  · -- the new packs stay in place, so the old ones cannot come back
    exact swap_wp_rename hstart ⟨hstart, hstart⟩ ⟨hstart, hstart⟩
  · exact swap_wp_rename haside ⟨haside, haside⟩ ⟨hback, hback⟩

/-- The swap's final removals. -/
lemma swapCleanup_wp {st : Staging} (hst : st.index = none) :
    swapMachine.wp (fun _ => Kept oldC oldI newC newI) (Kept oldC oldI newC newI)
      swapCleanup
      ⟨some newC, some newI, some st, some oldC, some oldI⟩ := by
  have hkept : ∀ oc oi, Kept oldC oldI newC newI ⟨some newC, some newI, some st, oc, oi⟩ :=
    fun oc oi => .inr (by simp [newKept_iff, hst])
  have hgone : ∀ st, Kept oldC oldI newC newI ⟨some newC, some newI, st, none, none⟩ :=
    fun st => .inr (by simp [newKept_iff])
  refine swap_wp_removeAll (hkept _ _) ?_ (swap_wp_removeAll (hkept _ _) ?_
    (swap_wp_removeAll (hkept _ _) ?_ ⟨hgone none, hgone none⟩))
  iterate 2
    rintro s' ⟨d, d', -, -, rfl⟩
    exact hkept _ _
  rintro s' h
  obtain ⟨st', rfl⟩ := removedPart_staging h
  exact hgone st'

/-- The swap's renames, from staged packs that already carry their generation. -/
lemma swapRenames_wp :
    swapMachine.wp (fun _ => Kept oldC oldI newC newI) (Kept oldC oldI newC newI)
      swapRenames
      ⟨some oldC, some oldI, some ⟨some newC, some newI⟩, none, none⟩ := by
  have h0 : ∀ st, Kept oldC oldI newC newI ⟨some oldC, some oldI, st, none, none⟩ := kept_staging
  have h1 : Kept oldC oldI newC newI
      ⟨none, some oldI, some ⟨some newC, some newI⟩, some oldC, none⟩ :=
    .inl (by simp [oldKept_iff])
  have h2 : ∀ i oi, Kept oldC oldI newC newI
      ⟨some newC, i, some ⟨none, some newI⟩, some oldC, oi⟩ :=
    fun i oi => .inr (by simp [newKept_iff])
  refine swap_wp_rename (h0 _) ⟨h0 _, h0 _⟩ (swap_wp_rename h1 ?_ (swap_wp_rename (h2 _ _) ?_
    (swap_wp_rename (h2 _ _) ?_ (swapCleanup_wp rfl))))
  · exact swap_wp_rename h1 ⟨h1, h1⟩ ⟨h0 _, h0 _⟩
  · exact rollbackChunks_wp (.inl ⟨rfl, rfl⟩)
  · exact swap_wp_rename (h2 _ _) (rollbackChunks_wp (.inr ⟨rfl, rfl⟩))
      (rollbackChunks_wp (.inl ⟨rfl, rfl⟩))

end Swap

/-- The repository a prune swaps: both pairs, nothing left over. -/
def Repo.staged (oldC oldI newC newI : Dir) : Repo :=
  ⟨some oldC, some oldI, some ⟨some newC, some newI⟩, none, none⟩

/-- The staged packs under their new generation. -/
def withGeneration (newC : Dir) (gen : Bytes) : Dir :=
  newC.insert packsGenerationFile gen

/-- **The swap** leaves one of the two pairs, whatever fails and wherever the process dies. -/
theorem atomicSwap_wp (oldC oldI newC newI : Dir) (gen1 gen2 : Bytes) :
    swapMachine.wp (fun _ => Kept oldC oldI (withGeneration newC gen2) newI)
      (Kept oldC oldI (withGeneration newC gen2) newI) (atomicSwap gen1 gen2)
      (.staged oldC oldI newC newI) := by
  have h0 : ∀ st, Kept oldC oldI (withGeneration newC gen2) newI
      ⟨some oldC, some oldI, st, none, none⟩ := kept_staging
  refine swap_wp_writeGenerationFile (h0 _) (fun _ => h0 _) ⟨h0 _, h0 _⟩ (fun _ => ⟨h0 _, h0 _⟩)
    (swap_wp_writeGenerationFile (h0 _) (fun _ => h0 _) ⟨h0 _, h0 _⟩ (fun _ => ⟨h0 _, h0 _⟩) ?_)
  have hgen : (newC.insert packsGenerationFile gen1).insert packsGenerationFile gen2 =
      withGeneration newC gen2 := AList.insert_insert newC
  have hrenames := @swapRenames_wp oldC oldI (withGeneration newC gen2) newI
  exact hrenames

/-! ## Atomicity -/

/-- The states that a swap leaves: it returned, or the process died in it. -/
def Interrupted (oldC oldI newC newI : Dir) (gen₁ gen₂ : Bytes) (r : Repo) : Prop :=
  (∃ err, swapMachine.Returns (atomicSwap gen₁ gen₂) (.staged oldC oldI newC newI) err r) ∨
    swapMachine.Dies (atomicSwap gen₁ gen₂) (.staged oldC oldI newC newI) r

lemma Interrupted.kept {gen1 gen2 : Bytes} (h : Interrupted oldC oldI newC newI gen1 gen2 r) :
    Kept oldC oldI (withGeneration newC gen2) newI r := by
  have hwp := atomicSwap_wp oldC oldI newC newI gen1 gen2
  rcases h with ⟨err, hret⟩ | hdie
  · exact (Machine.returns_of_wp hwp hret :)
  · exact Machine.dies_of_wp hwp hdie

/-- A recovery that is cut keeps whichever pair it found. -/
lemma kept_of_recover_dies (h : Kept oldC oldI newC newI r)
    (hd : recoverMachine.Dies recoverIfNeeded r r') :
    Kept oldC oldI newC newI r' := by
  rcases h with h | h
  · exact .inl (Machine.dies_of_wp (recover_wp_old h) hd)
  · exact .inr (Machine.dies_of_wp (recover_wp_new h) hd)

/-- Any number of cut recoveries keep one of the pairs. -/
lemma kept_of_recover_dies_many (h : Kept oldC oldI newC newI r)
    (hd : Relation.ReflTransGen (recoverMachine.Dies recoverIfNeeded) r r') :
    Kept oldC oldI newC newI r' := by
  induction hd with
  | refl => exact h
  | tail _ hd ih => exact kept_of_recover_dies ih hd

/-- **The prune swap is atomic.** Let the swap return, with any of its renames and writes failing,
or die at any point; let any number of recoveries die at any point; then a recovery that completes
leaves the old pair or the new pair in place and nothing else. -/
theorem atomicSwap_recover_settled (oldC oldI newC newI : Dir) (gen₁ gen₂ : Bytes) {r r' s : Repo}
    (hswap : (∃ err, swapMachine.Returns (atomicSwap gen₁ gen₂) (.staged oldC oldI newC newI) err r)
      ∨ swapMachine.Dies (atomicSwap gen₁ gen₂) (.staged oldC oldI newC newI) r)
    (hcrashes : Relation.ReflTransGen (recoverMachine.Dies recoverIfNeeded) r r')
    (hrec : recoverMachine.Returns recoverIfNeeded r' () s) :
    Settled oldC oldI s ∨ Settled (withGeneration newC gen₂) newI s := by
  have hr : Interrupted oldC oldI newC newI gen₁ gen₂ r := hswap
  rcases kept_of_recover_dies_many hr.kept hcrashes with h | h
  · exact .inl (Machine.returns_of_wp (recover_wp_old h) hrec :)
  · exact .inr (Machine.returns_of_wp (recover_wp_new h) hrec :)

/-- The swap dies, a first recovery dies at once and a second one completes. -/
theorem atomicSwap_recover_settled_run :
    ∃ r s, swapMachine.Dies (atomicSwap [1] [2]) (.staged (.singleton (.pack 0) [3])
        (.singleton .hashIndex [4]) (.singleton (.pack 0) [5])
        (.singleton .hashIndex [6])) r ∧
      recoverMachine.Returns recoverIfNeeded r () s ∧
      (Settled (.singleton (.pack 0) [3]) (.singleton .hashIndex [4]) s ∨
        Settled (withGeneration (.singleton (.pack 0) [5]) [2])
          (.singleton .hashIndex [6]) s) := by
  obtain ⟨r, hr⟩ : ∃ r, swapMachine.Dies (atomicSwap [1] [2])
      (.staged (.singleton (.pack 0) [3]) (.singleton .hashIndex [4])
        (.singleton (.pack 0) [5]) (.singleton .hashIndex [6])) r :=
    ⟨_, .step (.inl rfl) (.step (.inl rfl) (.step (.inl rfl) (.here _ _)))⟩
  obtain ⟨⟨⟩, s, hs⟩ := Machine.exists_returns (M := recoverMachine)
    (fun s o => ⟨_, _, rfl⟩) recoverIfNeeded r
  exact ⟨r, s, hr, hs, atomicSwap_recover_settled _ _ _ _ [1] [2] (.inr hr)
    (.single (.here _ _)) hs⟩

end DiskNexus.Prune
