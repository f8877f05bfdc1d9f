import DiskNexus.Prune.SwapAtomic

/-!
# A recovery whose renames fail

`prune.recoverIfNeeded` ignores the results of its renames and goes on to remove directories. Is the
index that matches the packs in `chunks/` still somewhere in the repository when it returns?

## Main results

`recover_keeps_matching_iff`, `recover_loses_index`
-/

namespace DiskNexus.Prune

open Binary CrashLogic

/-- The names under which an index directory may stand. -/
def indexNames : List Path := [.index, .stagingIndex, .oldIndex]

/-- The index that matches the packs in `chunks/` exists under some name. -/
def MatchingIndexExists (Matches : Dir → Dir → Prop) (r : Repo) : Prop :=
  ∀ c, r.chunks = some c → ∃ p ∈ indexNames, ∃ i, r.get p = some i ∧ Matches c i

/-- A state from which a recovery keeps the matching index: where it rolls forward from staging, the
index that was moved aside matches the packs too. -/
def Recoverable (Matches : Dir → Dir → Prop) (r : Repo) : Prop :=
  ∀ c, r.chunks = some c → r.has .oldChunks → r.has .stagingIndex →
    ∃ i, r.oldIndex = some i ∧ Matches c i

section Rules

variable {α : Type} {Q : α → Repo → Prop} {s : Repo}

/-- Every return of a program whose renames may fail satisfies `Q`. -/
def returnsIn (Q : α → Repo → Prop) (p : FsProg α) (s : Repo) : Prop :=
  swapMachine.wp Q (fun _ => True) p s

lemma returnsIn_ret {a : α} : returnsIn Q (.ret a) s ↔ Q a s :=
  ⟨fun h => h.2, fun h => ⟨trivial, h⟩⟩

/-- The runs that `returnsIn` speaks of. -/
lemma returns_iff {Q : Repo → Prop} {p : FsProg Unit} :
    (∀ s', swapMachine.Returns p s () s' → Q s') ↔ returnsIn (fun _ => Q) p s := by
  constructor
  · intro h
    induction p generalizing s with
    | ret a => exact ⟨trivial, h s (.ret () s)⟩
    | op o k ih =>
      exact ⟨trivial, fun _ _ => trivial, fun a s1 hs => ih a fun s' hret => h s' (.step hs hret)⟩
  · intro h s' hret
    exact Machine.returns_of_wp h hret

lemma returnsIn_dirExists {p : Path} {k : Bool → FsProg α} :
    returnsIn Q (dirExists p >>= k) s ↔ returnsIn Q (k (s.has p)) s := by
  constructor
  · exact fun h => h.2.2 _ _ (.inl rfl)
  · refine fun h => ⟨trivial, fun _ _ => trivial, fun a s' hs => ?_⟩
    rcases hs with hs | hs
    · obtain ⟨rfl, rfl⟩ := Prod.mk.inj hs
      exact h
    · exact hs.elim

/-- A rename does its work or fails and changes nothing. -/
lemma returnsIn_rename {src dst : Path} {k : Bool → FsProg α} :
    returnsIn Q (rename src dst >>= k) s ↔
      returnsIn Q (k false) s ∧ returnsIn Q (k (s.rename src dst).1) (s.rename src dst).2 :=
  ⟨fun h => ⟨h.2.2 _ _ (.inr ⟨rfl, rfl⟩), h.2.2 _ _ (.inl rfl)⟩,
    fun h => swap_wp_rename trivial h.1 h.2⟩

lemma returnsIn_removeAll {p : Path} {k : Unit → FsProg α} :
    returnsIn Q (removeAll p >>= k) s ↔ returnsIn Q (k ()) (s.put p none) :=
  ⟨fun h => h.2.2 _ _ (.inl rfl),
    fun h => swap_wp_removeAll trivial (fun _ _ => trivial) h⟩

lemma returnsIn_removeAll_last {p : Path} {Q : Unit → Repo → Prop} :
    returnsIn Q (removeAll p) s ↔ Q () (s.put p none) := by
  rw [← bind_pure (removeAll p), returnsIn_removeAll]
  exact returnsIn_ret

end Rules

/-- The cleanup removes staging, and the old index where there is one in place. -/
lemma cleanup_returnsIn {Q : Repo → Prop} {r : Repo} {b : Bool} :
    returnsIn (fun _ => Q) (recoverCleanup b) r ↔
      Q { r with
        staging := if b then none else r.staging
        oldIndex := if r.index.isSome then none else r.oldIndex } := by
  obtain ⟨c, i, st, oc, oi⟩ := r
  cases b <;> cases i <;> cases oi <;>
    simp [recoverCleanup, returnsIn_dirExists, returnsIn_removeAll, returnsIn_removeAll_last,
      returnsIn_ret]

section Recover

variable {Matches : Dir → Dir → Prop} {oldC oldI newC newI : Dir}

/-- From a state that keeps the old pair, a recovery keeps the old index. -/
lemma OldKept.recover_keeps {r : Repo} (h : OldKept oldC oldI r) (hmatch : Matches oldC oldI) :
    returnsIn (fun _ => MatchingIndexExists Matches) recoverIfNeeded r := by
  obtain ⟨c, i, st, oc, oi⟩ := r
  obtain ⟨hc, hi⟩ := oldKept_iff.1 h
  rcases hc with ⟨rfl, rfl⟩ | ⟨rfl, rfl⟩ <;> rcases hi with ⟨rfl, rfl⟩ | ⟨rfl, rfl⟩ <;>
    rcases st with _ | st <;>
    simp [recoverIfNeeded, recoverIndexOnly, recoverRollBack, returnsIn_dirExists, returnsIn_rename,
      returnsIn_ret, cleanup_returnsIn, MatchingIndexExists, indexNames, hmatch]

/-- The recovery where the new index is in place. -/
lemma recover_installed (hmatch : Matches newC newI) {st : Option Staging} {oc oi : Option Dir}
    (hst : oc.isSome → st.bind (·.index) = none) :
    returnsIn (fun _ => MatchingIndexExists Matches) recoverIfNeeded
      ⟨some newC, some newI, st, oc, oi⟩ := by
  rcases oc with _ | oc
  · rcases st with _ | st <;> rcases oi with _ | oi <;>
      simp [recoverIfNeeded, recoverIndexOnly, returnsIn_dirExists, returnsIn_ret,
        cleanup_returnsIn, MatchingIndexExists, indexNames, hmatch]
  · simp [recoverIfNeeded, recoverRollForward, returnsIn_dirExists, returnsIn_removeAll,
      cleanup_returnsIn, MatchingIndexExists, indexNames, hst, hmatch]

/-- Where the new index is in staging and its rename fails, only the index aside is left. -/
lemma recover_staged (hmatch : Matches newC newI) {st : Staging} (hst : st.index = some newI)
    {oc : Dir} {i oi : Option Dir} :
    returnsIn (fun _ => MatchingIndexExists Matches) recoverIfNeeded
      ⟨some newC, i, some st, some oc, oi⟩ ↔ ∃ e, oi = some e ∧ Matches newC e := by
  simp [recoverIfNeeded, recoverRollForward, returnsIn_dirExists, returnsIn_removeAll,
    returnsIn_rename, cleanup_returnsIn, MatchingIndexExists, indexNames, hst, hmatch]

/-- From a state that keeps the new pair. -/
lemma NewKept.recover_keeps_iff {r : Repo} (h : NewKept newC newI r) (hmatch : Matches newC newI) :
    returnsIn (fun _ => MatchingIndexExists Matches) recoverIfNeeded r ↔ Recoverable Matches r := by
  obtain ⟨c, i, st, oc, oi⟩ := r
  obtain ⟨rfl, hi⟩ := newKept_iff.1 h
  rcases hi with ⟨hoc, hst⟩ | ⟨rfl, hst⟩
  · obtain ⟨oc, rfl⟩ := Option.isSome_iff_exists.1 hoc
    obtain ⟨st, rfl, hst⟩ := Option.bind_eq_some_iff.1 hst
    rw [recover_staged hmatch hst]
    simp [Recoverable, hst]
  · refine iff_of_true (recover_installed hmatch hst) fun c hc hoc hsi => ?_
    simp only [Repo.has, Repo.get] at hoc hsi
    rw [hst hoc] at hsi
    cases hsi

end Recover

/-- **What failing renames cost.** Let a swap be interrupted anywhere, with any of its own renames
failing, and let a recovery return, with any of its renames failing. The index that matches the
packs in `chunks/` still exists, whichever of the recovery's renames fail, exactly if the state was
recoverable: it is not the case that the new packs are in place, the old ones aside and the new
index in staging, unless the index aside matches the new packs as well.

**Proof sketch.** A swap keeps one of the two pairs (`atomicSwap_wp`). Only the branch that rolls
forward removes `index/`; it ignores that the rename of the staged index failed, and the cleanup
then removes staging. -/
theorem recover_keeps_matching_iff (oldC oldI newC newI : Dir) (gen₁ gen₂ : Bytes)
    (Matches : Dir → Dir → Prop) (hold : Matches oldC oldI)
    (hnew : Matches (withGeneration newC gen₂) newI) {r : Repo}
    (hr : Interrupted oldC oldI newC newI gen₁ gen₂ r) :
    (∀ r', swapMachine.Returns recoverIfNeeded r () r' → MatchingIndexExists Matches r') ↔
      Recoverable Matches r := by
  rw [returns_iff]
  rcases hr.kept with h | h
  · refine iff_of_true (h.recover_keeps hold) fun c hc hoc _ => ?_
    rcases h.chunks with ⟨-, hnone⟩ | ⟨hnone, -⟩
    · simp [hnone] at hoc
    · rw [hnone] at hc
      cases hc
  · exact h.recover_keeps_iff hnew

/-- The swap that dies with the old packs aside. -/
theorem recover_keeps_matching_aside :
    let oldC : Dir := .singleton (.pack 0) [3]
    let oldI : Dir := .singleton .hashIndex [4]
    let newC : Dir := .singleton (.pack 0) [5]
    let newI : Dir := .singleton .hashIndex [6]
    let Matches (c i : Dir) := c = oldC ∧ i = oldI ∨ c = withGeneration newC [2] ∧ i = newI
    ∃ r, Interrupted oldC oldI newC newI [1] [2] r ∧ r.chunks = none ∧
      ∀ r', swapMachine.Returns recoverIfNeeded r () r' → MatchingIndexExists Matches r' := by
  intro oldC oldI newC newI Matches
  obtain ⟨r, hdies, hr⟩ : ∃ r, swapMachine.Dies (atomicSwap [1] [2]) (.staged oldC oldI newC newI) r
      ∧ r.chunks = none :=
    ⟨_, .step (.inl rfl) (.step (.inl rfl) (.step (.inl rfl) (.here _ _))), rfl⟩
  refine ⟨r, .inr hdies, hr, ?_⟩
  refine (recover_keeps_matching_iff oldC oldI newC newI [1] [2] Matches (.inl ⟨rfl, rfl⟩)
    (.inr ⟨rfl, rfl⟩) (.inr hdies)).2 fun c hc => ?_
  rw [hr] at hc
  cases hc

/-- **The index is lost**: the recovery's rename of the staged index fails. -/
theorem recover_loses_index :
    let oldC : Dir := .singleton (.pack 0) [3]
    let oldI : Dir := .singleton .hashIndex [4]
    let newC : Dir := .singleton (.pack 0) [5]
    let newI : Dir := .singleton .hashIndex [6]
    ∃ r r', Interrupted oldC oldI newC newI [1] [2] r ∧
      swapMachine.Returns recoverIfNeeded r () r' ∧
      r'.chunks = some (withGeneration newC [2]) ∧ ∀ p ∈ indexNames, r'.get p = none := by
  intro oldC oldI newC newI
  have hdies : swapMachine.Dies (atomicSwap [1] [2]) (.staged oldC oldI newC newI)
      ⟨some (withGeneration newC [2]), some oldI, some ⟨none, some newI⟩, some oldC, none⟩ :=
    .step (.inl rfl) (.step (.inl rfl) (.step (.inl rfl) (.step (.inl rfl) (.here _ _))))
  have hrecover : swapMachine.Returns recoverIfNeeded
      ⟨some (withGeneration newC [2]), some oldI, some ⟨none, some newI⟩, some oldC, none⟩ ()
      ⟨some (withGeneration newC [2]), none, none, none, none⟩ := by
    -- five tests, the removal of the index, the rename that fails
    refine .step (.inl rfl) (.step (.inl rfl) (.step (.inl rfl) (.step (.inl rfl)
      (.step (.inl rfl) (.step (.inl rfl) (.step (.inr ⟨rfl, rfl⟩) ?_))))))
    exact .step (.inl rfl) (.step (.inl rfl) (.step (.inl rfl) (.step (.inl rfl)
      (.ret () _))))
  refine ⟨_, _, .inr hdies, hrecover, rfl, fun p hp => ?_⟩
  simp only [indexNames, List.mem_cons, List.not_mem_nil, or_false] at hp
  rcases hp with rfl | rfl | rfl <;> rfl

end DiskNexus.Prune
