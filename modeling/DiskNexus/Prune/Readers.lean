import DiskNexus.Index.Opening
import DiskNexus.Prune.SwapAtomic

/-!
# Readers between a crashed swap and its recovery

A restore, a verify or a listing may open a repository whose prune was interrupted, before the
recovery, and creates missing directories. After the first rename, which moves `chunks` aside, an
open of the chunk store makes it look as if the new packs were in place.

## Main results

`swap_readers_iff`, `swap_readers_lost`
-/

namespace DiskNexus.Prune

open Binary CrashLogic Index Store

/-! ## Opening an index -/

/-- Two index directories with the same index: they differ in working files, in an empty index file
and, in an encrypted repository, in the plaintext working copies. -/
structure SameIndex (key : Option Cipher) (a b : Dir) : Prop where
  lookup : ∀ f, ¬ f.Working → f ≠ .bloom → f ≠ .hashIndex → b.lookup f = a.lookup f
  plain : key = none → b.lookup .bloom = a.lookup .bloom ∧
    (b.lookup .hashIndex).getD [] = (a.lookup .hashIndex).getD []

lemma SameIndex.refl (key : Option Cipher) (a : Dir) : SameIndex key a a :=
  ⟨fun _ _ _ _ => rfl, fun _ => ⟨rfl, rfl⟩⟩

lemma SameIndex.trans {key : Option Cipher} {a b c : Dir} (h : SameIndex key a b)
    (h' : SameIndex key b c) : SameIndex key a c := by
  refine ⟨fun f hf h1 h2 => (h'.lookup f hf h1 h2).trans (h.lookup f hf h1 h2), fun hk => ?_⟩
  obtain ⟨hb, hi⟩ := h.plain hk
  obtain ⟨hb', hi'⟩ := h'.plain hk
  exact ⟨hb'.trans hb, hi'.trans hi⟩

/-- Writing or removing a plaintext copy in an encrypted repository. -/
lemma sameIndex_of_key {k : Cipher} {a b : Dir}
    (h : ∀ f, f ≠ .bloom → f ≠ .hashIndex → b.lookup f = a.lookup f) :
    SameIndex (some k) a b :=
  ⟨fun f _ h1 h2 => h f h1 h2, by rintro ⟨⟩⟩

lemma openFiles_same (key : Option Cipher) (nbits : UInt64) (d : Dir) :
    SameIndex key d (openFiles key nbits d).2 := by
  cases key with
  | none =>
    rw [openFiles_dir]
    exact .refl _ _
  | some k =>
    refine sameIndex_of_key fun f h1 h2 => ?_
    rcases openFiles_eq (some k) nbits d with ⟨-, e, d', hfiles, -, hrest⟩ |
      ⟨d', hfiles, -, -, -, hrest⟩ <;> rw [hfiles] <;> exact hrest f h1 h2

lemma newHashIndex_same (key : Option Cipher) (d : Dir) (readOnly : Bool) :
    SameIndex key d (newHashIndex d readOnly).2 := by
  refine ⟨fun f hf _ h2 => ?_, fun _ => ⟨?_, ?_⟩⟩
  · rw [lookup_newHashIndex hf, AList.lookup_insert_ne h2]
  · rw [lookup_newHashIndex (f := .bloom) (fun h => h), AList.lookup_insert_ne (by simp)]
  · rw [lookup_newHashIndex HashIndex.not_working_hashIndex, AList.lookup_insert, Option.getD_some]

/-- **An open leaves the index it found**, whether it succeeds or not. -/
theorem newDedupIndex_same (key : Option Cipher) (nbits : UInt64) (readOnly : Bool)
    (d : Dir) : SameIndex key d (newDedupIndex key nbits readOnly d).2 := by
  refine newDedupIndex_rel (fun h h' => h.trans h') (openFiles_same key nbits d)
    (fun a => newHashIndex_same key a readOnly) fun a => ?_
  have hhtab : ∀ f : FileName, ¬ f.Working → (a.erase .htab).lookup f = a.lookup f := by
    intro f hf
    refine AList.lookup_erase_ne ?_
    rintro rfl
    exact hf trivial
  refine ⟨fun f hf _ _ => hhtab f hf, fun _ => ⟨hhtab .bloom (fun h => h), ?_⟩⟩
  rw [hhtab .hashIndex (fun h => h)]

/-! ## Readers -/

/-- The opens of a restore, a verify or a listing. -/
inductive Reader
  | chunkStore
  | dedupIndex (nbits : UInt64) (readOnly : Bool)
  deriving DecidableEq

/-- An open of a repository: each creates its directory if it is missing. -/
def Repo.openReader (key : Option Cipher) (r : Repo) : Reader → Repo
  | .chunkStore => { r with chunks := some (r.chunks.getD ∅) }
  | .dedupIndex nbits readOnly =>
    { r with index := some (newDedupIndex key nbits readOnly (r.index.getD ∅)).2 }

/-- Readers one after the other. -/
def Repo.openAll (key : Option Cipher) (r : Repo) (readers : List Reader) : Repo :=
  readers.foldl (Repo.openReader key) r

/-- What readers leave: `chunks` is created if one of them opened the chunk store, and an index that
was there is still the same. -/
lemma openAll_eq (key : Option Cipher) (r : Repo) (readers : List Reader) :
    ∃ i, r.openAll key readers =
        ⟨if Reader.chunkStore ∈ readers then some (r.chunks.getD ∅) else r.chunks, i, r.staging,
          r.oldChunks, r.oldIndex⟩ ∧
      ∀ d, r.index = some d → ∃ d', i = some d' ∧ SameIndex key d d' := by
  induction readers generalizing r with
  | nil => exact ⟨r.index, rfl, fun d hd => ⟨d, hd, .refl key d⟩⟩
  | cons reader readers ih =>
    obtain ⟨i, hi, hsame⟩ := ih (r.openReader key reader)
    refine ⟨i, ?_, fun d hd => ?_⟩
    · rw [show r.openAll key (reader :: readers) = (r.openReader key reader).openAll key readers
        from rfl, hi]
      cases reader with
      | chunkStore => simp [Repo.openReader]
      | dedupIndex nbits readOnly => simp [Repo.openReader]
    · cases reader with
      | chunkStore => exact hsame d hd
      | dedupIndex nbits readOnly =>
        obtain ⟨d', hd', hsame'⟩ := hsame (newDedupIndex key nbits readOnly d).2
          (by simp [Repo.openReader, hd])
        exact ⟨d', hd', (newDedupIndex_same key nbits readOnly d).trans hsame'⟩

/-! ## Crash, readers, recovery -/

/-- The repository after `k` filesystem steps of the swap. -/
def Repo.crashed (oldC oldI newC newI : Dir) (gen₁ gen₂ : Bytes) (k : ℕ) : Repo :=
  Prog.stopAfter Repo.act k (atomicSwap gen₁ gen₂) (.staged oldC oldI newC newI)

/-- The repository after a recovery. -/
def Repo.recovered (r : Repo) : Repo := Prog.stateAfter Repo.act recoverIfNeeded r

/-- A pair in place, with the index up to the readers' files, and no other directory. -/
def Consistent (key : Option Cipher) (c i : Dir) (r : Repo) : Prop :=
  ∃ d, SameIndex key i d ∧ r = ⟨some c, some d, none, none, none⟩

section Points

variable {oldC oldI newC newI : Dir} {gen₁ gen₂ : Bytes}

/-- The stages of the swap: the old pair in place; its packs aside; the new packs in place and the
new index in staging; the new pair in place. -/
inductive Stage (oldC oldI newC newI : Dir) : Repo → Prop
  | before (st : Staging) : Stage oldC oldI newC newI ⟨some oldC, some oldI, some st, none, none⟩
  | aside (st : Staging) (h : st.index = some newI) :
      Stage oldC oldI newC newI ⟨none, some oldI, some st, some oldC, none⟩
  | half (i oi : Option Dir) (st : Staging) (h : st.index = some newI) :
      Stage oldC oldI newC newI ⟨some newC, i, some st, some oldC, oi⟩
  | after (st : Option Staging) (h : st.bind (·.index) = none) (oc oi : Option Dir) :
      Stage oldC oldI newC newI ⟨some newC, some newI, st, oc, oi⟩

/-- Every point of the swap is in a stage, and `chunks` is missing at the third one only. -/
lemma crashed_stage (k : ℕ) :
    Stage oldC oldI (withGeneration newC gen₂) newI (.crashed oldC oldI newC newI gen₁ gen₂ k) ∧
      ((Repo.crashed oldC oldI newC newI gen₁ gen₂ k).chunks = none ↔ k = 3) := by
  have hgen : (newC.insert packsGenerationFile gen₁).insert packsGenerationFile gen₂ =
      withGeneration newC gen₂ := AList.insert_insert newC
  rcases k with _ | _ | _ | _ | _ | _ | _ | _ | _ | n
  · exact ⟨.before _, by simp [Repo.crashed, Repo.staged]⟩
  · refine ⟨.before ⟨some (newC.insert packsGenerationFile gen₁), some newI⟩, ?_⟩
    show some oldC = none ↔ _
    simp
  · refine ⟨.before ⟨some ((newC.insert packsGenerationFile gen₁).insert packsGenerationFile
      gen₂), some newI⟩, ?_⟩
    show some oldC = none ↔ _
    simp
  · refine ⟨.aside ⟨some ((newC.insert packsGenerationFile gen₁).insert packsGenerationFile
      gen₂), some newI⟩ rfl, ?_⟩
    show none = none ↔ _
    simp
  · refine ⟨.half (some oldI) none ⟨none, some newI⟩ rfl, ?_⟩
    show some _ = none ↔ _
    simp
  · refine ⟨.half none (some oldI) ⟨none, some newI⟩ rfl, ?_⟩
    show some _ = none ↔ _
    simp
  · refine ⟨.after (some ⟨none, none⟩) rfl (some oldC) (some oldI), ?_⟩
    show some _ = none ↔ _
    simp
  · refine ⟨.after (some ⟨none, none⟩) rfl none (some oldI), ?_⟩
    show some _ = none ↔ _
    simp
  · refine ⟨.after (some ⟨none, none⟩) rfl none none, ?_⟩
    show some _ = none ↔ _
    simp
  · -- the swap has returned
    have hend : Repo.crashed oldC oldI newC newI gen₁ gen₂ (n + 9) =
        ⟨some (withGeneration newC gen₂), some newI, none, none, none⟩ := by
      cases n <;> rfl
    rw [hend]
    refine ⟨.after none rfl none none, ?_⟩
    simp

/-- Whatever stands under the name `chunks` while the old packs are aside, the recovery takes it for
the new packs. -/
lemma recovered_half (c : Dir) (i oi : Option Dir) {st : Staging} (h : st.index = some newI) :
    Repo.recovered ⟨some c, i, some st, some oldC, oi⟩ =
      ⟨some c, some newI, none, none, none⟩ := by
  obtain ⟨sc, si⟩ := st
  obtain rfl : si = some newI := h
  cases oi <;> rfl

/-- The recovery of a swap whose new pair is in place only cleans up. -/
lemma recovered_after (c d : Dir) {st : Option Staging} (h : st.bind (·.index) = none)
    (oc oi : Option Dir) :
    Repo.recovered ⟨some c, some d, st, oc, oi⟩ = ⟨some c, some d, none, none, none⟩ := by
  rcases st with _ | ⟨sc, si⟩
  · cases oc <;> cases oi <;> rfl
  · obtain rfl : si = none := h
    cases oc <;> cases oi <;> rfl

end Points

/-- The packs under a generation are not an empty directory. -/
lemma withGeneration_ne_empty (newC : Dir) (gen : Bytes) : withGeneration newC gen ≠ ∅ := by
  intro h
  have hlookup : (withGeneration newC gen).lookup packsGenerationFile = some gen :=
    AList.lookup_insert newC
  rw [h, AList.lookup_empty] at hlookup
  cases hlookup

/-- **Readers before a recovery.** Let the swap be interrupted after any of its steps, let any
readers open the repository in any order, and recover. The old pair or the new pair is in place
exactly if it is not the case that the swap was interrupted between its first two renames and a
reader opened the chunk store, an old pair without packs whose index is the new one apart.

**Proof sketch.** After the first rename alone `chunks` is missing, and the recovery rolls back as
long as it stays so. An empty `chunks` that a reader created makes it roll forward. At all other
points the recovery decides as it would without readers. -/
theorem swap_readers_iff (key : Option Cipher) (oldC oldI newC newI : Dir) (gen₁ gen₂ : Bytes)
    (k : ℕ) (readers : List Reader) :
    (Consistent key oldC oldI
        ((Repo.crashed oldC oldI newC newI gen₁ gen₂ k).openAll key readers).recovered ∨
      Consistent key (withGeneration newC gen₂) newI
        ((Repo.crashed oldC oldI newC newI gen₁ gen₂ k).openAll key readers).recovered) ↔
      ¬ (k = 3 ∧ Reader.chunkStore ∈ readers ∧ ¬ (oldC = ∅ ∧ SameIndex key oldI newI)) := by
  obtain ⟨hstage, hmissing⟩ := @crashed_stage oldC oldI newC newI gen₁ gen₂ k
  obtain ⟨i, hopen, hindex⟩ := openAll_eq key (.crashed oldC oldI newC newI gen₁ gen₂ k) readers
  rw [hopen]
  generalize Repo.crashed oldC oldI newC newI gen₁ gen₂ k = r at hstage hmissing hindex
  have hchunks : ∀ c : Dir,
    (if Reader.chunkStore ∈ readers then some ((some c).getD ∅) else some c) =
      some c := by
    intro c
    split <;> rfl
  cases hstage with
  | before st =>
    obtain ⟨d, rfl, hd⟩ := hindex oldI rfl
    have hk : k ≠ 3 := by simpa using hmissing
    -- the old pair is in place
    simp only [hchunks, hk, false_and, not_false_eq_true, iff_true]
    exact .inl ⟨d, hd, rfl⟩
  | aside st hst =>
    obtain ⟨d, rfl, hd⟩ := hindex oldI rfl
    have hk : k = 3 := by simpa using hmissing
    by_cases hreader : Reader.chunkStore ∈ readers
    · -- an empty directory stands under the name of the packs
      simp only [hreader, if_true, Option.getD_none, hk, true_and, not_not]
      rw [recovered_half ∅ (some d) none hst]
      constructor
      · rintro (⟨d', hd', h⟩ | ⟨d', hd', h⟩)
        · simp only [Repo.mk.injEq, Option.some.injEq, and_true] at h
          obtain ⟨h1, rfl⟩ := h
          exact ⟨h1.symm, hd'⟩
        · simp only [Repo.mk.injEq, Option.some.injEq] at h
          exact absurd h.1.symm (withGeneration_ne_empty newC gen₂)
      · rintro ⟨rfl, hsame⟩
        exact .inl ⟨newI, hsame, rfl⟩
    · -- the recovery rolls back
      simp only [hreader, if_false, false_and, and_false, not_false_eq_true, iff_true]
      exact .inl ⟨d, hd, rfl⟩
  | half i' oi st hst =>
    have hk : k ≠ 3 := by simpa using hmissing
    simp only [hchunks, recovered_half _ _ _ hst, hk, false_and, not_false_eq_true, iff_true]
    exact .inr ⟨newI, .refl key newI, rfl⟩
  | after st hst oc oi =>
    obtain ⟨d, rfl, hd⟩ := hindex newI rfl
    have hk : k ≠ 3 := by simpa using hmissing
    simp only [hchunks, recovered_after _ _ hst, hk, false_and, not_false_eq_true, iff_true]
    exact .inr ⟨d, hd, rfl⟩

/-- **The packs are lost**: a reader opens the chunk store after the swap moved the old packs aside.
-/
theorem swap_readers_lost :
    let oldC : Dir := .singleton (.pack 0) [3]
    let oldI : Dir := .singleton .hashIndex [4]
    let newC : Dir := .singleton (.pack 0) [5]
    let newI : Dir := .singleton .hashIndex [6]
    let r := ((Repo.crashed oldC oldI newC newI [1] [2] 3).openAll none [.chunkStore]).recovered
    r = ⟨some ∅, some newI, none, none, none⟩ ∧ ¬ Consistent none oldC oldI r ∧
      ¬ Consistent none (withGeneration newC [2]) newI r := by
  intro oldC oldI newC newI r
  have hr : r = ⟨some ∅, some newI, none, none, none⟩ := rfl
  refine ⟨hr, ?_, ?_⟩
  · rintro ⟨d, -, h⟩
    rw [hr] at h
    simp only [Repo.mk.injEq, Option.some.injEq] at h
    have hlookup : (∅ : Dir).lookup (.pack 0) = some [3] := congrArg (AList.lookup (.pack 0)) h.1
    rw [AList.lookup_empty] at hlookup
    cases hlookup
  · rintro ⟨d, -, h⟩
    rw [hr] at h
    simp only [Repo.mk.injEq, Option.some.injEq] at h
    exact withGeneration_ne_empty newC [2] h.1.symm

end DiskNexus.Prune
