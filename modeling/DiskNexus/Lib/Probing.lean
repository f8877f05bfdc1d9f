import Mathlib.Data.Finset.Card
import Mathlib.Tactic

/-!
# Open addressing with linear probing

A table is a row of slots, each vacant or holding a key. Every key has a home slot, and a search
walks from there, cyclically, until it meets the key or a vacant slot. The invariant: every slot on
the way from a key's home to the key is occupied.

## Main results

`Layout.holds_iff_seek`, `Layout.Packed.update_of_path`, `Layout.find_update`, `Layout.seek_ne_full`
-/

namespace Probing

open Function

/-- The shape of a table. A slot without a key is vacant. -/
structure Layout (σ κ : Type) where
  size : ℕ
  key : σ → Option κ
  home : κ → ℕ
  home_lt : ∀ k, home k < size

/-- Where a search ends: at the key, at a vacant slot, or nowhere. -/
inductive Seek
  | found (i : ℕ)
  | vacant (i : ℕ)
  | full
  deriving DecidableEq, Repr

namespace Layout

variable {σ κ : Type} (L : Layout σ κ)

lemma size_pos (k : κ) : 0 < L.size := lt_of_le_of_lt (Nat.zero_le _) (L.home_lt k)

/-- The slot at distance `q` from the home of `k`. -/
def slot (k : κ) (q : ℕ) : ℕ := (L.home k + q) % L.size

lemma slot_lt (k : κ) (q : ℕ) : L.slot k q < L.size := Nat.mod_lt _ (L.size_pos k)

variable {i : ℕ} {T' : ℕ → σ} {e : σ} {k : κ}

/-- Every slot lies at some distance from a home. -/
lemma exists_slot_eq (k : κ) (hi : i < L.size) : ∃ q < L.size, L.slot k q = i := by
  have hhome := L.home_lt k
  by_cases h : L.home k ≤ i
  · exact ⟨i - L.home k, by omega, by rw [slot, Nat.add_sub_cancel' h, Nat.mod_eq_of_lt hi]⟩
  · refine ⟨i + L.size - L.home k, by omega, ?_⟩
    rw [slot, show L.home k + (i + L.size - L.home k) = i + L.size by omega,
      Nat.add_mod_right, Nat.mod_eq_of_lt hi]

/-! ## The invariant -/

/-- Some slot of the table holds `k`. -/
def Holds (T : ℕ → σ) (k : κ) : Prop := ∃ i < L.size, L.key (T i) = some k

/-- Every slot between the home of a key and a slot that holds it is occupied. -/
def Packed (T : ℕ → σ) : Prop :=
  ∀ i < L.size, ∀ k, L.key (T i) = some k →
    ∃ q < L.size, L.slot k q = i ∧ ∀ q' < q, (L.key (T (L.slot k q'))).isSome

/-- No key stands in two slots. -/
def Unique (T : ℕ → σ) : Prop :=
  ∀ i < L.size, ∀ j < L.size, ∀ k, L.key (T i) = some k → L.key (T j) = some k → i = j

variable {L} {T : ℕ → σ}

/-! ## Writing slots -/

/-- The invariants depend on the keys only. -/
lemma Packed.congr (hT : L.Packed T) (h : ∀ i < L.size, L.key (T' i) = L.key (T i)) :
    L.Packed T' := by
  intro i hi k hk
  rw [h i hi] at hk
  obtain ⟨q, hq, hslot, hpath⟩ := hT i hi k hk
  exact ⟨q, hq, hslot, fun q' hq' => by rw [h _ (L.slot_lt k q')]; exact hpath q' hq'⟩

lemma Unique.congr (hU : L.Unique T) (h : ∀ i < L.size, L.key (T' i) = L.key (T i)) :
    L.Unique T' := by
  intro i hi j hj k hik hjk
  rw [h i hi] at hik
  rw [h j hj] at hjk
  exact hU i hi j hj k hik hjk

/-- Rewriting a slot under its key. -/
lemma key_update (h : L.key e = L.key (T i)) (j : ℕ) :
    L.key (update T i e j) = L.key (T j) := by
  by_cases hj : j = i
  · subst hj
    simp [h]
  · rw [update_of_ne hj]

/-- Filling the end of an occupied path keeps the invariant. -/
lemma Packed.update_of_path (hT : L.Packed T) {q : ℕ} (hq : q < L.size)
    (hpath : ∀ q' < q, (L.key (T (L.slot k q'))).isSome) (he : L.key e = some k) :
    L.Packed (update T (L.slot k q) e) := by
  -- a slot that was occupied still is
  have hmono : ∀ j, (L.key (T j)).isSome →
      (L.key (update T (L.slot k q) e j)).isSome := by
    intro j hj
    by_cases h : j = L.slot k q
    · subst h
      simp [he]
    · rwa [update_of_ne h]
  intro i hi k' hk'
  by_cases h : i = L.slot k q
  · subst h
    rw [update_self, he] at hk'
    obtain rfl := Option.some.inj hk'
    exact ⟨q, hq, rfl, fun q' hq' => hmono _ (hpath q' hq')⟩
  · rw [update_of_ne h] at hk'
    obtain ⟨p, hp, hslot, hp'⟩ := hT i hi k' hk'
    exact ⟨p, hp, hslot, fun q' hq' => hmono _ (hp' q' hq')⟩

/-- Writing a key that the table does not hold keeps keys unique. -/
lemma Unique.update (hU : L.Unique T) (hk : ¬ L.Holds T k) (he : L.key e = some k) :
    L.Unique (update T i e) := by
  have hother : ∀ j < L.size, j ≠ i → L.key (Function.update T i e j) ≠ some k := by
    intro j hj hji h
    rw [update_of_ne hji] at h
    exact hk ⟨j, hj, h⟩
  intro a ha b hb k' hka hkb
  by_cases hai : a = i <;> by_cases hbi : b = i
  · rw [hai, hbi]
  · subst hai
    rw [update_self, he] at hka
    exact absurd (hka ▸ hkb) (hother b hb hbi)
  · subst hbi
    rw [update_self, he] at hkb
    exact absurd (hkb ▸ hka) (hother a ha hai)
  · rw [update_of_ne hai] at hka
    rw [update_of_ne hbi] at hkb
    exact hU a ha b hb k' hka hkb

/-! ## Room -/

/-- The number of occupied slots. -/
def occupied (L : Layout σ κ) (T : ℕ → σ) : ℕ :=
  ((Finset.range L.size).filter fun i => (L.key (T i)).isSome).card

/-- Writing one slot occupies at most one more. -/
lemma occupied_update_le (i : ℕ) (e : σ) :
    L.occupied (update T i e) ≤ L.occupied T + 1 := by
  have hsub : (Finset.range L.size).filter (fun j => (L.key (update T i e j)).isSome) ⊆
      insert i ((Finset.range L.size).filter fun j => (L.key (T j)).isSome) := by
    intro j hj
    rw [Finset.mem_filter] at hj
    by_cases hji : j = i
    · subst hji
      exact Finset.mem_insert_self _ _
    · rw [update_of_ne hji] at hj
      exact Finset.mem_insert_of_mem (Finset.mem_filter.2 hj)
  exact (Finset.card_le_card hsub).trans (Finset.card_insert_le _ _)

/-- Rewriting slots under their keys occupies no more. -/
lemma occupied_congr (h : ∀ i < L.size, L.key (T' i) = L.key (T i)) :
    L.occupied T' = L.occupied T := by
  unfold occupied
  congr 1
  refine Finset.filter_congr fun i hi => ?_
  rw [h i (Finset.mem_range.1 hi)]

variable [DecidableEq κ]

/-! ## Searching -/

variable (L)

/-- The search for `k` from distance `q` on, over at most `fuel` slots. -/
def seekFrom (T : ℕ → σ) (k : κ) : ℕ → ℕ → Seek
  | 0, _ => .full
  | fuel + 1, q =>
    match L.key (T (L.slot k q)) with
    | none => .vacant (L.slot k q)
    | some k' => if k' = k then .found (L.slot k q) else seekFrom T k fuel (q + 1)

/-- The search for a key. -/
def seek (T : ℕ → σ) (k : κ) : Seek := L.seekFrom T k L.size 0

/-- The slot contents a search finds. -/
def find (T : ℕ → σ) (k : κ) : Option σ :=
  match L.seek T k with
  | .found i => some (T i)
  | _ => none

/-- The slots before distance `q` hold other keys. -/
def Passed (T : ℕ → σ) (k : κ) (q : ℕ) : Prop :=
  ∀ q' < q, ∃ k', L.key (T (L.slot k q')) = some k' ∧ k' ≠ k

lemma seekFrom_cases (T : ℕ → σ) (k : κ) (fuel q : ℕ) (hq : L.Passed T k q) :
    (∃ p < q + fuel, L.key (T (L.slot k p)) = some k ∧ L.Passed T k p ∧
        L.seekFrom T k fuel q = .found (L.slot k p)) ∨
      (∃ p < q + fuel, L.key (T (L.slot k p)) = none ∧ L.Passed T k p ∧
        L.seekFrom T k fuel q = .vacant (L.slot k p)) ∨
      (L.Passed T k (q + fuel) ∧ L.seekFrom T k fuel q = .full) := by
  induction fuel generalizing q with
  | zero => exact .inr (.inr ⟨hq, rfl⟩)
  | succ fuel ih =>
    unfold seekFrom
    cases hkey : L.key (T (L.slot k q)) with
    | none => exact .inr (.inl ⟨q, by omega, hkey, hq, rfl⟩)
    | some k' =>
      by_cases hk : k' = k
      · subst hk
        exact .inl ⟨q, by omega, hkey, hq, by simp⟩
      · have hq' : L.Passed T k (q + 1) := by
          intro q' hq'
          rcases Nat.lt_succ_iff_lt_or_eq.1 hq' with h | rfl
          · exact hq q' h
          · exact ⟨k', hkey, hk⟩
        simpa [hk, Nat.add_right_comm q 1 fuel, Nat.add_assoc] using ih (q + 1) hq'

/-- The three ways a search ends. -/
lemma seek_cases (T : ℕ → σ) (k : κ) :
    (∃ p < L.size, L.key (T (L.slot k p)) = some k ∧ L.Passed T k p ∧
        L.seek T k = .found (L.slot k p)) ∨
      (∃ p < L.size, L.key (T (L.slot k p)) = none ∧ L.Passed T k p ∧
        L.seek T k = .vacant (L.slot k p)) ∨
      (L.Passed T k L.size ∧ L.seek T k = .full) := by
  simpa [seek] using L.seekFrom_cases T k L.size 0 (by simp [Passed])

variable {L}

lemma seek_found (h : L.seek T k = .found i) :
    i < L.size ∧ L.key (T i) = some k := by
  rcases L.seek_cases T k with ⟨p, -, hkey, -, hs⟩ | ⟨p, -, -, -, hs⟩ | ⟨-, hs⟩ <;> rw [h] at hs
  · cases hs
    exact ⟨L.slot_lt k p, hkey⟩
  · cases hs
  · cases hs

lemma seek_vacant (h : L.seek T k = .vacant i) :
    ∃ q < L.size, L.slot k q = i ∧ L.key (T i) = none ∧ L.Passed T k q := by
  rcases L.seek_cases T k with ⟨p, -, -, -, hs⟩ | ⟨p, hp, hkey, hpass, hs⟩ | ⟨-, hs⟩ <;>
    rw [h] at hs
  · cases hs
  · cases hs
    exact ⟨p, hp, rfl, hkey, hpass⟩
  · cases hs

/-- **Searches are complete**: they find exactly the keys the table holds. -/
theorem holds_iff_seek (hT : L.Packed T) :
    L.Holds T k ↔ ∃ i, L.seek T k = .found i := by
  constructor
  · rintro ⟨i, hi, hk⟩
    obtain ⟨q, hq, rfl, hpath⟩ := hT i hi k hk
    rcases L.seek_cases T k with ⟨p, -, -, -, hs⟩ | ⟨p, hp, hnone, hpass, -⟩ | ⟨hpass, -⟩
    · exact ⟨_, hs⟩
    · -- a vacant end lies neither before the key, nor at it, nor behind it
      rcases lt_trichotomy p q with h | rfl | h
      · simpa [hnone] using hpath p h
      · rw [hk] at hnone
        cases hnone
      · obtain ⟨k', hk', hne⟩ := hpass q h
        rw [hk] at hk'
        exact absurd (Option.some.inj hk').symm hne
    · obtain ⟨k', hk', hne⟩ := hpass q hq
      rw [hk] at hk'
      exact absurd (Option.some.inj hk').symm hne
  · rintro ⟨i, hs⟩
    obtain ⟨hi, hk⟩ := seek_found hs
    exact ⟨i, hi, hk⟩

/-- In a packed table without duplicates the search reports the slot that holds the key. -/
lemma find_eq_some_iff (hT : L.Packed T) (hU : L.Unique T) {s : σ} :
    L.find T k = some s ↔ L.key s = some k ∧ ∃ i < L.size, T i = s := by
  constructor
  · intro h
    unfold find at h
    split at h
    · rename_i i hs
      obtain ⟨hi, hk⟩ := seek_found hs
      obtain rfl := Option.some.inj h
      exact ⟨hk, i, hi, rfl⟩
    · cases h
  · rintro ⟨hk, i, hi, rfl⟩
    obtain ⟨j, hj⟩ := (holds_iff_seek hT).1 ⟨i, hi, hk⟩
    obtain ⟨hjlt, hjk⟩ := seek_found hj
    obtain rfl := hU i hi j hjlt k hk hjk
    simp [find, hj]

/-! ## Writing where a search ended -/

/-- An entry written where the search for its key ended. -/
inductive Put (L : Layout σ κ) (T : ℕ → σ) (e : σ) (k : κ) (T' : ℕ → σ) : Prop
  | found (i : ℕ) (h : L.seek T k = .found i) (hT' : T' = update T i e)
  | vacant (i : ℕ) (h : L.seek T k = .vacant i) (hT' : T' = update T i e)

/-- Writing an entry where its search ended keeps the invariant. -/
lemma Put.packed (h : Put L T e k T') (hT : L.Packed T) (he : L.key e = some k) : L.Packed T' := by
  cases h with
  | found i hs hT' =>
    subst hT'
    exact hT.congr fun j _ => key_update (he.trans (seek_found hs).2.symm) j
  | vacant i hs hT' =>
    obtain ⟨q, hq, rfl, -, hpass⟩ := seek_vacant hs
    subst hT'
    refine hT.update_of_path hq (fun q' hq' => ?_) he
    obtain ⟨k', hk', -⟩ := hpass q' hq'
    simp [hk']

/-- Writing an entry where its search ended keeps keys unique. -/
lemma Put.unique (h : Put L T e k T') (hT : L.Packed T) (hU : L.Unique T) (he : L.key e = some k) :
    L.Unique T' := by
  cases h with
  | found i hs hT' =>
    subst hT'
    exact hU.congr fun j _ => key_update (he.trans (seek_found hs).2.symm) j
  | vacant i hs hT' =>
    subst hT'
    refine hU.update (fun hk => ?_) he
    obtain ⟨j, hj⟩ := (holds_iff_seek hT).1 hk
    rw [hs] at hj
    cases hj

/-- The slot an entry was written to. -/
lemma Put.slot (h : Put L T e k T') :
    ∃ i < L.size, T' = update T i e ∧ (L.key (T i) = none ∨ L.key (T i) = some k) := by
  cases h with
  | found i hs hT' =>
    obtain ⟨hi, hk⟩ := seek_found hs
    exact ⟨i, hi, hT', .inr hk⟩
  | vacant i hs hT' =>
    obtain ⟨q, -, rfl, hnone, -⟩ := seek_vacant hs
    exact ⟨_, L.slot_lt k q, hT', .inl hnone⟩

/-- **Writing an entry** changes what is found under its key and nothing else. -/
theorem find_update (h : Put L T e k T') (hT : L.Packed T) (hU : L.Unique T) (he : L.key e = some k)
    (k' : κ) :
    L.find T' k' = if k' = k then some e else L.find T k' := by
  have hT' := h.packed hT he
  have hU' := h.unique hT hU he
  obtain ⟨i, hi, rfl, hold⟩ := h.slot
  split_ifs with hk
  · subst hk
    exact (find_eq_some_iff hT' hU').2 ⟨he, i, hi, by simp⟩
  · refine Option.ext fun s => ?_
    rw [find_eq_some_iff hT' hU', find_eq_some_iff hT hU]
    refine and_congr_right fun hs => ⟨?_, ?_⟩
    · rintro ⟨j, hj, rfl⟩
      by_cases hji : j = i
      · subst hji
        rw [update_self, he] at hs
        exact absurd (Option.some.inj hs).symm hk
      · exact ⟨j, hj, (update_of_ne hji _ _).symm⟩
    · rintro ⟨j, hj, rfl⟩
      by_cases hji : j = i
      · subst hji
        rcases hold with hold | hold <;> rw [hs] at hold
        · cases hold
        · exact absurd (Option.some.inj hold) hk
      · exact ⟨j, hj, update_of_ne hji _ _⟩

/-- A table with a vacant slot accepts every key. -/
lemma seek_ne_full (h : L.occupied T < L.size) (k : κ) : L.seek T k ≠ .full := by
  intro hs
  rcases L.seek_cases T k with ⟨p, -, -, -, hs'⟩ | ⟨p, -, -, -, hs'⟩ | ⟨hpass, -⟩
  · rw [hs] at hs'
    cases hs'
  · rw [hs] at hs'
    cases hs'
  · -- every slot was passed, so all are occupied
    refine absurd h (not_lt.2 ?_)
    have hall : (Finset.range L.size).filter (fun i => (L.key (T i)).isSome) =
        Finset.range L.size := by
      refine Finset.filter_true_of_mem fun i hi => ?_
      obtain ⟨q, hq, rfl⟩ := L.exists_slot_eq k (Finset.mem_range.1 hi)
      obtain ⟨k', hk', -⟩ := hpass q hq
      simp [hk']
    rw [occupied, hall, Finset.card_range]

end Layout

end Probing
