import Mathlib.Data.List.Sort
import Mathlib.Tactic

/-!
# Merging sorted rows of keyed records

Records have keys, and the rows they come in are ordered by the rank of a key, which several keys
may share. New records are merged over a row of old ones one rank at a time: of the new records with
one key the last counts, and an old record goes when there is a new one with its key.

## Main results

`mem_lastOfGroups`, `mergeRuns_spec`
-/

namespace RunMerge

variable {α κ : Type*} [DecidableEq κ] (key : α → κ) (rank : κ → ℕ)

/-- The last record of each group of neighbours with one key. -/
def lastOfGroups : List α → List α
  | [] => []
  | [a] => [a]
  | a :: b :: l => if key b = key a then lastOfGroups (b :: l) else a :: lastOfGroups (b :: l)

/-- The lowest rank at the front of two rows. -/
def lowest (base new : List α) : Option ℕ :=
  match base.head?, new.head? with
  | none, none => none
  | some b, none => some (rank (key b))
  | none, some a => some (rank (key a))
  | some b, some a => some (min (rank (key b)) (rank (key a)))

/-- Merge new records over old ones, rank by rank. -/
def mergeRuns : ℕ → List α → List α → List α
  | 0, _, _ => []
  | fuel + 1, base, new =>
    match lowest key rank base new with
    | none => []
    | some p =>
      let wins := lastOfGroups key (new.takeWhile fun a => rank (key a) = p)
      (base.takeWhile fun a => rank (key a) = p).filter (fun a => key a ∉ wins.map key) ++ wins ++
        mergeRuns fuel (base.dropWhile fun a => rank (key a) = p)
          (new.dropWhile fun a => rank (key a) = p)

/-- The records of a row with one key. -/
def withKey (k : κ) (l : List α) : List α := l.filter fun a => key a = k

/-- A row in the order of the ranks. -/
def Ranked (l : List α) : Prop := l.Pairwise fun a b => rank (key a) ≤ rank (key b)

/-- A row in which the records with one key are neighbours. -/
def Grouped (ord : κ → ℕ) (l : List α) : Prop := l.Pairwise fun a b => ord (key a) ≤ ord (key b)

variable {l base new : List α} {k : κ} {a : α} {p : ℕ}

section Groups

variable {key} {ord : κ → ℕ}

lemma lastOfGroups_sublist (l : List α) : (lastOfGroups key l).Sublist l := by
  fun_induction lastOfGroups key l with
  | case1 => exact .slnil
  | case2 a => exact List.Sublist.refl _
  | case3 a b l heq ih => exact ih.cons a
  | case4 a b l hne ih => exact ih.cons_cons a

/-- Every key has its last record. -/
lemma mem_keys_lastOfGroups :
    k ∈ (lastOfGroups key l).map key ↔ k ∈ l.map key := by
  fun_induction lastOfGroups key l with
  | case1 => rfl
  | case2 a => rfl
  | case3 a b l heq ih =>
    rw [ih]
    simp only [List.map_cons, List.mem_cons, heq]
    tauto
  | case4 a b l hne ih =>
    rw [List.map_cons, List.mem_cons, ih]
    simp only [List.map_cons, List.mem_cons]

omit [DecidableEq κ] in
/-- In a grouped row no key follows its group again. -/
lemma Grouped.ne_of_ne (hord : Function.Injective ord) {b : α} (h : Grouped key ord (a :: b :: l))
    (hne : key b ≠ key a) : ∀ c ∈ b :: l, key c ≠ key a := by
  obtain ⟨hfirst, hrest⟩ := List.pairwise_cons.1 h
  intro c hc hkey
  have hab := hfirst b (.head _)
  have hbc : ord (key b) ≤ ord (key c) := by
    rcases List.mem_cons.1 hc with rfl | hc
    · exact le_refl _
    · exact (List.pairwise_cons.1 hrest).1 c hc
  rw [hkey] at hbc
  exact hne (hord (le_antisymm hbc hab))

/-- The keys of the last records are distinct. -/
lemma nodup_lastOfGroups (hord : Function.Injective ord) (h : Grouped key ord l) :
    ((lastOfGroups key l).map key).Nodup := by
  fun_induction lastOfGroups key l with
  | case1 => exact List.nodup_nil
  | case2 a => simp
  | case3 a b l heq ih => exact ih h.of_cons
  | case4 a b l hne ih =>
    rw [List.map_cons, List.nodup_cons]
    refine ⟨fun hmem => ?_, ih h.of_cons⟩
    obtain ⟨c, hc, hkey⟩ := List.mem_map.1 (mem_keys_lastOfGroups.1 hmem)
    exact h.ne_of_ne hord hne c hc hkey

lemma withKey_cons_of_eq (h : key a = k) (l : List α) :
    withKey key k (a :: l) = a :: withKey key k l := List.filter_cons_of_pos (by simpa using h)

lemma withKey_cons_of_ne (h : key a ≠ k) (l : List α) :
    withKey key k (a :: l) = withKey key k l := List.filter_cons_of_neg (by simpa using h)

lemma withKey_eq_nil (h : ∀ a ∈ l, key a ≠ k) : withKey key k l = [] :=
  List.filter_eq_nil_iff.2 fun a ha => by simpa using h a ha

/-- **The last records are the latest of their keys.** -/
lemma mem_lastOfGroups (hord : Function.Injective ord) (h : Grouped key ord l) {x : α} :
    x ∈ lastOfGroups key l ↔ (withKey key (key x) l).getLast? = some x := by
  fun_induction lastOfGroups key l with
  | case1 => simp [withKey]
  | case2 a =>
    by_cases hx : key a = key x
    · simp [withKey, hx, eq_comm]
    · rw [withKey_cons_of_ne hx, List.mem_singleton]
      refine ⟨?_, fun hlast => by simp [withKey] at hlast⟩
      rintro rfl
      exact absurd rfl hx
  | case3 a b l heq ih =>
    rw [ih h.of_cons]
    by_cases hx : key a = key x
    · rw [withKey_cons_of_eq hx, withKey_cons_of_eq (heq.trans hx), List.getLast?_cons_cons]
    · rw [withKey_cons_of_ne hx]
  | case4 a b l hne ih =>
    rw [List.mem_cons, ih h.of_cons]
    by_cases hx : key a = key x
    · have hnil : withKey key (key x) (b :: l) = [] :=
        withKey_eq_nil fun c hc => hx ▸ h.ne_of_ne hord hne c hc
      rw [withKey_cons_of_eq hx, hnil]
      simp [eq_comm]
    · rw [withKey_cons_of_ne hx]
      refine ⟨?_, .inr⟩
      rintro (rfl | hlast)
      · exact absurd rfl hx
      · exact hlast

end Groups

section Merge

variable {key rank}

omit [DecidableEq κ] in
/-- In a row from rank `p` on, the records of rank `p` come first. -/
lemma takeWhile_eq_filter (hl : Ranked key rank l) (hp : ∀ a ∈ l, p ≤ rank (key a)) :
    l.takeWhile (fun a => rank (key a) = p) = l.filter fun a => rank (key a) = p := by
  induction l with
  | nil => rfl
  | cons a l ih =>
    obtain ⟨hfirst, hrest⟩ := List.pairwise_cons.1 hl
    by_cases ha : rank (key a) = p
    · rw [List.takeWhile_cons_of_pos (by simpa using ha),
        List.filter_cons_of_pos (by simpa using ha),
        ih hrest fun b hb => hp b (.tail _ hb)]
    · rw [List.takeWhile_cons_of_neg (by simpa using ha),
        List.filter_cons_of_neg (by simpa using ha)]
      symm
      rw [List.filter_eq_nil_iff]
      intro b hb
      have := hp a (.head _)
      have := hfirst b hb
      simp only [decide_eq_true_eq]
      omega

omit [DecidableEq κ] in
/-- The rest of the row is above. -/
lemma dropWhile_eq_filter (hl : Ranked key rank l) (hp : ∀ a ∈ l, p ≤ rank (key a)) :
    l.dropWhile (fun a => rank (key a) = p) = l.filter fun a => p < rank (key a) := by
  induction l with
  | nil => rfl
  | cons a l ih =>
    obtain ⟨hfirst, hrest⟩ := List.pairwise_cons.1 hl
    have ha' := hp a (.head _)
    by_cases ha : rank (key a) = p
    · rw [List.dropWhile_cons_of_pos (by simpa using ha),
        List.filter_cons_of_neg (by simp [ha]), ih hrest fun b hb =>
          hp b (.tail _ hb)]
    · rw [List.dropWhile_cons_of_neg (by simpa using ha)]
      symm
      rw [List.filter_eq_self]
      intro b hb
      simp only [decide_eq_true_eq]
      rcases List.mem_cons.1 hb with rfl | hb
      · omega
      · have := hfirst b hb
        omega

omit [DecidableEq κ] in
/-- The lowest rank is that of some record, and no record is below. -/
lemma lowest_spec (hb : Ranked key rank base) (hn : Ranked key rank new)
    (h : lowest key rank base new = some p) :
    (∀ a ∈ base, p ≤ rank (key a)) ∧ (∀ a ∈ new, p ≤ rank (key a)) ∧
      ∃ a ∈ base ++ new, rank (key a) = p := by
  have hfront : ∀ (l : List α) (b : α), Ranked key rank (b :: l) →
      ∀ a ∈ b :: l, rank (key b) ≤ rank (key a) := by
    intro l b hl a ha
    rcases List.mem_cons.1 ha with rfl | ha
    · exact le_refl _
    · exact (List.pairwise_cons.1 hl).1 a ha
  unfold lowest at h
  cases base with
  | nil =>
    cases new with
    | nil => cases h
    | cons a new =>
      cases h
      exact ⟨fun a ha => (by cases ha), hfront new a hn, a, by simp, rfl⟩
  | cons b base =>
    cases new with
    | nil =>
      cases h
      exact ⟨hfront base b hb, fun a ha => (by cases ha), b, by simp, rfl⟩
    | cons a new =>
      cases h
      refine ⟨fun c hc => (min_le_left _ _).trans (hfront base b hb c hc),
        fun c hc => (min_le_right _ _).trans (hfront new a hn c hc), ?_⟩
      rcases min_choice (rank (key b)) (rank (key a)) with hmin | hmin <;> rw [hmin]
      · exact ⟨b, by simp, rfl⟩
      · exact ⟨a, by simp, rfl⟩

omit [DecidableEq κ] in
lemma lowest_eq_none (h : lowest key rank base new = none) :
    base = [] ∧ new = [] := by
  unfold lowest at h
  cases base <;> cases new <;> simp_all

omit [DecidableEq κ] in
lemma mem_keys_filter {q : κ → Bool} {l : List α} {k : κ} :
    k ∈ (l.filter fun a => q (key a)).map key ↔ k ∈ l.map key ∧ q k := by
  simp only [List.mem_map, List.mem_filter]
  constructor
  · rintro ⟨a, ⟨ha, hq⟩, rfl⟩
    exact ⟨⟨a, ha, rfl⟩, hq⟩
  · rintro ⟨⟨a, ha, rfl⟩, hq⟩
    exact ⟨a, ⟨ha, hq⟩, rfl⟩

variable {ord : κ → ℕ}

/-- The last records of the keys that are kept. -/
lemma mem_lastOfGroups_filter (hord : Function.Injective ord) {q : κ → Bool} (h : Grouped key ord l)
    {x : α} :
    x ∈ lastOfGroups key (l.filter fun a => q (key a)) ↔ x ∈ lastOfGroups key l ∧ q (key x) := by
  rw [mem_lastOfGroups hord (List.Pairwise.filter _ h), mem_lastOfGroups hord h]
  by_cases hx : q (key x)
  · have hsame : withKey key (key x) (l.filter fun a => q (key a)) = withKey key (key x) l := by
      unfold withKey
      rw [List.filter_filter]
      refine List.filter_congr fun a _ => ?_
      by_cases ha : key a = key x <;> simp [ha, hx]
    rw [hsame]
    simp [hx]
  · have hnil : withKey key (key x) (l.filter fun a => q (key a)) = [] := by
      refine withKey_eq_nil fun a ha hkey => hx ?_
      rw [← hkey]
      exact (List.mem_filter.1 ha).2
    rw [hnil]
    simp [hx]

/-- What a merge of new records over old ones is. -/
structure Merges (key : α → κ) (rank : κ → ℕ) (base new out : List α) : Prop where
  ranked : Ranked key rank out
  nodup : (out.map key).Nodup
  mem : ∀ x, x ∈ out ↔ x ∈ lastOfGroups key new ∨ x ∈ base ∧ key x ∉ new.map key

/-- One rank of a merge, in front of the merge of the rest. -/
lemma Merges.cons (hord : Function.Injective ord) {base new rest : List α} {p : ℕ}
    (hnodup : (base.map key).Nodup) (hn : Grouped key ord new)
    (hpb : ∀ a ∈ base, p ≤ rank (key a)) (hpn : ∀ a ∈ new, p ≤ rank (key a))
    (hrest : Merges key rank (base.filter fun a => p < rank (key a))
      (new.filter fun a => p < rank (key a)) rest) :
    Merges key rank base new ((base.filter fun a => rank (key a) = p).filter
        (fun a => key a ∉ (lastOfGroups key (new.filter fun a => rank (key a) = p)).map key) ++
      lastOfGroups key (new.filter fun a => rank (key a) = p) ++ rest) := by
  set wins := lastOfGroups key (new.filter fun a => rank (key a) = p) with hwins
  set old :=
    (base.filter fun a => rank (key a) = p).filter (fun a => key a ∉ wins.map key) with hold
  have hwin : ∀ x, x ∈ wins ↔ x ∈ lastOfGroups key new ∧ rank (key x) = p := by
    intro x
    rw [hwins, mem_lastOfGroups_filter hord (q := fun k => rank k = p) hn]
    simp
  have hkeys : ∀ k, k ∈ wins.map key ↔ k ∈ new.map key ∧ rank k = p := by
    intro k
    rw [hwins, mem_keys_lastOfGroups, mem_keys_filter (q := fun k => rank k = p)]
    simp
  have hmemOld : ∀ x, x ∈ old ↔ x ∈ base ∧ rank (key x) = p ∧ key x ∉ new.map key := by
    intro x
    rw [hold, List.mem_filter, List.mem_filter, decide_eq_true_eq, decide_eq_true_eq, hkeys]
    tauto
  have hmemRest : ∀ x, x ∈ rest ↔ p < rank (key x) ∧
      (x ∈ lastOfGroups key new ∨ x ∈ base ∧ key x ∉ new.map key) := by
    intro x
    rw [hrest.mem, mem_lastOfGroups_filter hord (q := fun k => p < rank k) hn, List.mem_filter,
      mem_keys_filter (q := fun k => p < rank k)]
    simp only [decide_eq_true_eq]
    tauto
  have hlast : ∀ x ∈ lastOfGroups key new, p ≤ rank (key x) :=
    fun x hx => hpn x ((lastOfGroups_sublist new).subset hx)
  -- the records in front all have rank `p`, those behind are above
  have hfront : ∀ x ∈ old ++ wins, rank (key x) = p := by
    intro x hx
    rcases List.mem_append.1 hx with hx | hx
    · exact ((hmemOld x).1 hx).2.1
    · exact ((hwin x).1 hx).2
  refine ⟨?_, ?_, fun x => ?_⟩
  · refine List.pairwise_append.2 ⟨?_, hrest.ranked, fun a ha b hb => ?_⟩
    · exact List.pairwise_of_forall_mem_list fun a ha b hb => by rw [hfront a ha, hfront b hb]
    · rw [hfront a ha]
      exact ((hmemRest b).1 hb).1.le
  · rw [List.map_append, List.map_append, List.nodup_append, List.nodup_append]
    refine ⟨⟨?_, ?_, ?_⟩, hrest.nodup, ?_⟩
    · exact hnodup.sublist ((List.filter_sublist.trans List.filter_sublist).map key)
    · exact nodup_lastOfGroups hord (List.Pairwise.filter _ hn)
    · rintro k hk k' hk' rfl
      obtain ⟨x, hx, rfl⟩ := List.mem_map.1 hk
      exact ((hmemOld x).1 hx).2.2 ((hkeys _).1 hk').1
    · rintro k hk k' hk' rfl
      rw [← List.map_append] at hk
      obtain ⟨x, hx, rfl⟩ := List.mem_map.1 hk
      obtain ⟨y, hy, hxy⟩ := List.mem_map.1 hk'
      have hlt := ((hmemRest y).1 hy).1
      rw [hxy, hfront x hx] at hlt
      omega
  · rw [List.mem_append, List.mem_append, hmemOld, hwin, hmemRest]
    constructor
    · tauto
    · intro hx
      have hle : p ≤ rank (key x) := by
        rcases hx with hx | ⟨hx, -⟩
        · exact hlast x hx
        · exact hpb x hx
      rcases Nat.lt_or_eq_of_le hle with hlt | heq
      · exact .inr ⟨hlt, hx⟩
      · rcases hx with hx | ⟨hx, hkey⟩
        · exact .inl (.inr ⟨hx, heq.symm⟩)
        · exact .inl (.inl ⟨hx, heq.symm, hkey⟩)

/-- **The merged row** is sorted, has every key once, and holds the last of the new records and the
old ones without a successor.

**Proof sketch.** By induction on the fuel: what the loop takes from the two rows are the records of
the lowest rank. -/
theorem mergeRuns_spec (hord : Function.Injective ord)
    (hmono : ∀ k k', ord k ≤ ord k' → rank k ≤ rank k') {fuel : ℕ} (hb : Ranked key rank base)
    (hnodup : (base.map key).Nodup) (hn : Grouped key ord new)
    (hfuel : base.length + new.length ≤ fuel) :
    Merges key rank base new (mergeRuns key rank fuel base new) := by
  induction fuel generalizing base new with
  | zero =>
    obtain rfl : base = [] := List.length_eq_zero_iff.1 (by omega)
    obtain rfl : new = [] := List.length_eq_zero_iff.1 (by omega)
    exact ⟨.nil, List.nodup_nil, fun x => by simp [mergeRuns, lastOfGroups]⟩
  | succ fuel ih =>
    have hn' : Ranked key rank new := hn.imp fun {a b} hab => hmono _ _ hab
    unfold mergeRuns
    split
    · rename_i hnone
      obtain ⟨rfl, rfl⟩ := lowest_eq_none hnone
      exact ⟨.nil, List.nodup_nil, fun x => by simp [lastOfGroups]⟩
    · rename_i p hp
      obtain ⟨hpb, hpn, a, ha, hap⟩ := lowest_spec hb hn' hp
      simp only
      rw [takeWhile_eq_filter hb hpb, takeWhile_eq_filter hn' hpn, dropWhile_eq_filter hb hpb,
        dropWhile_eq_filter hn' hpn]
      refine Merges.cons hord hnodup hn hpb hpn (ih (List.Pairwise.filter _ hb) ?_
        (List.Pairwise.filter _ hn) ?_)
      · exact hnodup.sublist (List.filter_sublist.map key)
      · have hshort : ((base ++ new).filter fun a => p < rank (key a)).length <
            (base ++ new).length :=
          List.length_filter_lt_length_iff_exists.2 ⟨a, ha, by simp [hap]⟩
        rw [List.filter_append, List.length_append, List.length_append] at hshort
        omega

end Merge

end RunMerge
