import DiskNexus.Index.HashTable

/-!
# Building the disk hash table

The table is rebuilt from the sorted index file at every open, in `K` passes over segments of the
slot range: entries that find no room in their segment are carried to the next one, and those
carried out of the last segment wrap around to slot zero.

## Main results

`buildHashTable_ok`, `lookup_buildHashTable`
-/

namespace DiskNexus.Index

open Binary Sha256 Probing Function

/-! ## The segmented build -/

/-- The number of segments and the bound on the slots of one. -/
def htabBuildK : ℕ := 8

@[inherit_doc htabBuildK] def htabBuildSegTarget : ℕ := 24 * 2 ^ 20

/-- The state of a build: the slots, their number, and the entries carried out of the segments
behind. -/
structure Build where
  slots : ℕ → IndexEntry
  count : ℕ
  carry : List IndexEntry

/-- The first vacant slot among `fuel` slots from `p` on. -/
def nextFree (T : ℕ → IndexEntry) : ℕ → ℕ → Option ℕ
  | 0, _ => none
  | fuel + 1, p => if (T p).strongHash = .zero then some p else nextFree T fuel (p + 1)

/-- Place the carried entries from slot `nf` on, up to `segEnd`. -/
def placeCarry (segEnd : ℕ) : ℕ → List IndexEntry → Build → Build
  | _, [], b => b
  | nf, e :: rest, b =>
    match nextFree b.slots (segEnd - nf) nf with
    | some p => placeCarry segEnd (p + 1) rest
        { b with slots := update b.slots p e, count := b.count + 1 }
    | none =>
      let b' := placeCarry segEnd segEnd rest b
      { b' with carry := e :: b'.carry }

/-- Probe `fuel` slots from `p` on, without wrapping around. -/
def probeSegment (T : ℕ → IndexEntry) (h : Hash) : ℕ → ℕ → Seek
  | 0, _ => .full
  | fuel + 1, p =>
    if (T p).strongHash = .zero then .vacant p
    else if (T p).strongHash = h then .found p
    else probeSegment T h fuel (p + 1)

/-- Probe one entry of a segment's bucket from its home slot, up to `segEnd`. -/
def placeEntry (n segEnd : ℕ) (b : Build) (e : IndexEntry) : Build :=
  let home := hashPrefix8 e.strongHash % n
  match probeSegment b.slots e.strongHash (segEnd - home) home with
  | .vacant p => { b with slots := update b.slots p e, count := b.count + 1 }
  | .found _ => b
  | .full => { b with carry := b.carry ++ [e] }

/-- The bucket of a segment: the entries whose home slot lies in it. -/
def bucketOf (n segSize K : ℕ) (e : IndexEntry) : ℕ :=
  min (hashPrefix8 e.strongHash % n / segSize) (K - 1)

/-- The entries of a bucket in the order of their home slots. -/
def sortByHome (n : ℕ) (es : List IndexEntry) : List IndexEntry :=
  es.mergeSort fun a b => hashPrefix8 a.strongHash % n ≤ hashPrefix8 b.strongHash % n

/-- Build one segment. -/
def buildSegment (n segSize K : ℕ) (es : List IndexEntry) (b : Build) (k : ℕ) : Build :=
  let segStart := k * segSize
  let segEnd := min (segStart + segSize) n
  let b := placeCarry segEnd segStart b.carry { b with carry := [] }
  (sortByHome n (es.filter fun e => bucketOf n segSize K e = k)).foldl (placeEntry n segEnd) b

/-- Place the entries carried out of the last segment from slot zero on. -/
def wrapAround (n : ℕ) : List IndexEntry → Build → Option Build
  | [], b => some b
  | e :: rest, b =>
    match probeSegment b.slots e.strongHash n 0 with
    | .vacant p => wrapAround n rest
        { b with slots := update b.slots p e, count := b.count + 1 }
    | .found _ => wrapAround n rest b
    | .full => none

/-- The number of slots for a number of entries. -/
def slotsFor (numEntries : ℕ) : ℕ := max (numEntries * 2) 1024

/-- The number of segments for a number of slots. -/
def segmentsFor (n : ℕ) : ℕ :=
  let maxSegSlots := htabBuildSegTarget / entrySize
  if n > maxSegSlots * htabBuildK then (n + maxSegSlots - 1) / maxSegSlots else htabBuildK

lemma slotsFor_pos (m : ℕ) : 0 < slotsFor m := by
  unfold slotsFor
  omega

/-- `buildHashTable`, from the entries of the sorted file. -/
def buildHashTable (es : List IndexEntry) : Option DiskHashTable :=
  let n := slotsFor es.length
  let K := segmentsFor n
  let segSize := (n + K - 1) / K
  let b := (List.range K).foldl (buildSegment n segSize K es) ⟨fun _ => .empty, 0, []⟩
  (wrapAround n b.carry { b with carry := [] }).map fun b =>
    ⟨n, b.slots, b.count, slotsFor_pos es.length⟩

/-! ## The segmented build is correct -/

variable {T : ℕ → IndexEntry} {count p segEnd segSize K : ℕ} {pend : List IndexEntry}
  {e : IndexEntry} {b : Build}

section BuildCorrect

variable {n : ℕ} {hn : 0 < n} {all : List IndexEntry}

/-- The invariant of a build: `T` holds the entries of `all` that are not pending. -/
structure Placed (n : ℕ) (hn : 0 < n) (all : List IndexEntry) (T : ℕ → IndexEntry) (count : ℕ)
    (pend : List IndexEntry) : Prop where
  packed : (tableLayout n hn).Packed T
  unique : (tableLayout n hn).Unique T
  occupied_le : (tableLayout n hn).occupied T ≤ count
  count_add : count + pend.length = all.length
  mem_iff : ∀ e, (e.strongHash ≠ .zero ∧ ∃ i < n, T i = e) ∨ e ∈ pend ↔ e ∈ all
  fresh : ∀ e ∈ pend, ¬ (tableLayout n hn).Holds T e.strongHash
  nodup : (pend.map (·.strongHash)).Nodup

lemma Placed.perm {pend' : List IndexEntry} (h : Placed n hn all T count pend)
    (hp : pend.Perm pend') : Placed n hn all T count pend' where
  packed := h.packed
  unique := h.unique
  occupied_le := h.occupied_le
  count_add := hp.length_eq ▸ h.count_add
  mem_iff e := by rw [← hp.mem_iff]; exact h.mem_iff e
  fresh e he := h.fresh e (hp.mem_iff.2 he)
  nodup := (hp.map _).nodup_iff.1 h.nodup

/-- A pending entry at the end of an occupied path from its home. -/
lemma Placed.place (h : Placed n hn all T count (e :: pend)) (he : e.strongHash ≠ .zero) {q : ℕ}
    (hq : q < n) (hvacant : (T ((tableLayout n hn).slot e.strongHash q)).strongHash = .zero)
    (hpath : ∀ q' < q, (T ((tableLayout n hn).slot e.strongHash q')).strongHash ≠ .zero) :
    Placed n hn all (update T ((tableLayout n hn).slot e.strongHash q) e) (count + 1)
      pend := by
  set i := (tableLayout n hn).slot e.strongHash q with hi
  have hin : i < n := (tableLayout n hn).slot_lt _ _
  have hkey : (tableLayout n hn).key e = some e.strongHash := key_eq_some_iff.2 ⟨rfl, he⟩
  obtain ⟨hhash, hnodup⟩ := List.nodup_cons.1 h.nodup
  refine ⟨?_, h.unique.update (h.fresh e (.head _)) hkey, ?_, ?_, fun a => ?_,
    fun a ha => ?_, hnodup⟩
  · exact h.packed.update_of_path hq (fun q' hq' => key_isSome_iff.2 (hpath q' hq')) hkey
  · exact (Layout.occupied_update_le i e).trans (Nat.add_le_add_right h.occupied_le 1)
  · have := h.count_add
    rw [List.length_cons] at this
    omega
  · -- the entry moves from the pending ones into its slot, which was vacant
    rw [← h.mem_iff a, List.mem_cons]
    constructor
    · rintro (⟨ha, j, hj, hja⟩ | ha)
      · by_cases hji : j = i
        · rw [hji, update_self] at hja
          exact .inr (.inl hja.symm)
        · rw [update_of_ne hji] at hja
          exact .inl ⟨ha, j, hj, hja⟩
      · exact .inr (.inr ha)
    · rintro (⟨ha, j, hj, hja⟩ | rfl | ha)
      · have hji : j ≠ i := by
          rintro rfl
          exact ha (hja ▸ hvacant)
        exact .inl ⟨ha, j, hj, by rwa [update_of_ne hji]⟩
      · exact .inl ⟨he, i, hin, update_self _ _ _⟩
      · exact .inr ha
  · rintro ⟨j, hj, hja⟩
    by_cases hji : j = i
    · rw [hji, update_self, hkey] at hja
      exact hhash (List.mem_map.2 ⟨a, ha, (Option.some.inj hja).symm⟩)
    · rw [update_of_ne hji] at hja
      exact h.fresh a (.tail _ ha) ⟨j, hj, hja⟩

/-- The slots from the home of an entry up to `m` are occupied. -/
def FilledTo (n : ℕ) (T : ℕ → IndexEntry) (e : IndexEntry) (m : ℕ) : Prop :=
  ∀ j, hashPrefix8 e.strongHash % n ≤ j → j < m → j < n → (T j).strongHash ≠ .zero

/-- Slots that are occupied stay occupied. -/
def StaysFilled (T T' : ℕ → IndexEntry) : Prop :=
  ∀ j, (T j).strongHash ≠ .zero → (T' j).strongHash ≠ .zero

lemma StaysFilled.update (he : e.strongHash ≠ .zero) (p : ℕ) :
    StaysFilled T (update T p e) := by
  intro j hj
  by_cases h : j = p
  · subst h
    simpa using he
  · rwa [update_of_ne h]

lemma StaysFilled.trans {T₁ T₂ T₃ : ℕ → IndexEntry} (h : StaysFilled T₁ T₂)
    (h' : StaysFilled T₂ T₃) : StaysFilled T₁ T₃ := fun j hj => h' j (h j hj)

lemma FilledTo.mono {T' : ℕ → IndexEntry} {m : ℕ} (h : FilledTo n T e m) (hT : StaysFilled T T') :
    FilledTo n T' e m := fun j h1 h2 h3 => hT j (h j h1 h2 h3)

/-- An entry that found no slot between its home and `m`. -/
def Carried (n : ℕ) (T : ℕ → IndexEntry) (m : ℕ) (e : IndexEntry) : Prop :=
  hashPrefix8 e.strongHash % n ≤ m ∧ FilledTo n T e m

lemma Carried.mono {T' : ℕ → IndexEntry} {m : ℕ} (h : Carried n T m e) (hT : StaysFilled T T') :
    Carried n T' m e := ⟨h.1, h.2.mono hT⟩

/-- Placing an entry ahead of its home. -/
lemma Placed.place_forward (h : Placed n hn all T count (e :: pend)) (he : e.strongHash ≠ .zero)
    (hp : p < n) (hhome : hashPrefix8 e.strongHash % n ≤ p) (hvacant : (T p).strongHash = .zero)
    (hfill : FilledTo n T e p) :
    Placed n hn all (update T p e) (count + 1) pend := by
  have hslot : ∀ q, hashPrefix8 e.strongHash % n + q < n →
      (tableLayout n hn).slot e.strongHash q = hashPrefix8 e.strongHash % n + q :=
    fun q hq => Nat.mod_eq_of_lt hq
  have hpq : (tableLayout n hn).slot e.strongHash (p - hashPrefix8 e.strongHash % n) = p := by
    rw [hslot _ (by omega)]
    omega
  have hplace := h.place he (q := p - hashPrefix8 e.strongHash % n) (by omega) (by rwa [hpq])
    (fun q' hq' => by
      rw [hslot q' (by omega)]
      exact hfill _ (by omega) (by omega) (by omega))
  rwa [hpq] at hplace

/-- The slots from `p` up to `m` are occupied. -/
def Filled (T : ℕ → IndexEntry) (p m : ℕ) : Prop := ∀ j, p ≤ j → j < m → (T j).strongHash ≠ .zero

lemma Filled.empty (T : ℕ → IndexEntry) (p : ℕ) : Filled T p p := fun j h1 h2 => by omega

lemma Filled.cons {m : ℕ} (hp : (T p).strongHash ≠ .zero) (h : Filled T (p + 1) m) :
    Filled T p m := by
  intro j h1 h2
  rcases Nat.eq_or_lt_of_le h1 with rfl | hlt
  · exact hp
  · exact h j hlt h2

lemma FilledTo.extend {m m' : ℕ} (h : FilledTo n T e m) (h' : Filled T m m') :
    FilledTo n T e m' := by
  intro j h1 h2 h3
  by_cases hj : j < m
  · exact h j h1 hj h3
  · exact h' j (by omega) h2

lemma nextFree_cases (T : ℕ → IndexEntry) (fuel p : ℕ) :
    (∃ q, nextFree T fuel p = some q ∧ p ≤ q ∧ q < p + fuel ∧ (T q).strongHash = .zero ∧
      Filled T p q) ∨ nextFree T fuel p = none ∧ Filled T p (p + fuel) := by
  induction fuel generalizing p with
  | zero => exact .inr ⟨rfl, .empty T p⟩
  | succ fuel ih =>
    unfold nextFree
    by_cases hp : (T p).strongHash = .zero
    · exact .inl ⟨p, if_pos hp, le_rfl, by omega, hp, .empty T p⟩
    · rw [if_neg hp, ← Nat.add_assoc, Nat.add_right_comm]
      rcases ih (p + 1) with ⟨q, hq, h1, h2, hvacant, hfill⟩ | ⟨hnone, hfill⟩
      · exact .inl ⟨q, hq, by omega, h2, hvacant, hfill.cons hp⟩
      · exact .inr ⟨hnone, hfill.cons hp⟩

/-- Placing the entries carried into a segment. -/
lemma placeCarry_ok (hall : ∀ e ∈ all, e.strongHash ≠ .zero) (hend : segEnd ≤ n)
    (cs rest : List IndexEntry) (nf : ℕ) (b : Build) (hb : b.carry = [])
    (hP : Placed n hn all b.slots b.count (cs ++ rest))
    (hcs : ∀ e ∈ cs, hashPrefix8 e.strongHash % n ≤ segEnd ∧ Carried n b.slots nf e) :
    Placed n hn all (placeCarry segEnd nf cs b).slots (placeCarry segEnd nf cs b).count
        ((placeCarry segEnd nf cs b).carry ++ rest) ∧
      (∀ e ∈ (placeCarry segEnd nf cs b).carry,
        Carried n (placeCarry segEnd nf cs b).slots segEnd e) ∧
      StaysFilled b.slots (placeCarry segEnd nf cs b).slots := by
  induction cs generalizing rest nf b with
  | nil =>
    refine ⟨by simpa [placeCarry, hb] using hP, by simp [placeCarry, hb], fun _ h => h⟩
  | cons e cs ih =>
    have he : e.strongHash ≠ .zero := hall e ((hP.mem_iff e).1 (.inr (by simp)))
    obtain ⟨hhomeEnd, hhome, hfill⟩ := hcs e (.head _)
    unfold placeCarry
    rcases nextFree_cases b.slots (segEnd - nf) nf with ⟨p, hfree, h1, h2, hvacant, hbetween⟩ |
      ⟨hfree, hfull⟩
    · simp only [hfree]
      have hstay := StaysFilled.update (T := b.slots) he p
      have hplace := Placed.place_forward hP he (by omega) (by omega) hvacant
        (hfill.extend hbetween)
      obtain ⟨hP', hcarry', hstay'⟩ := ih rest (p + 1)
        ⟨update b.slots p e, b.count + 1, b.carry⟩ hb hplace (fun a ha => by
          obtain ⟨ha1, ha2, ha3⟩ := hcs a (.tail _ ha)
          refine ⟨ha1, by omega, fun j hj1 hj2 hj3 => ?_⟩
          rcases Nat.lt_succ_iff_lt_or_eq.1 hj2 with hj | rfl
          · exact (ha3.extend hbetween).mono hstay j hj1 hj hj3
          · simpa using he)
      exact ⟨hP', hcarry', hstay.trans hstay'⟩
    · -- the segment is full from here on: this entry and the ones after it are carried
      simp only [hfree]
      have hfillEnd : Filled b.slots nf segEnd := fun j hj1 hj2 => hfull j hj1 (by omega)
      obtain ⟨hP', hcarry', hstay'⟩ := ih (e :: rest) segEnd b hb
        (hP.perm List.perm_middle.symm) (fun a ha => by
          obtain ⟨ha1, ha2, ha3⟩ := hcs a (.tail _ ha)
          exact ⟨ha1, ha1, ha3.extend hfillEnd⟩)
      refine ⟨hP'.perm List.perm_middle, fun a ha => ?_, hstay'⟩
      rcases List.mem_cons.1 ha with rfl | ha
      · exact ⟨hhomeEnd, (hfill.extend hfillEnd).mono hstay'⟩
      · exact hcarry' a ha

/-- Probing a segment for a hash that it does not hold. -/
lemma probeSegment_cases (T : ℕ → IndexEntry) (h : Hash) (fuel p : ℕ) :
    (∃ q, p ≤ q ∧ q < p + fuel ∧ (T q).strongHash = .zero ∧ Filled T p q ∧
        probeSegment T h fuel p = .vacant q) ∨
      (∃ q < p + fuel, (T q).strongHash = h) ∨
      (Filled T p (p + fuel) ∧ probeSegment T h fuel p = .full) := by
  induction fuel generalizing p with
  | zero => exact .inr (.inr ⟨.empty T p, rfl⟩)
  | succ fuel ih =>
    unfold probeSegment
    by_cases hzero : (T p).strongHash = .zero
    · exact .inl ⟨p, le_rfl, by omega, hzero, .empty T p, by simp [hzero]⟩
    by_cases hh : (T p).strongHash = h
    · exact .inr (.inl ⟨p, by omega, hh⟩)
    rw [if_neg hzero, if_neg hh, ← Nat.add_assoc, Nat.add_right_comm]
    rcases ih (p + 1) with ⟨q, h1, h2, h3, h4, h5⟩ | hheld | ⟨h1, h2⟩
    · exact .inl ⟨q, by omega, h2, h3, h4.cons hzero, h5⟩
    · exact .inr (.inl hheld)
    · exact .inr (.inr ⟨h1.cons hzero, h2⟩)

/-- Placing one entry of a segment's bucket. -/
lemma placeEntry_ok (hall : ∀ e ∈ all, e.strongHash ≠ .zero) (hend : segEnd ≤ n)
    {rest : List IndexEntry} (hP : Placed n hn all b.slots b.count (b.carry ++ e :: rest))
    (hhome : hashPrefix8 e.strongHash % n < segEnd)
    (hcarry : ∀ a ∈ b.carry, Carried n b.slots segEnd a) :
    Placed n hn all (placeEntry n segEnd b e).slots (placeEntry n segEnd b e).count
        ((placeEntry n segEnd b e).carry ++ rest) ∧
      ∀ a ∈ (placeEntry n segEnd b e).carry,
        Carried n (placeEntry n segEnd b e).slots segEnd a := by
  have hP' : Placed n hn all b.slots b.count (e :: (b.carry ++ rest)) :=
    hP.perm List.perm_middle
  have he : e.strongHash ≠ .zero := hall e ((hP'.mem_iff e).1 (.inr (by simp)))
  unfold placeEntry
  rcases probeSegment_cases b.slots e.strongHash (segEnd - hashPrefix8 e.strongHash % n)
      (hashPrefix8 e.strongHash % n) with ⟨p, h1, h2, hvacant, hfill, hs⟩ | ⟨p, h2, hsame⟩ |
      ⟨hfull, hs⟩
  · simp only [hs]
    refine ⟨Placed.place_forward hP' he (by omega) h1 hvacant fun j hj1 hj2 _ => hfill j hj1 hj2,
      fun a ha => (hcarry a ha).mono (StaysFilled.update he p)⟩
  · -- a pending entry is not in the table yet
    exact absurd ⟨p, by show p < n; omega, key_eq_some_iff.2 ⟨hsame, he⟩⟩
      (hP'.fresh e (.head _))
  · simp only [hs]
    refine ⟨by simpa using hP, fun a ha => ?_⟩
    rcases List.mem_append.1 ha with ha | ha
    · exact hcarry a ha
    · obtain rfl := List.mem_singleton.1 ha
      exact ⟨hhome.le, fun j hj1 hj2 _ => hfull j hj1 (by omega)⟩

/-- Placing a segment's bucket. -/
lemma foldl_placeEntry_ok (hall : ∀ e ∈ all, e.strongHash ≠ .zero) (hend : segEnd ≤ n)
    {bucket rest : List IndexEntry}
    (hP : Placed n hn all b.slots b.count (b.carry ++ (bucket ++ rest)))
    (hhome : ∀ e ∈ bucket, hashPrefix8 e.strongHash % n < segEnd)
    (hcarry : ∀ a ∈ b.carry, Carried n b.slots segEnd a) :
    Placed n hn all (bucket.foldl (placeEntry n segEnd) b).slots
        (bucket.foldl (placeEntry n segEnd) b).count
        ((bucket.foldl (placeEntry n segEnd) b).carry ++ rest) ∧
      ∀ a ∈ (bucket.foldl (placeEntry n segEnd) b).carry,
        Carried n (bucket.foldl (placeEntry n segEnd) b).slots segEnd a := by
  induction bucket generalizing b with
  | nil => exact ⟨by simpa using hP, hcarry⟩
  | cons e bucket ih =>
    obtain ⟨hP', hcarry'⟩ := placeEntry_ok hall hend hP (hhome e (.head _)) hcarry
    exact ih hP' (fun a ha => hhome a (.tail _ ha)) hcarry'

/-- The segments up to `k` are built: what is pending is carried or in a later bucket. -/
structure SegmentsBuilt (n : ℕ) (hn : 0 < n) (segSize K : ℕ) (all : List IndexEntry) (b : Build)
    (k : ℕ) : Prop where
  placed : Placed n hn all b.slots b.count
    (b.carry ++ all.filter fun e => k ≤ bucketOf n segSize K e)
  carry : ∀ e ∈ b.carry, Carried n b.slots (k * segSize) e

/-- The home of an entry lies in the segment of its bucket. -/
lemma bucketOf_eq (hsize : n ≤ K * segSize) (e : IndexEntry) (hn : 0 < n) :
    bucketOf n segSize K e = hashPrefix8 e.strongHash % n / segSize := by
  have hlt : hashPrefix8 e.strongHash % n < n := Nat.mod_lt _ hn
  have hdiv : hashPrefix8 e.strongHash % n / segSize < K :=
    Nat.div_lt_of_lt_mul (by rw [Nat.mul_comm]; omega)
  unfold bucketOf
  omega

/-- Building one segment. -/
lemma buildSegment_ok (hall : ∀ e ∈ all, e.strongHash ≠ .zero) {k : ℕ} (hseg : 0 < segSize)
    (hsize : n ≤ K * segSize) (h : SegmentsBuilt n hn segSize K all b k) :
    SegmentsBuilt n hn segSize K all (buildSegment n segSize K all b k) (k + 1) := by
  set segEnd := min (k * segSize + segSize) n with hsegEnd
  have hend : segEnd ≤ n := min_le_right _ _
  have hlt : ∀ e : IndexEntry, hashPrefix8 e.strongHash % n < n := fun e => Nat.mod_lt _ hn
  set bucket := sortByHome n (all.filter fun e => bucketOf n segSize K e = k) with hbucket
  have hperm : bucket.Perm (all.filter fun e => bucketOf n segSize K e = k) :=
    List.mergeSort_perm _ _
  -- the entries of the buckets from `k` on are those of bucket `k` and of the later ones
  have hsplit : (all.filter fun e => k ≤ bucketOf n segSize K e).Perm
      (bucket ++ all.filter fun e => k + 1 ≤ bucketOf n segSize K e) := by
    refine List.Perm.trans ?_ (hperm.symm.append_right _)
    refine ((List.filter_append_perm (fun e => bucketOf n segSize K e = k) _).symm).trans ?_
    rw [List.filter_filter, List.filter_filter]
    refine List.Perm.of_eq (congrArg₂ _ (List.filter_congr fun e _ => ?_)
      (List.filter_congr fun e _ => ?_))
    · by_cases he : bucketOf n segSize K e = k <;> simp [he]
    · by_cases he : bucketOf n segSize K e = k
      · simp [he]
      · simp only [he, decide_false, Bool.not_false, Bool.true_and, decide_eq_decide]
        omega
  have hhome : ∀ e ∈ bucket, hashPrefix8 e.strongHash % n < segEnd := by
    intro e he
    have hbk : bucketOf n segSize K e = k := by
      simpa using (List.mem_filter.1 (hperm.mem_iff.1 he)).2
    rw [bucketOf_eq hsize e hn] at hbk
    have hnext : hashPrefix8 e.strongHash % n < (k + 1) * segSize :=
      Nat.lt_mul_of_div_lt (by omega) hseg
    rw [Nat.succ_mul] at hnext
    exact lt_min hnext (hlt e)
  obtain ⟨hP1, hcarry1, -⟩ := placeCarry_ok hall hend b.carry
    (bucket ++ all.filter fun e => k + 1 ≤ bucketOf n segSize K e) (k * segSize)
    { b with carry := [] } rfl (h.placed.perm (hsplit.append_left _)) (fun e he => by
      obtain ⟨h1, h2⟩ := h.carry e he
      have := hlt e
      exact ⟨by omega, h1, h2⟩)
  obtain ⟨hP2, hcarry2⟩ := foldl_placeEntry_ok hall hend hP1 hhome hcarry1
  refine ⟨hP2, fun e he => ?_⟩
  obtain ⟨h1, h2⟩ := hcarry2 e he
  rw [Nat.succ_mul]
  exact ⟨by omega, fun j hj1 hj2 hj3 => h2 j hj1 (by omega) hj3⟩

/-- Building the segments one after the other. -/
lemma segmentsBuilt_foldl (hall : ∀ e ∈ all, e.strongHash ≠ .zero) (hseg : 0 < segSize)
    (hsize : n ≤ K * segSize) (h : SegmentsBuilt n hn segSize K all b 0) (k : ℕ) :
    SegmentsBuilt n hn segSize K all
      ((List.range k).foldl (buildSegment n segSize K all) b) k := by
  induction k with
  | zero => exact h
  | succ k ih =>
    rw [List.range_succ, List.foldl_append]
    exact buildSegment_ok hall hseg hsize ih

/-- An entry whose path wraps around the end of the table. -/
lemma Placed.place_wrapped (h : Placed n hn all T count (e :: pend)) (he : e.strongHash ≠ .zero)
    (hp : p < n) (hvacant : (T p).strongHash = .zero) (hfill : FilledTo n T e n)
    (hfront : ∀ j < p, (T j).strongHash ≠ .zero) :
    Placed n hn all (update T p e) (count + 1) pend := by
  set home := hashPrefix8 e.strongHash % n with hhome
  have hlt : home < n := Nat.mod_lt _ hn
  -- the slots from the home on are occupied, so the vacant one lies before it
  have hph : p < home := by
    by_contra hcon
    exact hfill p (by omega) hp hp hvacant
  have hslot : ∀ q, (tableLayout n hn).slot e.strongHash q = (home + q) % n := fun q => rfl
  have hpq : (tableLayout n hn).slot e.strongHash (n - home + p) = p := by
    rw [hslot, show home + (n - home + p) = p + n by omega, Nat.add_mod_right,
      Nat.mod_eq_of_lt hp]
  have hplace := h.place he (q := n - home + p) (by omega) (by rwa [hpq]) (fun q' hq' => by
    rw [hslot]
    by_cases hq : home + q' < n
    · rw [Nat.mod_eq_of_lt hq]
      exact hfill _ (by omega) hq hq
    · rw [show home + q' = (home + q' - n) + n by omega, Nat.add_mod_right,
        Nat.mod_eq_of_lt (by omega)]
      exact hfront _ (by omega))
  rwa [hpq] at hplace

/-- A table without a vacant slot. -/
lemma le_occupied_of_forall (h : ∀ j < n, (T j).strongHash ≠ .zero) :
    n ≤ (tableLayout n hn).occupied T := by
  have hall : (Finset.range n).filter (fun i => ((tableLayout n hn).key (T i)).isSome) =
      Finset.range n := Finset.filter_true_of_mem fun i hi =>
    key_isSome_iff.2 (h i (Finset.mem_range.1 hi))
  show n ≤ ((Finset.range n).filter fun i => ((tableLayout n hn).key (T i)).isSome).card
  rw [hall, Finset.card_range]

/-- Placing the entries carried out of the last segment. -/
lemma wrapAround_ok (hall : ∀ e ∈ all, e.strongHash ≠ .zero) (hroom : all.length < n)
    {cs : List IndexEntry} (hP : Placed n hn all b.slots b.count cs)
    (hcs : ∀ e ∈ cs, FilledTo n b.slots e n) :
    ∃ b', wrapAround n cs b = some b' ∧ Placed n hn all b'.slots b'.count [] := by
  induction cs generalizing b with
  | nil => exact ⟨b, rfl, hP⟩
  | cons e cs ih =>
    have he : e.strongHash ≠ .zero := hall e ((hP.mem_iff e).1 (.inr (by simp)))
    unfold wrapAround
    rcases probeSegment_cases b.slots e.strongHash n 0 with ⟨p, -, h2, hvacant, hfill, hs⟩ |
        ⟨p, h2, hsame⟩ | ⟨hfull, -⟩
    · simp only [hs]
      rw [Nat.zero_add] at h2
      refine ih (hP.place_wrapped he h2 hvacant (hcs e (.head _))
        fun j hj => hfill j (Nat.zero_le _) hj) fun a ha => ?_
      exact (hcs a (.tail _ ha)).mono (StaysFilled.update he p)
    · exact absurd ⟨p, by show p < n; omega, key_eq_some_iff.2 ⟨hsame, he⟩⟩
        (hP.fresh e (.head _))
    · -- there are fewer entries than slots
      have hle : n ≤ (tableLayout n hn).occupied b.slots :=
        le_occupied_of_forall fun j hj => hfull j (Nat.zero_le _) (by omega)
      have := hP.occupied_le
      have := hP.count_add
      omega

end BuildCorrect

lemma segmentsFor_pos (n : ℕ) : 0 < segmentsFor n := by
  have hmax : htabBuildSegTarget / entrySize = 524288 := by decide
  unfold segmentsFor
  simp only [hmax, htabBuildK]
  split
  · omega
  · decide

/-- **The segmented build.** From entries with distinct, nonzero hashes the build produces a table
that holds exactly them and finds each of them.

**Proof sketch.** A carried entry found every slot from its home to the end of the last segment
occupied, so wherever it is placed next its path is occupied; a bucket entry is placed at the end of
the occupied slots from its home on. Entries carried out of the last segment find room because there
are twice as many slots as entries. -/
theorem buildHashTable_ok {es : List IndexEntry} (hes : ∀ e ∈ es, e.strongHash ≠ .zero)
    (hnodup : (es.map (·.strongHash)).Nodup) :
    ∃ t, buildHashTable es = some t ∧ t.Good ∧ ∀ e, t.Stored e ↔ e ∈ es := by
  set n := slotsFor es.length with hn
  have hpos : 0 < n := slotsFor_pos es.length
  have hroom : es.length < n := by
    rw [hn, slotsFor]
    omega
  set K := segmentsFor n with hK
  have hKpos : 0 < K := segmentsFor_pos n
  set segSize := (n + K - 1) / K with hsegSize
  have hseg : 0 < segSize := Nat.div_pos (by omega) hKpos
  have hsize : n ≤ K * segSize := by
    have h1 := Nat.lt_mul_div_succ (n + K - 1) hKpos
    rw [← hsegSize, Nat.mul_succ] at h1
    omega
  have hstart : SegmentsBuilt n hpos segSize K es ⟨fun _ => .empty, 0, []⟩ 0 := by
    have hgood := DiskHashTable.create_good n hpos
    refine ⟨⟨hgood.packed, hgood.unique, hgood.occupied_le, by simp, fun e => ?_,
      fun e _ => ?_, by simpa using hnodup⟩, by simp⟩
    · simp only [List.nil_append, Nat.zero_le, decide_true, List.filter_true, or_iff_right_iff_imp]
      rintro ⟨hne, i, -, rfl⟩
      exact absurd rfl hne
    · rintro ⟨i, -, hi⟩
      exact (key_eq_some_iff.1 hi).2 (key_eq_some_iff.1 hi).1.symm
  obtain ⟨hP, hcarry⟩ := segmentsBuilt_foldl hes hseg hsize hstart K
  set b := (List.range K).foldl (buildSegment n segSize K es) ⟨fun _ => .empty, 0, []⟩ with hb
  have hnone : es.filter (fun e => K ≤ bucketOf n segSize K e) = [] := by
    refine List.filter_eq_nil_iff.2 fun e _ => ?_
    have : bucketOf n segSize K e ≤ K - 1 := min_le_right _ _
    simp only [decide_eq_true_eq]
    omega
  rw [hnone, List.append_nil] at hP
  obtain ⟨b', hwrap, hP'⟩ := wrapAround_ok hes hroom
    (b := { b with carry := [] }) hP fun e he j hj1 hj2 hj3 =>
      (hcarry e he).2 j hj1 (by omega) hj3
  refine ⟨⟨n, b'.slots, b'.count, hpos⟩, ?_, ⟨hP'.packed, hP'.unique, hP'.occupied_le⟩,
    fun e => ?_⟩
  · unfold buildHashTable
    simp only [← hn, ← hK, ← hsegSize, ← hb, hwrap, Option.map_some]
  · simpa [DiskHashTable.Stored] using hP'.mem_iff e

/-- The lookups of a table built from distinct, nonzero hashes. -/
theorem lookup_buildHashTable {es : List IndexEntry} (hes : ∀ e ∈ es, e.strongHash ≠ .zero)
    (hnodup : (es.map (·.strongHash)).Nodup) :
    ∃ t, buildHashTable es = some t ∧ t.Good ∧ t.lookup = overlay (fun _ => none) es := by
  obtain ⟨t, ht, hgood, hstored⟩ := buildHashTable_ok hes hnodup
  refine ⟨t, ht, hgood, ?_⟩
  funext h
  refine Option.ext fun e => ?_
  rw [DiskHashTable.lookup_eq_some_iff hgood, overlay_eq_some_iff hnodup, hstored]
  simp [and_comm]

end DiskNexus.Index
