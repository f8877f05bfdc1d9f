import DiskNexus.Index.Entry
import DiskNexus.Lib.Probing

/-!
# The disk hash table

`diskHashTable` is an open-addressed table of index entries. A slot with an all-zero hash is
vacant. The operations refine those of a finite map from hashes to entries.

## Main results

`DiskHashTable.insert_ok`, `DiskHashTable.grow_ok`, `DiskHashTable.insertGrowing_ok`
-/

namespace DiskNexus.Index

open Binary Sha256 Probing Function

/-- The contents of a vacant slot. -/
def IndexEntry.empty : IndexEntry := ⟨.zero, 0, 0, 0⟩

/-- An open-addressed table. `openDiskHashTable` refuses a table without slots. -/
structure DiskHashTable where
  numSlots : ℕ
  slots : ℕ → IndexEntry
  count : ℕ
  numSlots_pos : 0 < numSlots

/-- The shape of a table with `n` slots. -/
def tableLayout (n : ℕ) (hn : 0 < n) : Layout IndexEntry Hash where
  size := n
  key e := if e.strongHash = .zero then none else some e.strongHash
  home h := hashPrefix8 h % n
  home_lt _ := Nat.mod_lt _ hn

namespace DiskHashTable

/-- The shape of a table. -/
abbrev layout (t : DiskHashTable) : Layout IndexEntry Hash := tableLayout t.numSlots t.numSlots_pos

/-- `createDiskHashTable`: all slots vacant. -/
def create (n : ℕ) (hn : 0 < n) : DiskHashTable := ⟨n, fun _ => .empty, 0, hn⟩

/-- `diskHashTable.Lookup`. -/
def lookup (t : DiskHashTable) (h : Hash) : Option IndexEntry := t.layout.find t.slots h

/-- `diskHashTable.Insert`; `none` is `errTableFull`. -/
def insert (t : DiskHashTable) (e : IndexEntry) : Option DiskHashTable :=
  if t.count > t.numSlots * 85 / 100 then none
  else
    match t.layout.seek t.slots e.strongHash with
    | .vacant i => some { t with slots := update t.slots i e, count := t.count + 1 }
    | .found i => some { t with slots := update t.slots i e }
    | .full => none

/-- `diskHashTable.ReadAll`. -/
def readAll (t : DiskHashTable) : List IndexEntry :=
  ((List.range t.numSlots).map t.slots).filter fun e => e.strongHash ≠ .zero

/-- Insert the entries of a list in turn. -/
def insertAll (t : DiskHashTable) (es : List IndexEntry) : Option DiskHashTable :=
  es.foldlM insert t

lemma double_pos (t : DiskHashTable) : 0 < t.numSlots * 2 := Nat.mul_pos t.numSlots_pos (by decide)

/-- `growHashTable`: the entries again, in a table with twice the slots. -/
def grow (t : DiskHashTable) : Option DiskHashTable :=
  (create (t.numSlots * 2) t.double_pos).insertAll t.readAll

/-- One insertion of `FlushDelta`: grow a full table once. -/
def insertGrowing (t : DiskHashTable) (e : IndexEntry) : Option DiskHashTable :=
  match t.insert e with
  | some t' => some t'
  | none => t.grow.bind fun t' => t'.insert e

end DiskHashTable

/-! ## What a table holds -/

/-- Write entries over a finite map, the later ones winning. -/
def overlay (m : Hash → Option IndexEntry) (es : List IndexEntry) : Hash → Option IndexEntry :=
  es.foldl (fun m e => update m e.strongHash (some e)) m

@[simp] lemma overlay_nil (m : Hash → Option IndexEntry) : overlay m [] = m := rfl

@[simp] lemma overlay_cons (m : Hash → Option IndexEntry) (e : IndexEntry)
    (es : List IndexEntry) :
    overlay m (e :: es) = overlay (update m e.strongHash (some e)) es := rfl

lemma overlay_append (m : Hash → Option IndexEntry) (es es' : List IndexEntry) :
    overlay m (es ++ es') = overlay (overlay m es) es' := List.foldl_append

/-- The hashes of an overlay. -/
lemma isSome_overlay (m : Hash → Option IndexEntry) (es : List IndexEntry) (h : Hash) :
    (overlay m es h).isSome ↔ (m h).isSome ∨ h ∈ es.map (·.strongHash) := by
  induction es generalizing m with
  | nil => simp
  | cons e es ih =>
    rw [overlay_cons, ih, update_apply]
    by_cases heq : h = e.strongHash
    · simp [heq]
    · simp [heq]

/-- The same entries over two maps: they decide, or neither of them holds the hash. -/
lemma overlay_eq_or_base (m m' : Hash → Option IndexEntry) (es : List IndexEntry) (h : Hash) :
    overlay m es h = overlay m' es h ∨ (overlay m es h = m h ∧ overlay m' es h = m' h) := by
  induction es generalizing m m' with
  | nil => exact .inr ⟨rfl, rfl⟩
  | cons e es ih =>
    rw [overlay_cons, overlay_cons]
    rcases ih (update m e.strongHash (some e))
      (update m' e.strongHash (some e)) with heq | ⟨h1, h2⟩
    · exact .inl heq
    · rw [h1, h2, update_apply, update_apply]
      split
      · exact .inl rfl
      · exact .inr ⟨rfl, rfl⟩

variable {es : List IndexEntry} {h : Hash} {e : IndexEntry} {n : ℕ} {hn : 0 < n} {t : DiskHashTable}

/-- What an overlay has was written there, or was there before. -/
lemma mem_of_overlay {m : Hash → Option IndexEntry} (he : overlay m es h = some e) :
    (e ∈ es ∧ e.strongHash = h) ∨ m h = some e := by
  induction es generalizing m with
  | nil => exact .inr he
  | cons a es ih =>
    rw [overlay_cons] at he
    rcases ih he with ⟨hmem, hhash⟩ | hm
    · exact .inl ⟨.tail _ hmem, hhash⟩
    · rw [update_apply] at hm
      split_ifs at hm with hh
      · cases hm
        exact .inl ⟨.head _, hh.symm⟩
      · exact .inr hm

/-- Entries with distinct hashes are all found in the overlay. -/
lemma overlay_eq_some_iff (hes : (es.map (·.strongHash)).Nodup) (m : Hash → Option IndexEntry)
    (h : Hash) (e : IndexEntry) :
    overlay m es h = some e ↔
      (e ∈ es ∧ e.strongHash = h) ∨ (h ∉ es.map (·.strongHash) ∧ m h = some e) := by
  induction es generalizing m with
  | nil => simp
  | cons a es ih =>
    obtain ⟨ha, hes⟩ := List.nodup_cons.1 hes
    rw [overlay_cons, ih hes]
    by_cases hah : h = a.strongHash
    · subst hah
      have hnot : ¬ (e ∈ es ∧ e.strongHash = a.strongHash) := fun ⟨he, heq⟩ =>
        ha (List.mem_map.2 ⟨e, he, heq⟩)
      simp only [hnot, false_or, ha, not_false_eq_true, true_and, update_self,
        Option.some.injEq, List.mem_cons, List.map_cons, not_true_eq_false, false_and, or_false]
      constructor
      · rintro rfl
        exact ⟨.inl rfl, rfl⟩
      · rintro ⟨rfl | he, heq⟩
        · rfl
        · exact absurd ⟨he, heq⟩ hnot
    · rw [update_of_ne hah]
      have hea : ¬ (e = a ∧ e.strongHash = h) := fun ⟨h1, h2⟩ => hah (by rw [← h2, h1])
      simp only [List.mem_cons, List.map_cons, hah, false_or, or_and_right, hea]

lemma key_eq_some_iff :
    (tableLayout n hn).key e = some h ↔ e.strongHash = h ∧ h ≠ .zero := by
  unfold tableLayout
  by_cases he : e.strongHash = .zero
  · simp only [he, if_true, reduceCtorEq, false_iff, not_and, not_not]
    exact fun h => h.symm
  · simp only [he, if_false, Option.some.injEq]
    exact ⟨fun h' => ⟨h', h' ▸ he⟩, fun h' => h'.1⟩

lemma key_eq_none_iff :
    (tableLayout n hn).key e = none ↔ e.strongHash = .zero := by
  unfold tableLayout
  by_cases he : e.strongHash = .zero <;> simp [he]

lemma key_isSome_iff :
    ((tableLayout n hn).key e).isSome ↔ e.strongHash ≠ .zero := by
  rw [Option.isSome_iff_ne_none, ne_eq, key_eq_none_iff]

namespace DiskHashTable

/-- The invariant of a table: searches are complete, and no hash is stored twice. -/
structure Good (t : DiskHashTable) : Prop where
  packed : t.layout.Packed t.slots
  unique : t.layout.Unique t.slots
  occupied_le : t.layout.occupied t.slots ≤ t.count

/-- An entry stands in some slot. -/
def Stored (t : DiskHashTable) (e : IndexEntry) : Prop :=
  e.strongHash ≠ .zero ∧ ∃ i < t.numSlots, t.slots i = e

lemma lookup_eq_some_iff (ht : t.Good) :
    t.lookup h = some e ↔ e.strongHash = h ∧ t.Stored e := by
  rw [lookup, Layout.find_eq_some_iff ht.packed ht.unique, key_eq_some_iff, Stored]
  constructor
  · rintro ⟨⟨rfl, hne⟩, hi⟩
    exact ⟨rfl, hne, hi⟩
  · rintro ⟨rfl, hne, hi⟩
    exact ⟨⟨rfl, hne⟩, hi⟩

lemma mem_readAll : e ∈ t.readAll ↔ t.Stored e := by
  simp [readAll, Stored, and_comm]

lemma length_readAll_le (t : DiskHashTable) : t.readAll.length ≤ t.numSlots := by
  calc t.readAll.length ≤ ((List.range t.numSlots).map t.slots).length :=
        List.length_filter_le _ _
    _ = t.numSlots := by simp

/-- The entries of a table have distinct hashes. -/
lemma readAll_nodup (ht : t.Good) :
    (t.readAll.map (·.strongHash)).Nodup := by
  unfold readAll
  rw [List.Nodup, List.pairwise_map, List.pairwise_filter, List.pairwise_map]
  refine List.nodup_range.imp_of_mem fun {i j} hi hj hij hne _ heq => hij ?_
  rw [List.mem_range] at hi hj
  refine ht.unique i hi j hj (t.slots i).strongHash ?_ ?_ <;> rw [key_eq_some_iff]
  · exact ⟨rfl, by simpa using hne⟩
  · exact ⟨heq.symm, by simpa using hne⟩

lemma create_good (n : ℕ) (hn : 0 < n) : (create n hn).Good where
  packed i _ k hk := by simp [create, key_eq_some_iff, IndexEntry.empty] at hk; grind
  unique i _ j _ k hk := by simp [create, key_eq_some_iff, IndexEntry.empty] at hk; grind
  occupied_le := by simp [Layout.occupied, create, tableLayout, IndexEntry.empty]

lemma lookup_create (n : ℕ) (hn : 0 < n) (h : Hash) : (create n hn).lookup h = none := by
  refine Option.eq_none_iff_forall_ne_some.2 fun e he => ?_
  obtain ⟨-, hne, i, -, rfl⟩ := (lookup_eq_some_iff (create_good n hn)).1 he
  exact hne rfl

/-- What an insertion that succeeds does. -/
lemma insert_some {t' : DiskHashTable} (ht : t.Good) (he : e.strongHash ≠ .zero)
    (h : t.insert e = some t') :
    t'.Good ∧ t'.numSlots = t.numSlots ∧ t'.count ≤ t.count + 1 ∧
      t'.lookup = update t.lookup e.strongHash (some e) := by
  have hkey : t.layout.key e = some e.strongHash := key_eq_some_iff.2 ⟨rfl, he⟩
  unfold insert at h
  split at h
  · cases h
  split at h
  · rename_i i hseek
    obtain rfl := Option.some.inj h
    have hput : Layout.Put t.layout t.slots e e.strongHash (update t.slots i e) :=
      .vacant i hseek rfl
    refine ⟨⟨hput.packed ht.packed hkey, hput.unique ht.packed ht.unique hkey, ?_⟩, rfl, le_rfl,
      ?_⟩
    · exact (Layout.occupied_update_le i e).trans (Nat.add_le_add_right ht.occupied_le 1)
    · funext h'
      rw [update_apply]
      exact Layout.find_update hput ht.packed ht.unique hkey h'
  · rename_i i hseek
    obtain rfl := Option.some.inj h
    have hput : Layout.Put t.layout t.slots e e.strongHash (update t.slots i e) :=
      .found i hseek rfl
    have hkeys : ∀ j < t.layout.size, t.layout.key (update t.slots i e j) =
        t.layout.key (t.slots j) := fun j _ =>
      Layout.key_update (hkey.trans (Layout.seek_found hseek).2.symm) j
    refine ⟨⟨hput.packed ht.packed hkey, hput.unique ht.packed ht.unique hkey, ?_⟩, rfl,
      Nat.le_succ _, ?_⟩
    · exact (Layout.occupied_congr hkeys).le.trans ht.occupied_le
    · funext h'
      rw [update_apply]
      exact Layout.find_update hput ht.packed ht.unique hkey h'
  · cases h

/-- **Insertion** succeeds below the load limit and updates the map. -/
theorem insert_ok (ht : t.Good) (he : e.strongHash ≠ .zero)
    (hroom : t.count ≤ t.numSlots * 85 / 100) :
    ∃ t', t.insert e = some t' ∧ t'.Good ∧ t'.numSlots = t.numSlots ∧ t'.count ≤ t.count + 1 ∧
      t'.lookup = update t.lookup e.strongHash (some e) := by
  have hlt : t.layout.occupied t.slots < t.layout.size := by
    have hpos := t.numSlots_pos
    have hocc := ht.occupied_le
    show t.layout.occupied t.slots < t.numSlots
    omega
  have hfull := Layout.seek_ne_full hlt e.strongHash
  obtain ⟨t', ht'⟩ : ∃ t', t.insert e = some t' := by
    unfold insert
    rw [if_neg (by omega)]
    cases hs : t.layout.seek t.slots e.strongHash with
    | found i => exact ⟨_, rfl⟩
    | vacant i => exact ⟨_, rfl⟩
    | full => exact absurd hs hfull
  exact ⟨t', ht', insert_some ht he ht'⟩

/-- Inserting a list below the load limit. -/
lemma insertAll_ok (ht : t.Good) (hes : ∀ e ∈ es, e.strongHash ≠ .zero)
    (hroom : t.count + es.length ≤ t.numSlots * 85 / 100) :
    ∃ t', t.insertAll es = some t' ∧ t'.Good ∧ t'.numSlots = t.numSlots ∧
      t'.count ≤ t.count + es.length ∧ t'.lookup = overlay t.lookup es := by
  induction es generalizing t with
  | nil => exact ⟨t, rfl, ht, rfl, le_rfl, rfl⟩
  | cons e es ih =>
    rw [List.length_cons] at hroom
    obtain ⟨t1, h1, hgood1, hn1, hc1, hl1⟩ :=
      insert_ok ht (hes e (.head _)) (by omega)
    obtain ⟨t', h', hgood', hn', hc', hl'⟩ := ih hgood1
      (fun a ha => hes a (.tail _ ha)) (by rw [hn1]; omega)
    refine ⟨t', ?_, hgood', hn'.trans hn1, by rw [List.length_cons]; omega, ?_⟩
    · simp only [insertAll, List.foldlM_cons, h1] at h' ⊢
      exact h'
    · rw [hl', hl1, overlay_cons]

/-- **Growing** keeps what a table holds and halves its load. -/
theorem grow_ok (ht : t.Good) :
    ∃ t', t.grow = some t' ∧ t'.Good ∧ t'.numSlots = t.numSlots * 2 ∧ t'.count ≤ t.numSlots ∧
      t'.lookup = t.lookup := by
  have hlen := t.length_readAll_le
  obtain ⟨t', h', hgood, hn, hc, hl⟩ := insertAll_ok
    (create_good (t.numSlots * 2) t.double_pos)
    (fun e (he : e ∈ t.readAll) => (mem_readAll.1 he).1) (by simp only [create]; omega)
  simp only [create, Nat.zero_add] at hn hc
  refine ⟨t', h', hgood, hn, hc.trans hlen, ?_⟩
  rw [hl]
  funext h
  refine Option.ext fun e => ?_
  rw [overlay_eq_some_iff (readAll_nodup ht), lookup_create, lookup_eq_some_iff ht, mem_readAll]
  simp [and_comm]

/-- An insertion of `FlushDelta` always succeeds and updates the map. -/
theorem insertGrowing_ok (ht : t.Good) (he : e.strongHash ≠ .zero) :
    ∃ t', t.insertGrowing e = some t' ∧ t'.Good ∧
      t'.lookup = update t.lookup e.strongHash (some e) := by
  unfold insertGrowing
  cases h : t.insert e with
  | some t' =>
    obtain ⟨hgood, -, -, hl⟩ := insert_some ht he h
    exact ⟨t', rfl, hgood, hl⟩
  | none =>
    obtain ⟨t1, h1, hgood1, hn1, hc1, hl1⟩ := grow_ok ht
    obtain ⟨t', h', hgood', -, -, hl'⟩ := insert_ok hgood1 he (by rw [hn1]; omega)
    exact ⟨t', by simp [h1, h'], hgood', by rw [hl', hl1]⟩

end DiskHashTable

end DiskNexus.Index
