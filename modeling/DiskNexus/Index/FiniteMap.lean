import DiskNexus.Index.HashIndex

/-!
# The hash index as a finite map

The entries of a hash index are in a buffer, in an open-addressed table on disk and in a sorted
file. Whatever the order of calls, a lookup finds the location that was inserted last.

## Main results

`diskLookup_eq_fileMap`, `hashIndex_latest`
-/

namespace DiskNexus.Index

open Binary Sha256 Files

/-! ## The binary search -/

/-- Entries in the order of their prefixes. -/
def PrefixSorted (es : List IndexEntry) : Prop :=
  es.Pairwise fun a b => hashPrefix8 a.strongHash ≤ hashPrefix8 b.strongHash

lemma prefixSorted_sortEntries (es : List IndexEntry) :
    PrefixSorted (HashIndex.sortEntries es) := by
  have h := @List.pairwise_mergeSort _
    (fun a b : IndexEntry => decide (hashPrefix8 a.strongHash ≤ hashPrefix8 b.strongHash))
    (fun a b c hab hbc => by simp only [decide_eq_true_eq] at *; omega)
    (fun a b => by simp only [Bool.or_eq_true, decide_eq_true_eq]; omega) es
  exact h.imp fun hab => by simpa using hab

namespace HashIndex

/-- What the search keeps: entries in front of `lo` are below `want`, those from `hi` on are not. -/
structure Bounds (es : List IndexEntry) (want lo hi : ℕ) : Prop where
  le : lo ≤ hi
  below : ∀ i e, es[i]? = some e → i < lo → hashPrefix8 e.strongHash < want
  above : ∀ i e, es[i]? = some e → hi ≤ i → want ≤ hashPrefix8 e.strongHash

variable {es : List IndexEntry} {file : Bytes}

lemma PrefixSorted.le (hs : PrefixSorted es) {i j : ℕ} {a b : IndexEntry} (ha : es[i]? = some a)
    (hb : es[j]? = some b) (hij : i ≤ j) :
    hashPrefix8 a.strongHash ≤ hashPrefix8 b.strongHash := by
  rcases Nat.lt_or_eq_of_le hij with hlt | rfl
  · obtain ⟨hi, rfl⟩ := List.getElem?_eq_some_iff.1 ha
    obtain ⟨hj, rfl⟩ := List.getElem?_eq_some_iff.1 hb
    exact List.pairwise_iff_getElem.1 hs i j hi hj hlt
  · rw [ha] at hb
    cases hb
    exact le_refl _

/-- The search ends with the first entry that is not below `want`. -/
lemma lowerBound_bounds (hs : PrefixSorted es) {want fuel lo hi : ℕ} (h : Bounds es want lo hi)
    (hlen : hi ≤ es.length) (hfuel : hi - lo ≤ fuel) :
    Bounds es want (lowerBound es want fuel lo hi) (lowerBound es want fuel lo hi) := by
  induction fuel generalizing lo hi with
  | zero =>
    obtain rfl : lo = hi := by have := h.le; omega
    exact h
  | succ fuel ih =>
    unfold lowerBound
    split
    · have hmid : (lo + hi) / 2 < es.length := by omega
      have hget : es[(lo + hi) / 2]? = some (es.getD ((lo + hi) / 2) .empty) := by
        rw [List.getD_eq_getElem?_getD, List.getElem?_eq_getElem hmid, Option.getD_some]
      simp only
      split
      · rename_i hbelow
        refine ih ⟨by omega, fun i e he hi' => ?_, h.above⟩ hlen (by omega)
        exact lt_of_le_of_lt (PrefixSorted.le hs he hget (by omega)) hbelow
      · rename_i habove
        refine ih ⟨by omega, h.below, fun i e he hi' => ?_⟩ (by omega) (by omega)
        exact le_trans (not_lt.1 habove) (PrefixSorted.le hs hget he hi')
    · obtain rfl : lo = hi := by have := h.le; omega
      exact h

/-- A scan of the entries with one prefix, in a row of entries not below it. -/
lemma find?_takeWhile_run (hs : PrefixSorted es) (h : Hash)
    (habove : ∀ e ∈ es, hashPrefix8 h ≤ hashPrefix8 e.strongHash) :
    (es.takeWhile fun e => hashPrefix8 e.strongHash = hashPrefix8 h).find?
      (fun e => e.strongHash = h) = es.find? fun e => e.strongHash = h := by
  induction es with
  | nil => rfl
  | cons e es ih =>
    obtain ⟨hfirst, hrest⟩ := List.pairwise_cons.1 hs
    by_cases heq : hashPrefix8 e.strongHash = hashPrefix8 h
    · rw [List.takeWhile_cons_of_pos (by simpa using heq), List.find?_cons, List.find?_cons,
        ih hrest fun e' he' => habove e' (.tail _ he')]
    · -- the scan stops, and all that follows has a larger prefix
      rw [List.takeWhile_cons_of_neg (by simpa using heq)]
      symm
      rw [List.find?_nil, List.find?_eq_none]
      intro e' he' hhash
      have hhash : e'.strongHash = h := by simpa using hhash
      have hle := habove e (.head _)
      rcases List.mem_cons.1 he' with rfl | he'
      · exact heq (by rw [hhash])
      · have := hfirst e' he'
        rw [hhash] at this
        omega

/-- The entry of a hash that is in a list at most once. -/
lemma find?_strongHash (hnodup : (es.map (·.strongHash)).Nodup) {h : Hash} {e : IndexEntry} :
    es.find? (fun e => e.strongHash = h) = some e ↔ e ∈ es ∧ e.strongHash = h := by
  constructor
  · intro hfind
    exact ⟨List.mem_of_find?_eq_some hfind, by simpa using List.find?_some hfind⟩
  · rintro ⟨he, rfl⟩
    obtain ⟨e', hfind⟩ : ∃ e', es.find? (fun e' => e'.strongHash = e.strongHash) = some e' :=
      Option.isSome_iff_exists.1 (List.find?_isSome.2 ⟨e, he, by simp⟩)
    have hhash : e'.strongHash = e.strongHash := by simpa using List.find?_some hfind
    rw [hfind, List.inj_on_of_nodup_map hnodup (List.mem_of_find?_eq_some hfind) he hhash]

/-- The binary search finds the first entry of a hash, in a sorted file. -/
lemma diskLookup_eq_find? (hs : PrefixSorted (decodeEntries file)) (h : Hash) :
    diskLookup file h = (decodeEntries file).find? fun e => e.strongHash = h := by
  unfold diskLookup
  simp only
  have hstart : Bounds (decodeEntries file) (hashPrefix8 h) 0 (decodeEntries file).length :=
    ⟨Nat.zero_le _, fun i e _ hi => absurd hi (Nat.not_lt_zero i),
      fun i e he hi => absurd (List.getElem?_eq_some_iff.1 he).1 (not_lt.2 hi)⟩
  have hb := lowerBound_bounds hs hstart le_rfl (Nat.sub_le _ _)
  generalize lowerBound (decodeEntries file) (hashPrefix8 h) _ _ _ = k at hb
  rw [find?_takeWhile_run (List.Pairwise.sublist (List.drop_sublist k _) hs)]
  · have hnone : ((decodeEntries file).take k).find? (fun e => e.strongHash = h) = none := by
      rw [List.find?_eq_none]
      intro e he hhash
      obtain ⟨i, hi⟩ := List.mem_iff_getElem?.1 he
      have hik : i < k := by
        by_contra hle
        rw [List.getElem?_take_eq_none (by omega)] at hi
        cases hi
      rw [List.getElem?_take_of_lt hik] at hi
      have := hb.below i e hi hik
      rw [show e.strongHash = h by simpa using hhash] at this
      omega
    conv_rhs => rw [← List.take_append_drop k (decodeEntries file), List.find?_append, hnone]
    rfl
  · intro e he
    obtain ⟨i, hi⟩ := List.mem_iff_getElem?.1 he
    rw [List.getElem?_drop] at hi
    exact hb.above _ e hi (by omega)

/-- What the binary search finds is in the file. -/
lemma mem_of_diskLookup {h : Hash} {e : IndexEntry} (he : diskLookup file h = some e) :
    e ∈ decodeEntries file ∧ e.strongHash = h := by
  have hmem := (List.takeWhile_sublist _).subset (List.mem_of_find?_eq_some he)
  exact ⟨(List.drop_sublist _ _).subset hmem, by simpa using List.find?_some he⟩

/-- **The binary search finds what the file holds.** -/
theorem diskLookup_eq_fileMap (hf : IndexFile file) (hs : PrefixSorted (decodeEntries file))
    (h : Hash) : diskLookup file h = fileMap file h := by
  refine Option.ext fun e => ?_
  rw [diskLookup_eq_find? hs, find?_strongHash hf.nodup, fileMap_eq_some_iff hf]

end HashIndex

/-! ## The calls on an index -/

/-- The calls on an index. A reopen may choose to do without the hash table. -/
inductive IndexCall
  | insert (id : ChunkID) (packNumber : UInt32) (storeOffset : UInt64) (chunkLength : UInt32)
  | flushDelta
  | flush
  | reopen (skipHtab : Bool)

/-- One call on an open index and its directory. -/
def IndexCall.run : IndexCall → HashIndex × RepoDir → Except String (HashIndex × RepoDir)
  | .insert id p o l, (x, d) => .ok (x.insert id p o l, d)
  | .flushDelta, (x, d) => x.flushDelta.map fun x' => (x', runOps d x.flushDeltaOps)
  | .flush, (x, d) => x.flush.map fun x' => (x', runOps d x.flushOps)
  | .reopen skipHtab, (x, d) =>
    match x.flush with
    | .error e => .error e
    | .ok x' =>
      match newHashIndex (runOps d (x.flushOps ++ x'.closeOps)) skipHtab with
      | (.error e, _) => .error e
      | (.ok y, d') => .ok (y, d')

/-- Calls one after the other. -/
def runCalls (s : HashIndex × RepoDir) (cs : List IndexCall) :
    Except String (HashIndex × RepoDir) :=
  cs.foldlM (fun s c => c.run s) s

/-- The calls that the code makes: `FlushDelta` needs a hash table. -/
def Allowed : Bool → List IndexCall → Prop
  | _, [] => True
  | skipHtab, .flushDelta :: cs => skipHtab = false ∧ Allowed skipHtab cs
  | _, .reopen skipHtab :: cs => Allowed skipHtab cs
  | skipHtab, _ :: cs => Allowed skipHtab cs

/-- What a call inserts. -/
def IndexCall.update : IndexCall → (Hash → Option IndexEntry) → Hash → Option IndexEntry
  | .insert id p o l, m => Function.update m id.strongHash (some ⟨id.strongHash, p, o, l⟩)
  | _, m => m

/-- The location that was inserted last, for every hash. -/
def latest (cs : List IndexCall) : Hash → Option IndexEntry :=
  cs.foldl (fun m c => c.update m) fun _ => none

/-- No call inserts the zero hash. -/
def IndexCall.Nonzero : IndexCall → Prop
  | .insert id _ _ _ => id.strongHash ≠ .zero
  | _ => True

/-- The mode of an index after a call. -/
def IndexCall.mode : IndexCall → Bool → Bool
  | .reopen skipHtab, _ => skipHtab
  | _, skipHtab => skipHtab

/-! ## The map -/

/-- The invariant: the file is sorted and is that of the directory, and all together hold the map
`m`. -/
structure Represents (s : HashIndex × RepoDir) (skipHtab : Bool) (m : Hash → Option IndexEntry) :
    Prop where
  good : s.1.Good
  sorted : PrefixSorted (decodeEntries s.1.file)
  content : s.1.content = m
  file : s.2.lookup .hashIndex = some s.1.file
  mode : s.1.noHtab = skipHtab

section Map

variable {s : HashIndex × RepoDir} {skipHtab : Bool} {m : Hash → Option IndexEntry}

/-- A lookup in any mode. -/
lemma Represents.lookup (h : Represents s skipHtab m) (k : Hash) : s.1.lookup k = m k := by
  rw [← h.content]
  cases ht : s.1.htab with
  | some t => rw [HashIndex.lookup_eq_content (by rw [ht]; rfl)]
  | none =>
    rw [HashIndex.content, overlay_values, HashIndex.lookup]
    cases s.1.entries.get k with
    | some e => rfl
    | none =>
      simp only [ht, HashIndex.base, Option.none_or]
      exact HashIndex.diskLookup_eq_fileMap h.good.indexFile h.sorted k

/-- What an open finds in a sorted file. -/
lemma represents_newHashIndex {d : RepoDir} {file : Bytes} (hf : IndexFile file)
    (hs : PrefixSorted (decodeEntries file)) (hd : (d.lookup .hashIndex).getD [] = file)
    (skipHtab : Bool) :
    ∃ x d', newHashIndex d skipHtab = (.ok x, d') ∧
      Represents (x, d') skipHtab (fileMap file) := by
  obtain ⟨x, hx, hgood, hcontent, hmode, hfile⟩ := newHashIndex_ok (hd ▸ hf) skipHtab
  refine ⟨x, (newHashIndex d skipHtab).2, Prod.ext hx rfl, hgood, ?_, ?_, ?_, hmode⟩
  · rw [hfile, hd]
    exact hs
  · rw [hcontent, hd]
  · rw [lookup_newHashIndex HashIndex.not_working_hashIndex, AList.lookup_insert, hfile]

/-- A flush keeps the file sorted. -/
lemma prefixSorted_flush {x x' : HashIndex} (hs : PrefixSorted (decodeEntries x.file))
    (hflush : x.flush = .ok x') : PrefixSorted (decodeEntries x'.file) := by
  rcases HashIndex.flush_inv hflush with ⟨-, rfl⟩ | ⟨-, t, rfl⟩
  · exact hs
  · rw [HashIndex.decodeEntries_flushed]
    exact prefixSorted_sortEntries _

/-- What a flush leaves: the same map, all of it in the file. -/
lemma Represents.flush (h : Represents s skipHtab m) :
    ∃ x', s.1.flush = .ok x' ∧ Represents (x', runOps s.2 s.1.flushOps) skipHtab m ∧
      fileMap x'.file = m := by
  obtain ⟨x', hflush, hgood, hcontent, hmap, hmode⟩ := HashIndex.flush_ok h.good
  exact ⟨x', hflush, ⟨hgood, prefixSorted_flush h.sorted hflush, hcontent.trans h.content,
    HashIndex.lookup_runOps_flushOps hflush h.file, hmode.trans h.mode⟩, hmap.trans h.content⟩

/-- **One call** keeps the invariant. -/
theorem Represents.run (h : Represents s skipHtab m) {c : IndexCall} {cs : List IndexCall}
    (hallowed : Allowed skipHtab (c :: cs)) (hne : c.Nonzero) :
    ∃ s', c.run s = .ok s' ∧ Represents s' (c.mode skipHtab) (c.update m) ∧
      Allowed (c.mode skipHtab) cs := by
  obtain ⟨x, d⟩ := s
  cases c with
  | insert id p o l =>
    refine ⟨_, rfl, ⟨h.good.insert hne p o l, h.sorted, ?_, h.file, h.mode⟩, hallowed⟩
    rw [HashIndex.content_insert, h.content]
    rfl
  | flushDelta =>
    obtain ⟨hmode, hrest⟩ := hallowed
    obtain ⟨x', hx', hgood, hcontent, hmode', hfile⟩ :=
      HashIndex.flushDelta_ok h.good (h.mode.trans hmode)
    refine ⟨(x', runOps d x.flushDeltaOps), by rw [IndexCall.run, hx']; rfl,
      ⟨hgood, ?_, hcontent.trans h.content, ?_, hmode'.trans h.mode⟩, hrest⟩
    · rw [hfile]
      exact h.sorted
    · rw [lookup_runOps
        (HashIndex.flushDeltaOps_untouched HashIndex.not_working_hashIndex x), hfile]
      exact h.file
  | flush =>
    obtain ⟨x', hflush, hrep, -⟩ := h.flush
    exact ⟨_, by rw [IndexCall.run, hflush]; rfl, hrep, hallowed⟩
  | reopen skip =>
    obtain ⟨x', hflush, hrep, hmap⟩ := h.flush
    have hclosed : ((runOps d (x.flushOps ++ x'.closeOps)).lookup .hashIndex).getD [] =
      x'.file := by
      rw [runOps_append, lookup_runOps
        (HashIndex.closeOps_untouched HashIndex.not_working_hashIndex x')]
      exact congrArg (·.getD []) hrep.file
    obtain ⟨y, d', hopen, hrep'⟩ :=
      represents_newHashIndex hrep.good.indexFile hrep.sorted hclosed skip
    refine ⟨(y, d'), ?_, hmap ▸ hrep', hallowed⟩
    simp only [IndexCall.run, hflush, hopen]

/-- **A run of calls** keeps the invariant. -/
theorem Represents.runCalls {cs : List IndexCall} (h : Represents s skipHtab m)
    (hallowed : Allowed skipHtab cs) (hne : ∀ c ∈ cs, c.Nonzero) :
    ∃ s' skip, runCalls s cs = .ok s' ∧
      Represents s' skip (cs.foldl (fun m c => c.update m) m) := by
  induction cs generalizing s skipHtab m with
  | nil => exact ⟨s, skipHtab, rfl, h⟩
  | cons c cs ih =>
    obtain ⟨s1, hrun, h1, hrest⟩ := h.run hallowed (hne c (.head _))
    obtain ⟨s', skip, hruns, h'⟩ := ih h1 hrest fun c' hc' => hne c' (.tail _ hc')
    refine ⟨s', skip, ?_, h'⟩
    rw [Index.runCalls, List.foldlM_cons, hrun]
    exact hruns

lemma Allowed.left {cs cs' : List IndexCall} (h : Allowed skipHtab (cs ++ cs')) :
    Allowed skipHtab cs := by
  induction cs generalizing skipHtab with
  | nil => trivial
  | cons c cs ih =>
    cases c with
    | flushDelta => exact ⟨h.1, ih h.2⟩
    | _ => exact ih h

/-- The file that a flush leaves. -/
lemma Represents.flushed (h : Represents s skipHtab m) :
    ∃ s', IndexCall.flush.run s = .ok s' ∧ ∃ file, s'.2.lookup .hashIndex = some file ∧
      PrefixSorted (decodeEntries file) ∧ ((decodeEntries file).map (·.strongHash)).Nodup ∧
      ∀ e, e ∈ decodeEntries file ↔ m e.strongHash = some e := by
  obtain ⟨x', hflush, hrep, hmap⟩ := h.flush
  refine ⟨(x', runOps s.2 s.1.flushOps), by rw [IndexCall.run, hflush]; rfl, x'.file, hrep.file,
    hrep.sorted, hrep.good.indexFile.nodup, fun e => ?_⟩
  rw [← hmap, fileMap_eq_some_iff hrep.good.indexFile]
  exact ⟨fun he => ⟨he, rfl⟩, And.left⟩

end Map

/-- **A hash index is the finite map of its inserts.** From an empty index, any calls succeed; then
a lookup of any hash returns the location that was inserted last for it, and after a flush the
sorted file has every inserted hash once, with that location, in the order of the prefixes.

**Proof sketch.** The buffer over the hash table, or over the file, is one map. -/
theorem hashIndex_latest {d : RepoDir} (hd : d.lookup .hashIndex = none) (skipHtab : Bool)
    {cs : List IndexCall} (hallowed : Allowed skipHtab cs) (hne : ∀ c ∈ cs, c.Nonzero) :
    ∃ s s', newHashIndex d skipHtab = (.ok s.1, s.2) ∧ runCalls s cs = .ok s' ∧
      (∀ h, s'.1.lookup h = latest cs h) ∧
      (cs.getLast? = some .flush → ∃ file, s'.2.lookup .hashIndex = some file ∧
        PrefixSorted (decodeEntries file) ∧ ((decodeEntries file).map (·.strongHash)).Nodup ∧
        ∀ e, e ∈ decodeEntries file ↔ latest cs e.strongHash = some e) := by
  have hempty : IndexFile [] := ⟨fun e he => (by cases he), List.nodup_nil⟩
  obtain ⟨x, d0, hopen, hrep⟩ := represents_newHashIndex hempty List.Pairwise.nil
    (by rw [hd, Option.getD_none]) skipHtab
  obtain ⟨s', skip, hruns, hrep'⟩ := hrep.runCalls hallowed hne
  refine ⟨(x, d0), s', hopen, hruns, hrep'.lookup, fun hlast => ?_⟩
  obtain ⟨cs', rfl⟩ : ∃ cs', cs = cs' ++ [.flush] := List.getLast?_eq_some_iff.1 hlast
  obtain ⟨s1, skip1, hruns1, hrep1⟩ := hrep.runCalls hallowed.left
    fun c hc => hne c (List.mem_append_left _ hc)
  obtain ⟨s2, hflush, hfile⟩ := hrep1.flushed
  have hsplit : runCalls (x, d0) (cs' ++ [.flush]) = .ok s2 := by
    rw [runCalls, List.foldlM_append]
    change (runCalls (x, d0) cs' >>= _) = _
    rw [hruns1]
    change (IndexCall.flush.run s1 >>= _) = _
    rw [hflush]
    rfl
  rw [hruns] at hsplit
  cases hsplit
  have hmap : latest (cs' ++ [.flush]) = cs'.foldl (fun m c => c.update m) fun _ => none := by
    rw [latest, List.foldl_append]
    rfl
  rw [hmap]
  exact hfile

/-- A chunk is inserted, moved and inserted into the table, and the index is flushed. -/
theorem hashIndex_latest_moved :
    let calls := [IndexCall.insert ⟨0, sum256 [7]⟩ 0 0 1, .flushDelta,
      .insert ⟨0, sum256 [7]⟩ 3 9 1, .flush]
    latest calls (sum256 [7]) = some ⟨sum256 [7], 3, 9, 1⟩ ∧
      ∃ s s', newHashIndex ∅ false = (.ok s.1, s.2) ∧ runCalls s calls = .ok s' ∧
        s'.1.lookup (sum256 [7]) = some ⟨sum256 [7], 3, 9, 1⟩ := by
  intro calls
  have hlatest : latest calls (sum256 [7]) = some ⟨sum256 [7], 3, 9, 1⟩ := by
    simp [calls, latest, IndexCall.update]
  have hzero : sum256 [7] ≠ .zero := by decide +kernel
  obtain ⟨s, s', hopen, hruns, hlookup, -⟩ := @hashIndex_latest ∅ (AList.lookup_empty _) false calls
    ⟨rfl, trivial⟩ (by simp [calls, IndexCall.Nonzero, hzero])
  exact ⟨hlatest, s, s', hopen, hruns, (hlookup _).trans hlatest⟩

end DiskNexus.Index
