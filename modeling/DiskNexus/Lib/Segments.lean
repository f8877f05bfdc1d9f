import Mathlib.Data.List.Basic
import Mathlib.Tactic

/-!
# Ranges put together from ordered spans

A sequence indexed by the integers is known on some spans, one after the other with gaps between
them or not. The parts of the spans in a range `[a, b)` are as long as the range exactly if the
spans leave no gap in it, and then they are the range of the sequence.

## Main results

`length_gather_eq_iff`, `gather_eq_slice`, `exists_hole`
-/

namespace Segments

variable {α : Type}

/-- The `n` elements of a sequence from `a` on. -/
def slice (v : ℤ → α) (a : ℤ) (n : ℕ) : List α := (List.range n).map fun i : ℕ => v (a + i)

@[simp] lemma length_slice (v : ℤ → α) (a : ℤ) (n : ℕ) : (slice v a n).length = n := by
  simp [slice]

lemma getElem_slice (v : ℤ → α) (a : ℤ) (n i : ℕ) (h : i < (slice v a n).length) :
    (slice v a n)[i] = v (a + i) := by
  simp [slice]

lemma slice_add (v : ℤ → α) (a : ℤ) (m n : ℕ) :
    slice v a (m + n) = slice v a m ++ slice v (a + m) n := by
  unfold slice
  rw [List.range_add, List.map_append, List.map_map]
  congr 1
  simp [add_assoc]

lemma take_drop_slice (v : ℤ → α) (a : ℤ) {n i k : ℕ} (h : i + k ≤ n) :
    ((slice v a n).drop i).take k = slice v (a + i) k := by
  obtain ⟨m, rfl⟩ := Nat.exists_eq_add_of_le h
  rw [Nat.add_assoc, slice_add, List.drop_left' (length_slice _ _ _), slice_add,
    List.take_left' (length_slice _ _ _)]

/-- A span of the integers. -/
structure Span where
  start : ℤ
  length : ℕ

namespace Span

/-- Where a span ends. -/
def stop (s : Span) : ℤ := s.start + s.length

/-- The span reaches into `[a, b)`. -/
def Meets (s : Span) (a b : ℤ) : Prop := s.start < b ∧ a < s.stop

/-- The span lies over a position. -/
def Covers (s : Span) (x : ℤ) : Prop := s.start ≤ x ∧ x < s.stop

lemma start_le_stop (s : Span) : s.start ≤ s.stop := by
  unfold stop
  omega

end Span

/-- Spans one after the other, with gaps between them or not. -/
def Ordered (spans : List Span) : Prop := spans.Pairwise fun s t => s.stop ≤ t.start

/-- The part of a span in `[a, b)`. -/
def part (v : ℤ → α) (a b : ℤ) (s : Span) : List α :=
  slice v (max a s.start) (min b s.stop - max a s.start).toNat

/-- The parts of spans in `[a, b)`, one after the other. -/
def gather (v : ℤ → α) (a b : ℤ) (spans : List Span) : List α := spans.flatMap (part v a b)

section Gather

variable {v : ℤ → α} {a b c : ℤ} {spans : List Span}

/-- The spans still to be gathered, from the position `c` on. -/
structure From (a b c : ℤ) (spans : List Span) : Prop where
  ordered : Ordered spans
  meets : ∀ s ∈ spans, s.Meets a b
  lower : a ≤ c
  upper : c ≤ b
  start : ∀ s ∈ spans, c ≤ max a s.start

/-- Behind the first span, its end is the position. -/
lemma From.tail {s : Span} (h : From a b c (s :: spans)) : From a b (min b s.stop) spans := by
  obtain ⟨hstart, hstop⟩ := h.meets s (.head _)
  have hlower := h.lower
  have hupper := h.upper
  refine ⟨h.ordered.of_cons, fun t ht => h.meets t (.tail _ ht), by omega,
    min_le_left _ _, fun t ht => ?_⟩
  have hst : s.stop ≤ t.start := List.rel_of_pairwise_cons h.ordered ht
  omega

/-- The length of the part of the first span. -/
lemma From.length_part {s : Span} (h : From a b c (s :: spans)) :
    ((part v a b s).length : ℤ) = min b s.stop - max a s.start := by
  obtain ⟨hstart, hstop⟩ := h.meets s (.head _)
  have hspan := s.start_le_stop
  have hlower := h.lower
  have hupper := h.upper
  unfold part
  rw [length_slice]
  by_cases hab : a < b
  · omega
  · -- an empty range: its bounds and the position are the same
    omega

lemma gather_cons (v : ℤ → α) (a b : ℤ) (s : Span) (spans : List Span) :
    gather v a b (s :: spans) = part v a b s ++ gather v a b spans := by
  simp [gather]

/-- What is gathered fits the range. -/
lemma length_gather_le (h : From a b c spans) : ((gather v a b spans).length : ℤ) ≤ b - c := by
  induction spans generalizing c with
  | nil =>
    have := h.upper
    simpa [gather] using this
  | cons s spans ih =>
    have htail := ih h.tail
    have hpart := h.length_part (v := v)
    have hstart := h.start s (.head _)
    rw [gather_cons, List.length_append]
    omega

/-- **When there is no gap.** -/
theorem length_gather_eq_iff (h : From a b c spans) :
    ((gather v a b spans).length : ℤ) = b - c ↔
      ∀ x, c ≤ x → x < b → ∃ s ∈ spans, s.Covers x := by
  induction spans generalizing c with
  | nil =>
    have hupper := h.upper
    constructor
    · intro hlen x hx hxb
      simp [gather] at hlen
      omega
    · intro hcover
      rcases Int.lt_or_eq_of_le hupper with hlt | heq
      · obtain ⟨s, hs, -⟩ := hcover c le_rfl hlt
        cases hs
      · simp [gather, heq]
  | cons s spans ih =>
    have htail := length_gather_le (v := v) h.tail
    have hpart := h.length_part (v := v)
    have hstart := h.start s (.head _)
    have hlower := h.lower
    rw [gather_cons, List.length_append]
    constructor
    · intro hlen x hx hxb
      -- no position is lost in front of the first span, nor behind it
      have hrest : ((gather v a b spans).length : ℤ) = b - min b s.stop := by omega
      by_cases hxs : x < s.stop
      · exact ⟨s, List.mem_cons_self, by omega, hxs⟩
      · obtain ⟨t, ht, hcov⟩ := (ih h.tail).1 hrest x (by omega) hxb
        exact ⟨t, .tail _ ht, hcov⟩
    · intro hcover
      have hrest : ((gather v a b spans).length : ℤ) = b - min b s.stop := by
        refine (ih h.tail).2 fun x hx hxb => ?_
        obtain ⟨t, ht, hcov⟩ := hcover x (by omega) hxb
        rcases List.mem_cons.1 ht with rfl | ht
        · have := hcov.2
          omega
        · exact ⟨t, ht, hcov⟩
      by_cases hcb : c < b
      · obtain ⟨t, ht, hcov⟩ := hcover c le_rfl hcb
        have hle : s.start ≤ c := by
          rcases List.mem_cons.1 ht with rfl | ht
          · exact hcov.1
          · have hst : s.stop ≤ t.start := List.rel_of_pairwise_cons h.ordered ht
            have := hcov.1
            omega
        omega
      · omega

/-- **What is gathered without a gap** is the range. -/
theorem gather_eq_slice (h : From a b c spans)
    (hlen : ((gather v a b spans).length : ℤ) = b - c) :
    gather v a b spans = slice v c (b - c).toNat := by
  induction spans generalizing c with
  | nil =>
    have hzero : b - c = 0 := by simpa [gather] using hlen.symm
    simp [gather, hzero, slice]
  | cons s spans ih =>
    have htail := length_gather_le (v := v) h.tail
    have hpart := h.length_part (v := v)
    have hstart := h.start s (.head _)
    rw [gather_cons, List.length_append] at hlen
    have hrest : ((gather v a b spans).length : ℤ) = b - min b s.stop := by omega
    have hc : max a s.start = c := by omega
    have hsplit : (b - c).toNat = (min b s.stop - c).toNat + (b - min b s.stop).toNat := by omega
    have hnext : c + ((min b s.stop - c).toNat : ℤ) = min b s.stop := by omega
    rw [gather_cons, ih h.tail hrest, part, hc, hsplit, slice_add, hnext]

end Gather

/-! ## Holes between intervals -/

/-- An interval of the integers, which may be empty. -/
structure Interval where
  start : ℤ
  stop : ℤ
  deriving DecidableEq

namespace Interval

/-- The position is in the interval. -/
def Has (i : Interval) (x : ℤ) : Prop := i.start ≤ x ∧ x < i.stop

/-- The order in which holes are looked for. -/
def Before (i j : Interval) : Prop := i.start ≤ j.start

instance : DecidableRel Before := fun i j => inferInstanceAs (Decidable (i.start ≤ j.start))

instance : Std.Total Before := ⟨fun i j => Int.le_total i.start j.start⟩

instance : IsTrans Interval Before := ⟨fun _ _ _ => Int.le_trans⟩

end Interval

/-- The holes in front of intervals, from a cursor on that passes each of them. -/
def innerHoles : List Interval → ℤ → List Interval
  | [], _ => []
  | u :: us, cursor =>
    if cursor < u.start then ⟨cursor, u.start⟩ :: innerHoles us (max cursor u.stop)
    else innerHoles us (max cursor u.stop)

/-- Where the cursor is behind all intervals. -/
def reach (us : List Interval) (cursor : ℤ) : ℤ := us.foldl (fun c u => max c u.stop) cursor

/-- The hole from a cursor up to an end. -/
def lastHole (cursor stop : ℤ) : List Interval := if cursor < stop then [⟨cursor, stop⟩] else []

/-- A hole in front of an interval: no interval has the position, and one lies behind it. -/
lemma exists_innerHoles_iff {us : List Interval} (hus : us.Pairwise Interval.Before)
    {cursor x : ℤ} :
    (∃ h ∈ innerHoles us cursor, h.Has x) ↔
      cursor ≤ x ∧ (∀ u ∈ us, ¬ u.Has x) ∧ ∃ u ∈ us, x < u.start := by
  induction us generalizing cursor with
  | nil => simp [innerHoles]
  | cons u us ih =>
    obtain ⟨hu, hus⟩ := List.pairwise_cons.1 hus
    have hcons : (∃ h ∈ innerHoles (u :: us) cursor, h.Has x) ↔
        (cursor ≤ x ∧ x < u.start) ∨ ∃ h ∈ innerHoles us (max cursor u.stop), h.Has x := by
      rw [innerHoles]
      split
      · rw [List.exists_mem_cons_iff]
        rfl
      · refine ⟨.inr, fun h => h.resolve_left fun h' => ?_⟩
        omega
    rw [hcons, ih hus, List.forall_mem_cons, List.exists_mem_cons_iff]
    constructor
    · rintro (⟨hc, hx⟩ | ⟨hc, hnone, hbehind⟩)
      · refine ⟨hc, ⟨fun h => absurd h.1 (by omega), fun u' hu' h => ?_⟩, .inl hx⟩
        have hle : u.start ≤ u'.start := hu u' hu'
        have := h.1
        omega
      · exact ⟨by omega, ⟨fun h => absurd h.2 (by omega), hnone⟩, .inr hbehind⟩
    · rintro ⟨hc, ⟨hnot, hnone⟩, hbehind⟩
      by_cases hx : x < u.start
      · exact .inl ⟨hc, hx⟩
      · have hstop : u.stop ≤ x := by
          by_contra hlt
          exact hnot ⟨by omega, by omega⟩
        exact .inr ⟨by omega, hnone, hbehind.resolve_left hx⟩

lemma le_reach (us : List Interval) (cursor : ℤ) :
    cursor ≤ reach us cursor ∧ ∀ u ∈ us, u.stop ≤ reach us cursor := by
  induction us generalizing cursor with
  | nil => exact ⟨Int.le_refl _, fun u hu => (by cases hu)⟩
  | cons u us ih =>
    obtain ⟨h1, h2⟩ := ih (max cursor u.stop)
    change max cursor u.stop ≤ reach (u :: us) cursor at h1
    exact ⟨by omega, List.forall_mem_cons.2 ⟨by omega, h2⟩⟩

lemma reach_cases (us : List Interval) (cursor : ℤ) :
    reach us cursor = cursor ∨ ∃ u ∈ us, reach us cursor = u.stop := by
  induction us generalizing cursor with
  | nil => exact .inl rfl
  | cons u us ih =>
    rcases ih (max cursor u.stop) with h | ⟨u', hu', h⟩
    · rcases max_cases cursor u.stop with ⟨hm, -⟩ | ⟨hm, -⟩
      · exact .inl (h.trans hm)
      · exact .inr ⟨u, List.mem_cons_self, h.trans hm⟩
    · exact .inr ⟨u', .tail _ hu', h⟩

/-- Every position of a range that no interval has is in a hole. -/
lemma exists_hole {us : List Interval} (hus : us.Pairwise Interval.Before) {cursor stop x : ℤ}
    (hx : cursor ≤ x ∧ x < stop) (hnone : ∀ u ∈ us, ¬ u.Has x) :
    ∃ h ∈ innerHoles us cursor ++ lastHole (reach us cursor) stop, h.Has x := by
  by_cases hbehind : ∃ u ∈ us, x < u.start
  · obtain ⟨h, hh, hhas⟩ := (exists_innerHoles_iff hus).2 ⟨hx.1, hnone, hbehind⟩
    exact ⟨h, List.mem_append_left _ hh, hhas⟩
  · push Not at hbehind
    -- no interval lies behind the position, so the cursor has not passed it
    have hreach : reach us cursor ≤ x := by
      rcases reach_cases us cursor with h | ⟨u, hu, h⟩
      · omega
      · by_contra hlt
        exact hnone u hu ⟨hbehind u hu, by omega⟩
    refine ⟨⟨reach us cursor, stop⟩, List.mem_append_right _ ?_, hreach, hx.2⟩
    rw [lastHole, if_pos (by omega)]
    exact List.mem_singleton_self _

/-- The holes in front of intervals, one by one. -/
lemma split_of_mem_innerHoles {us : List Interval} {cursor : ℤ} {h : Interval}
    (hh : h ∈ innerHoles us cursor) : ∃ before u after, us = before ++ u :: after ∧
      reach before cursor < u.start ∧ h = ⟨reach before cursor, u.start⟩ := by
  induction us generalizing cursor with
  | nil => cases hh
  | cons u us ih =>
    rw [innerHoles] at hh
    have hcases : (cursor < u.start ∧ h = ⟨cursor, u.start⟩) ∨
        h ∈ innerHoles us (max cursor u.stop) := by
      split at hh
      · exact (List.mem_cons.1 hh).imp_left (And.intro ‹_›)
      · exact .inr hh
    rcases hcases with ⟨hlt, rfl⟩ | hh
    · exact ⟨[], u, us, rfl, hlt, rfl⟩
    · obtain ⟨before, u', after, rfl, hlt, rfl⟩ := ih hh
      exact ⟨u :: before, u', after, rfl, hlt, rfl⟩

/-- A hole is not empty, starts at or behind the cursor, and ends where an interval starts. -/
lemma mem_innerHoles {us : List Interval} {cursor : ℤ} {h : Interval}
    (hh : h ∈ innerHoles us cursor) :
    (cursor ≤ h.start ∧ h.start < h.stop) ∧ ∃ u ∈ us, h.stop = u.start := by
  obtain ⟨before, u, after, rfl, hlt, rfl⟩ := split_of_mem_innerHoles hh
  exact ⟨⟨(le_reach before cursor).1, hlt⟩, u, List.mem_append_right _ (.head _), rfl⟩

end Segments
