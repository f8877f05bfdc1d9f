import DiskNexus.DiskLayout.Shrink

/-!
# Options of a plan

Growth, the move of trailing partitions to the end and the realignment are meant to be dropped with
a warning where they do not fit. They can refuse a plan that is applicable without them: what is
packed at the end is aligned downwards, and a realignment that is dropped undoes moves after a
shrink.
-/

namespace DiskNexus.DiskLayout

open Binary

/-! ## What is tried -/

section Options

variable (l : Layout) (opts : FitOptions) (align limit : ℕ)

/-- Where partitions packed at the end begin, and 0 if there is no room. -/
def packStart : List Slot → ℕ
  | [] => limit + 1
  | s :: slots => alignDown (packStart slots - s.size) align

/-- The captured partitions with the last data partition grown. -/
def grown (slots : List Slot) : List Slot :=
  if opts.grow ∧ tailEnd slots < limit then
    match splitLastData l slots with
    | none => slots
    | some (before, d, trailing) =>
      if isLogical l d.part ∨ (trailing ≠ [] ∧ !opts.moveRecoveryToEnd) then slots
      else
        match packAtEnd l align limit trailing with
        | .error _ => slots
        | .ok (stop, _) => before ++ d.growTo stop :: trailing
  else slots

/-- The place of `t` when its realignment to that of `m` is dropped. If it did not move, it stays.
-/
def dropped (m t : Slot) : ℕ × ℕ :=
  if m.plan.newFirst = t.plan.newFirst then (t.plan.newFirst, t.plan.newLast)
  else (t.plan.oldFirst, t.plan.oldLast)

/-- Partitions that are to be packed at the end begin behind the data partition. -/
def PackFits (slots : List Slot) : Prop :=
  ∀ r ∈ splitLastData l slots,
    opts.grow ∧ opts.moveRecoveryToEnd ∧ tailEnd slots < limit ∧ r.2.2 ≠ [] ∧
        (∀ s ∈ r.2.1 :: r.2.2, ¬ isLogical l s.part) →
      r.2.1.plan.newLast < packStart align limit r.2.2

instance (slots : List Slot) : Decidable (PackFits l opts align limit slots) :=
  inferInstanceAs (Decidable (∀ r ∈ splitLastData l slots, _ → _))

/-- A realignment that fits, or that can be dropped. -/
def RealignFits (slots : List Slot) : Prop :=
  let grown := grown l opts align limit slots
  let realigned := realigned l align grown
  Clear limit (places realigned) ∨
    limit < tailEnd realigned ∧ Clear limit (List.zipWith dropped realigned grown)

instance (slots : List Slot) : Decidable (RealignFits l opts align limit slots) :=
  inferInstanceAs (Decidable (_ ∨ _))

end Options

/-- **Options that refuse nothing**, for a plan that is applicable without them. On a target that is
large enough the realignment has to fit, or to be dropped, and without it what is packed at the end
has to be clear of the data partition. On a smaller one what is left has to fit realigned. -/
def OptionsFit (l : Layout) (tg : TargetGeometry) (opts : FitOptions) : Prop :=
  if tailEnd (capturedSlots l) ≤ lastUsable l tg then
    if opts.realign then RealignFits l opts (alignment l tg) (lastUsable l tg) (capturedSlots l)
    else PackFits l opts (alignment l tg) (lastUsable l tg) (capturedSlots l)
  else
    opts.realign →
      Clear (lastUsable l tg) (places (realigned l (alignment l tg) (leftSlots l tg opts)))

instance (l : Layout) (tg : TargetGeometry) (opts : FitOptions) :
    Decidable (OptionsFit l tg opts) := by
  delta OptionsFit
  infer_instance

/-! ## Packing at the end -/

section Pack

variable {l : Layout} {align limit : ℕ}

lemma alignDown_le (lba unit : ℕ) : alignDown lba unit ≤ lba := by
  unfold alignDown
  split <;> omega

lemma packStart_le (slots : List Slot) : packStart align limit slots ≤ limit + 1 := by
  cases slots with
  | nil => exact le_rfl
  | cons s slots =>
    refine (alignDown_le _ _).trans ((Nat.sub_le _ _).trans ?_)
    exact packStart_le slots

/-- Only logical partitions cannot be packed. -/
lemma packAtEnd_ok_iff {slots : List Slot} :
    (∃ r, packAtEnd l align limit slots = .ok r) ↔ ∀ s ∈ slots, ¬ isLogical l s.part := by
  induction slots with
  | nil => simp [packAtEnd]
  | cons s slots ih =>
    rw [List.forall_mem_cons, ← ih, packAtEnd]
    cases packAtEnd l align limit slots <;> by_cases h : isLogical l s.part <;> simp [h]

/-- The step of the packing. -/
lemma packAtEnd_cons {s : Slot} {slots packed : List Slot} {stop : ℕ}
    (h : packAtEnd l align limit (s :: slots) = .ok (stop, packed)) :
    ∃ stop' packed' first, packAtEnd l align limit slots = .ok (stop', packed') ∧
      ¬ isLogical l s.part ∧ first = alignDown (uint64 (stop' + 1 - s.size)) align ∧
        stop = uint64 (first - 1) ∧ packed = s.move first :: packed' := by
  unfold packAtEnd at h
  split at h
  · cases h
  · rename_i stop' packed' hslots
    split at h
    · cases h
    · rename_i hlogical
      cases h
      exact ⟨stop', packed', _, hslots, hlogical, rfl, rfl, rfl⟩

/-- A partition that is clear before the sector `e` is where there is room for it. -/
lemma alignDown_room {size e first : ℕ} (he : e ≤ 2 ^ 64) (hsize : 0 < size ∧ size < 2 ^ 64)
    (hfirst : first = alignDown (uint64 ((uint64 (e - 1 : ℤ) : ℤ) + 1 - size)) align)
    (hsome : first ≤ uint64 (first + size - 1)) (hnext : uint64 (first + size - 1) < e) :
    first = alignDown (e - size) align := by
  have hstop := uint64_cast (e - 1)
  have hroom := uint64_cast ((uint64 (e - 1 : ℤ) : ℤ) + 1 - size)
  have hlast := uint64_cast (first + size - 1)
  have hfirst_le := alignDown_le (uint64 ((uint64 (e - 1 : ℤ) : ℤ) + 1 - size)) align
  rcases Nat.lt_or_ge e size with hover | hfits
  · omega
  · have : uint64 ((uint64 (e - 1 : ℤ) : ℤ) + 1 - size) = e - size := by omega
    rw [hfirst, this]

lemma packAtEnd_lt (hN : limit < 2 ^ 64) {slots packed : List Slot} {stop : ℕ}
    (h : packAtEnd l align limit slots = .ok (stop, packed)) : stop < 2 ^ 64 := by
  cases slots with
  | nil =>
    cases h
    exact hN
  | cons s slots =>
    obtain ⟨-, -, -, -, -, -, rfl, -⟩ := packAtEnd_cons h
    exact uint64_lt _

/-- Packed partitions that are clear begin where there is room. -/
lemma packAtEnd_start (hN : limit < 2 ^ 64) {slots packed : List Slot} {stop : ℕ}
    (h : packAtEnd l align limit slots = .ok (stop, packed))
    (hclear : Clear limit (places packed)) (hsize : ∀ s ∈ slots, 0 < s.size) :
    stop = uint64 ((packStart align limit slots : ℤ) - 1) ∧
      ∀ t ∈ packed.head?, t.plan.newFirst = packStart align limit slots := by
  induction slots generalizing stop packed with
  | nil =>
    cases h
    have := uint64_cast ((packStart align limit [] : ℤ) - 1)
    simp only [packStart] at this ⊢
    exact ⟨by push_cast at this ⊢; omega, by simp⟩
  | cons s slots ih =>
    obtain ⟨stop', packed', first, hslots, -, hfirst, rfl, rfl⟩ := packAtEnd_cons h
    obtain ⟨hs, hrest⟩ := List.forall_mem_cons.1 hsize
    obtain ⟨⟨hsome, hlast⟩, hnext, hclear⟩ := clear_cons_iff.1 hclear
    obtain ⟨rfl, hhead⟩ := ih hslots hclear hrest
    have hle := @packStart_le align limit slots
    have hbefore : uint64 (first + s.size - 1) < packStart align limit slots := by
      cases slots with
      | nil => exact Nat.lt_succ_of_le hlast
      | cons t slots =>
        obtain ⟨_, packed'', first', -, -, -, -, rfl⟩ := packAtEnd_cons hslots
        exact (hhead _ rfl) ▸ hnext _ rfl
    have heq := alignDown_room (by omega) ⟨hs, uint64_lt _⟩ hfirst hsome hbefore
    rw [packStart, ← heq]
    exact ⟨rfl, by simp [Slot.move]⟩

/-- Where there is room, packed partitions are clear. -/
lemma packAtEnd_clear (hN : limit < 2 ^ 64) {slots packed : List Slot} {stop : ℕ}
    (h : packAtEnd l align limit slots = .ok (stop, packed))
    (hroom : 0 < packStart align limit slots) (hsize : ∀ s ∈ slots, 0 < s.size) :
    stop = packStart align limit slots - 1 ∧ Clear limit (places packed) ∧
      ∀ t ∈ packed.head?, t.plan.newFirst = packStart align limit slots := by
  induction slots generalizing stop packed with
  | nil =>
    cases h
    exact ⟨rfl, by simp [Clear, places], by simp⟩
  | cons s slots ih =>
    obtain ⟨stop', packed', first, hslots, -, hfirst, rfl, rfl⟩ := packAtEnd_cons h
    obtain ⟨hs, hrest⟩ := List.forall_mem_cons.1 hsize
    have hle := @packStart_le align limit slots
    have hdown := alignDown_le (packStart align limit slots - s.size) align
    rw [packStart] at hroom ⊢
    obtain ⟨rfl, hclear, hhead⟩ := ih hslots (by omega) hrest
    have hstart : first = alignDown (packStart align limit slots - s.size) align := by
      have := uint64_cast ((packStart align limit slots - 1 : ℕ) + 1 - s.size)
      rw [hfirst]
      congr 1
      omega
    rw [← hstart] at hroom hdown ⊢
    have hprev := uint64_cast (first - 1)
    have hlast := uint64_cast (first + s.size - 1)
    refine ⟨by omega, clear_cons_iff.2 ⟨?_, fun t ht => ?_, hclear⟩, by simp [Slot.move]⟩
    · simp only [Slot.move]
      omega
    · rw [hhead t ht]
      simp only [Slot.move]
      omega

/-- A partition that begins where another did is clear of what is before it. -/
lemma clear_append_iff {stop : ℕ} {xs ys zs : List Slot} {d d' : Slot}
    (h : Clear stop (places (xs ++ d :: zs))) (hfirst : d'.plan.newFirst = d.plan.newFirst) :
    Clear stop (places (xs ++ d' :: ys)) ↔ Clear stop (places (d' :: ys)) := by
  induction xs with
  | nil => rfl
  | cons x xs ih =>
    obtain ⟨hx, hnext, hrest⟩ := clear_cons_iff.1 h
    rw [List.cons_append, clear_cons_iff, ih hrest, and_iff_right hx, and_iff_right]
    cases xs with
    | nil => simpa [hfirst] using hnext
    | cons y xs => exact hnext

lemma clear_of_append {stop : ℕ} {xs ys : List Slot} (h : Clear stop (places (xs ++ ys))) :
    Clear stop (places ys) := by
  induction xs with
  | nil => exact h
  | cons x xs ih => exact ih (clear_cons_iff.1 h).2.2

lemma size_of_clear {stop : ℕ} (hstop : stop + 1 < 2 ^ 64) {slots : List Slot}
    (h : Clear stop (places slots)) {s : Slot} (hs : s ∈ slots) :
    0 < s.size := by
  have hplace := h.2 _ (List.mem_map_of_mem hs)
  have := s.size_cast
  omega

/-- **Growth before packed partitions** is clear if they begin behind the data partition. -/
lemma clear_packed_iff (hN : limit + 1 < 2 ^ 64) {before trailing packed : List Slot} {d d' : Slot}
    {stop : ℕ} (hclear : Clear limit (places (before ++ d :: trailing)))
    (hpack : packAtEnd l align limit trailing = .ok (stop, packed)) (htrailing : trailing ≠ [])
    (hd : d'.plan.newFirst = d.plan.newFirst ∧ d'.plan.newLast = max d.plan.newLast stop) :
    Clear limit (places (before ++ d' :: packed)) ↔
      d.plan.newLast < packStart align limit trailing := by
  have hsize : ∀ s ∈ trailing, 0 < s.size := fun s hs => size_of_clear hN hclear (by simp [hs])
  obtain ⟨⟨hsome, hlast⟩, -, -⟩ := clear_cons_iff.1 (clear_of_append hclear)
  have hle := @packStart_le align limit trailing
  rw [clear_append_iff hclear hd.1, clear_cons_iff, hd.1, hd.2]
  constructor
  · rintro ⟨-, hnext, hpacked⟩
    obtain ⟨s, slots, rfl⟩ := List.exists_cons_of_ne_nil htrailing
    obtain ⟨-, hhead⟩ := packAtEnd_start (by omega) hpack hpacked hsize
    obtain ⟨_, packed', first, -, -, -, -, rfl⟩ := packAtEnd_cons hpack
    have := hnext _ rfl
    rw [hhead _ rfl] at this
    omega
  · intro hroom
    obtain ⟨rfl, hpacked, hhead⟩ := packAtEnd_clear (by omega) hpack (by omega) hsize
    refine ⟨by omega, fun t ht => ?_, hpacked⟩
    rw [hhead t ht]
    omega

end Pack

/-! ## Growth -/

section Growth

variable {l : Layout} {opts : FitOptions} {align limit : ℕ}

/-- A partition `s` of the plan and `t` of the grown ones: they have one place, unless `s` was
packed at the end and `t` has its captured place. -/
structure Grown (l : Layout) (s t : Slot) : Prop extends Shaped l s t where
  shrink : s.plan.shrink = false
  stay : s.plan.moved = false → s.plan.newFirst = t.plan.newFirst ∧ s.plan.newLast = t.plan.newLast
  packed : s.plan.moved = true →
    t.plan.newFirst = t.plan.oldFirst ∧ t.plan.newLast = t.plan.oldLast

/-- A partition where it was captured. -/
def Slot.IsCaptured (s : Slot) : Prop := s = .captured s.part ∧ s.plan.newLast < 2 ^ 64

lemma grown_refl {s : Slot} (hmoved : s.plan.moved = false) (hshrink : s.plan.shrink = false)
    (hlast : s.plan.newLast < 2 ^ 64) : Grown l s s where
  part := rfl
  size := rfl
  old := ⟨rfl, rfl⟩
  bound := ⟨hlast, hlast⟩
  logical _ := ⟨rfl, rfl⟩
  shrink := hshrink
  stay _ := ⟨rfl, rfl⟩
  packed h := by simp [hmoved] at h

lemma forall₂_grown_refl {slots : List Slot} (h : ∀ s ∈ slots, s.IsCaptured) :
    List.Forall₂ (Grown l) slots slots := by
  refine List.forall₂_same.2 fun s hs => ?_
  obtain ⟨hs, hlast⟩ := h s hs
  exact grown_refl (by rw [hs]; rfl) (by rw [hs]; rfl) hlast

lemma packAtEnd_grown {slots packed : List Slot} {stop : ℕ}
    (h : packAtEnd l align limit slots = .ok (stop, packed)) (hslots : ∀ s ∈ slots, s.IsCaptured) :
    List.Forall₂ (Grown l) packed slots := by
  induction slots generalizing stop packed with
  | nil =>
    cases h
    exact .nil
  | cons s slots ih =>
    obtain ⟨stop', packed', first, hrest, hlogical, -, -, rfl⟩ := packAtEnd_cons h
    obtain ⟨⟨hs, hlast⟩, hslots⟩ := List.forall_mem_cons.1 hslots
    refine .cons ?_ (ih hrest hslots)
    exact ⟨⟨rfl, s.move_size first, ⟨rfl, rfl⟩, ⟨uint64_lt _, hlast⟩, fun hl => absurd hl hlogical⟩,
      by rw [Slot.move, hs]; rfl, by simp [Slot.move], fun _ => by rw [hs]; exact ⟨rfl, rfl⟩⟩

/-- The partitions on a target that is large enough, before a realignment. -/
lemma resize_grown {slots : List Slot} (hfits : tailEnd slots ≤ limit)
    (hN : limit < 2 ^ 64) (hslots : ∀ s ∈ slots, s.IsCaptured) :
    List.Forall₂ (Grown l) (resize l opts align limit slots).1
      (grown l opts align limit slots) := by
  have hrefl := @forall₂_grown_refl l slots hslots
  unfold resize grown
  simp only [if_pos hfits]
  by_cases hgrow : opts.grow = true ∧ tailEnd slots < limit
  swap
  · rw [if_neg hgrow, if_neg hgrow]
    exact hrefl
  rw [if_pos hgrow, if_pos hgrow]
  cases hsplit : splitLastData l slots with
  | none => exact hrefl
  | some r =>
    obtain ⟨before, d, trailing⟩ := r
    obtain rfl := splitLastData_eq hsplit
    obtain ⟨hbefore, hd⟩ := List.forall_mem_append.1 hslots
    obtain ⟨⟨hd, hlast⟩, htrailing⟩ := List.forall_mem_cons.1 hd
    simp only [growLast_eq]
    split
    · exact hrefl
    cases hpack : packAtEnd l align limit trailing with
    | error _ => exact hrefl
    | ok r =>
      refine List.rel_append (forall₂_grown_refl hbefore)
        (.cons ?_ (packAtEnd_grown hpack htrailing))
      obtain ⟨-, -, -, -, hshrink, hmoved⟩ := d.growTo_keeps r.1
      refine grown_refl (by rw [hmoved, hd]; rfl) (by rw [hshrink, hd]; rfl) ?_
      rw [Slot.growTo_newLast]
      exact max_lt hlast (packAtEnd_lt hN hpack)

lemma Slot.fallBack_place {s : Slot} (h : s.plan.shrink = false) :
    (s.fallBack.plan.newFirst, s.fallBack.plan.newLast) =
      if s.plan.moved then (s.plan.oldFirst, s.plan.oldLast)
        else (s.plan.newFirst, s.plan.newLast) := by
  unfold Slot.fallBack
  cases s.plan.moved <;> simp [h]

/-- What is dropped of a realignment of one partition. -/
lemma Grown.dropped {s t : Slot} (h : Grown l s t) (first : ℕ) :
    ((s.put first).fallBack.plan.newFirst, (s.put first).fallBack.plan.newLast) =
      dropped (t.put first) t := by
  rw [Slot.fallBack_place ((s.put_shrink first).trans h.shrink), DiskLayout.dropped, t.put_newFirst]
  unfold Slot.put
  cases hmoved : s.plan.moved with
  | true =>
    -- a packed partition goes back, wherever the realignment put it
    obtain ⟨hfirst, hlast⟩ := h.packed hmoved
    rw [hfirst, hlast, h.old.1.symm, h.old.2.symm]
    split <;> simp_all [Slot.move]
  | false =>
    obtain ⟨hfirst, hlast⟩ := h.stay hmoved
    rw [← hfirst, ← hlast, h.old.1.symm, h.old.2.symm]
    by_cases hput : first = s.plan.newFirst <;> simp [hput, Slot.move, hmoved]

/-- **A realignment that is dropped** after a growth. -/
lemma fallBack_places {xs ys : List Slot} (h : List.Forall₂ (Grown l) xs ys) (pos : ℕ) :
    places ((realignFrom l align pos xs).map Slot.fallBack) =
      List.zipWith dropped (realignFrom l align pos ys) ys := by
  induction h generalizing pos with
  | nil => rfl
  | @cons s t xs ys hst _ ih =>
    rw [realignFrom, realignFrom, ← hst.part]
    by_cases hlogical : isLogical l s.part
    · rw [if_pos hlogical, if_pos hlogical]
      refine congrArg₂ List.cons ?_ (ih _)
      have hstay := hst.dropped s.plan.newFirst
      have hsame : ∀ t : Slot, t.put t.plan.newFirst = t := by simp [Slot.put]
      rw [hsame] at hstay
      rwa [(hst.logical hlogical).1, hsame] at hstay
    · simp only [if_neg hlogical, ← hst.put_newLast]
      exact congrArg₂ List.cons (hst.dropped _) (ih _)

end Growth

/-! ## Plans with options -/

section Plans

variable {l : Layout} {tg : TargetGeometry} {opts : FitOptions} {plan : FitPlan} {align limit : ℕ}

/-- The passes depend on the minimal sizes only. -/
lemma shrinkPasses_congr {opts' : FitOptions} (h : opts'.minSize = opts.minSize) (passes : ℕ)
    (slots : List Slot) (need : ℕ) (warnings refusals : List String) :
    shrinkPasses l opts' align limit passes slots need warnings refusals =
      shrinkPasses l opts align limit passes slots need warnings refusals := by
  have hmin : minSectorsOf l opts' align = minSectorsOf l opts align := by
    funext s
    simp only [minSectorsOf, h]
  have hpass : shrinkPass l opts' align = shrinkPass l opts align := by
    funext slots
    induction slots with
    | nil => rfl
    | cons s slots ih =>
      funext need warnings
      simp only [shrinkPass, ih, hmin]
  induction passes generalizing slots need warnings refusals with
  | zero => rfl
  | succ passes ih => simp only [shrinkPasses, hpass, ih]

/-- On a smaller target growth is not tried. -/
lemma resize_congr {opts' : FitOptions} (h : opts'.minSize = opts.minSize) {slots : List Slot}
    (hsmall : limit < tailEnd slots) :
    resize l opts' align limit slots = resize l opts align limit slots := by
  unfold resize
  simp only [if_neg (Nat.not_le.2 hsmall), shrinkPasses_congr h]

/-- **Growth without a realignment.** -/
lemma resize_clear_iff {slots : List Slot} (hfits : tailEnd slots ≤ limit)
    (hN : limit + 1 < 2 ^ 64) (hclear : Clear limit (places slots)) :
    Clear limit (places (resize l opts align limit slots).1) ↔
      PackFits l opts align limit slots := by
  unfold resize PackFits
  simp only [if_pos hfits]
  by_cases hgrow : opts.grow = true ∧ tailEnd slots < limit
  swap
  · rw [if_neg hgrow]
    exact iff_of_true hclear fun r _ h => absurd ⟨h.1, h.2.2.1⟩ hgrow
  rw [if_pos hgrow]
  cases hsplit : splitLastData l slots with
  | none => exact iff_of_true hclear (by simp)
  | some r =>
    obtain ⟨before, d, trailing⟩ := r
    obtain rfl := splitLastData_eq hsplit
    simp only [growLast_eq, Option.mem_some_iff, forall_eq']
    split
    · rename_i hstay
      refine iff_of_true hclear fun h => ?_
      rcases hstay with hlogical | ⟨-, hmove⟩
      · exact absurd hlogical (h.2.2.2.2 d (.head _))
      · simp [h.2.1] at hmove
    rename_i hmoves
    rw [not_or] at hmoves
    cases hpack : packAtEnd l align limit trailing with
    | error p =>
      refine iff_of_true hclear fun h => ?_
      obtain ⟨r, hr⟩ := packAtEnd_ok_iff.2 fun s hs => h.2.2.2.2 s (.tail _ hs)
      rw [hpack] at hr
      cases hr
    | ok r =>
      have hkeeps := (d.growTo_keeps r.1).2.1
      by_cases htrailing : trailing = []
      · subst htrailing
        cases hpack
        refine iff_of_true ?_ (by simp)
        obtain ⟨⟨hsome, hlast⟩, -, -⟩ := clear_cons_iff.1 (clear_of_append hclear)
        rw [clear_append_iff hclear hkeeps, clear_cons_iff, hkeeps, Slot.growTo_newLast]
        refine ⟨by omega, by simp, by simp [Clear, places]⟩
      · refine (clear_packed_iff hN hclear hpack htrailing ⟨hkeeps, d.growTo_newLast r.1⟩).trans ?_
        have hnone := packAtEnd_ok_iff.1 ⟨r, hpack⟩
        have hmove : opts.moveRecoveryToEnd = true := by simpa [htrailing] using hmoves.2
        simp only [hgrow.1, hmove, hgrow.2, htrailing, List.forall_mem_cons, hmoves.1, ne_eq,
          not_false_eq_true, true_and]
        exact ⟨fun h _ => h, fun h => h hnone⟩

/-- **A realignment** of partitions that may have grown. -/
lemma realign_clear_iff {slots : List Slot} (hfits : tailEnd slots ≤ limit)
    (hN : limit < 2 ^ 64) (hslots : ∀ s ∈ slots, s.IsCaptured) :
    Clear limit (places (realign l align limit
        (resize l opts align limit slots).1).1) ↔
      RealignFits l opts align limit slots := by
  have hgrown := @resize_grown l opts align _ slots hfits hN hslots
  have hplaces : places (realigned l align (resize l opts align limit slots).1) =
      places (realigned l align (grown l opts align limit slots)) :=
    realignFrom_places (hgrown.imp fun _ _ h => h.toShaped) _
  have hstop : tailEnd (realigned l align (resize l opts align limit slots).1) =
      tailEnd (realigned l align (grown l opts align limit slots)) := by
    rw [tailEnd_eq, tailEnd_eq, hplaces]
  rw [realign_fst, hstop]
  split
  · rename_i hpast
    rw [realigned, fallBack_places hgrown]
    refine ⟨fun h => .inr ⟨hpast, h⟩, ?_⟩
    rintro (h | h)
    · exact absurd (tailEnd_le h) (Nat.not_le.2 hpast)
    · exact h.2
  · rename_i hin
    rw [hplaces]
    exact ⟨.inl, fun h => h.resolve_right fun h => hin h.1⟩

/-- A realignment of what is left after a shrink. -/
lemma realign_left_iff {xs : List Slot} (hsmall : lastUsable l tg < tailEnd (capturedSlots l))
    (h : List.Forall₂ (Shaped l) xs (leftSlots l tg opts)) :
    Clear (lastUsable l tg) (places (realign l (alignment l tg) (lastUsable l tg) xs).1) ↔
      Clear (lastUsable l tg) (places (realigned l (alignment l tg) (leftSlots l tg opts))) := by
  have hplaces : places (realigned l (alignment l tg) xs) =
      places (realigned l (alignment l tg) (leftSlots l tg opts)) := realignFrom_places h _
  rw [← hplaces]
  refine ⟨fun hclear => ?_, fun hclear => ?_⟩
  · rwa [realign_shrunk hsmall h hclear] at hclear
  · rw [realign_fst, if_neg (Nat.not_lt.2 (tailEnd_le hclear))]
    exact hclear

lemma isCaptured_capturedSlots (hlba : WordLBAs l) {s : Slot} (hs : s ∈ capturedSlots l) :
    s.IsCaptured := by
  refine ⟨?_, newLast_capturedSlots hlba hs⟩
  obtain ⟨p, -, rfl⟩ := List.mem_map.1 hs
  rfl

/-- **Which options refuse nothing.** If a plan without options is applicable, then the plan with
options is so exactly if they fit. -/
theorem planFit_options_iff (hlba : WordLBAs l) (htg : tg.size < 2 ^ 63)
    {minSize : Option (Partition → Option ℤ)}
    (h : planFit l tg ⟨false, false, false, minSize⟩ = .ok plan) (happ : plan.Applicable)
    (grow move realign : Bool) :
    ∃ plan', planFit l tg ⟨grow, move, realign, minSize⟩ = .ok plan' ∧
      (plan'.Applicable ↔ OptionsFit l tg ⟨grow, move, realign, minSize⟩) := by
  obtain ⟨hplan, hroom⟩ := planFit_placed h happ
  have hN := lastUsable_lt htg hroom
  obtain rfl := Except.ok.inj ((hplan _).symm.trans h)
  refine ⟨_, hplan _, ?_⟩
  rw [applicable_planSlots] at happ ⊢
  obtain ⟨hsizes, hclear⟩ := happ
  unfold OptionsFit
  rcases Nat.lt_or_ge (lastUsable l tg) (tailEnd (capturedSlots l)) with hsmall | hfits
  · have hresize : resized l tg ⟨grow, move, realign, minSize⟩ =
        resized l tg ⟨false, false, false, minSize⟩ := by
      refine resize_congr ?_ hsmall
      rfl
    have hleft := @resize_alike l tg ⟨grow, move, realign, minSize⟩ hlba hsmall (hresize ▸ hsizes)
    rw [if_neg (Nat.not_le.2 hsmall), hresize, and_iff_right hsizes, finalSlots]
    cases realign with
    | false =>
      rw [hresize]
      exact iff_of_true hclear (by simp)
    | true => exact (realign_left_iff hsmall hleft.forall₂).trans (by simp)
  · have hcaptured := fun s => @isCaptured_capturedSlots l hlba s
    have hnone : ∀ opts, (resized l tg opts).2.2 = [] := by
      intro opts
      unfold resized resize
      simp only [if_pos hfits]
      split
      · split <;> rfl
      · rfl
    have hsame : finalSlots l tg ⟨false, false, false, minSize⟩ = capturedSlots l := by
      simp [finalSlots, resized, resize, hfits]
    rw [if_pos hfits, and_iff_right (hnone _), finalSlots]
    rw [hsame] at hclear
    cases realign with
    | false => exact resize_clear_iff hfits hN hclear
    | true => exact realign_clear_iff hfits (by omega) hcaptured

end Plans

/-- Whether a plan is made, and is applicable. -/
def fits (l : Layout) (sectors : ℕ) (opts : FitOptions) : Option Bool :=
  (planFit l ⟨sectors * 512, 512, 512⟩ opts).toOption.map (·.refusals.isEmpty)

/-- The Linux partition is to grow, and the realignment does not fit: both are dropped. -/
theorem planFit_options_drop : ∃ plan,
    planFit (twoParts 34 2047 3000 3099) ⟨6000 * 512, 512, 512⟩
      ⟨true, true, true, none⟩ = .ok plan ∧
      plan.Applicable := by
  obtain ⟨plan, h, happ⟩ : ∃ plan, planFit (twoParts 34 2047 3000 3099) ⟨6000 * 512, 512, 512⟩
      ⟨false, false, false, none⟩ = .ok plan ∧ plan.Applicable := ⟨_, rfl, rfl⟩
  obtain ⟨plan', h', hiff⟩ := planFit_options_iff (by unfold WordLBAs; decide) (by decide) h happ
    true true true
  exact ⟨plan', h', hiff.2 (by decide +kernel)⟩

/-- **Options that refuse what fits.** With both options the other partition is aligned downwards
onto the Linux partition. A realignment that is dropped leaves a partition that was shrunk where it
was moved to, and puts the one behind it back off the target. -/
theorem planFit_options_refuse :
    (fits (twoParts 2048 4999 5000 5099) 5134 ⟨false, false, false, none⟩ = some true ∧
      fits (twoParts 2048 4999 5000 5099) 5134 ⟨true, true, false, none⟩ = some false) ∧
    fits (twoParts 34 8191 8192 8291) 8225 ⟨false, false, false, none⟩ = some true ∧
      fits (twoParts 34 8191 8192 8291) 8225 ⟨false, false, true, none⟩ = some false := by
  decide +kernel

end DiskNexus.DiskLayout
