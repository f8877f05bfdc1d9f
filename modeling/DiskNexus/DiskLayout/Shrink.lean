import Mathlib.Data.Int.ModEq
import DiskNexus.DiskLayout.PlanFit

/-!
# What a shrink takes

The passes of `PlanFit` for a smaller target amount to one withdrawal of sectors from the tail
backwards, which has the residue of the excess modulo the alignment. A partition that was shrunk has
any number of sectors, while `resize2fs` is asked for whole KiB, rounded up.

## Main results

`shrinkPasses_alike`, `resize2fs_fits_iff`
-/

namespace DiskNexus.DiskLayout

open Binary

/-! ## Partitions of the same form -/

section Form

variable (l : Layout)

/-- Two plans for a partition, at other places unless it is a logical one. -/
structure Shaped (s t : Slot) : Prop where
  part : s.part = t.part
  size : s.size = t.size
  old : s.plan.oldFirst = t.plan.oldFirst ∧ s.plan.oldLast = t.plan.oldLast
  bound : s.plan.newLast < 2 ^ 64 ∧ t.plan.newLast < 2 ^ 64
  logical : isLogical l s.part →
    s.plan.newFirst = t.plan.newFirst ∧ s.plan.newLast = t.plan.newLast

/-- Plans of which the same partitions are shrunk, and that differ in the places behind the first of
these, or in all if something before them was shrunk. -/
inductive Alike : Bool → List Slot → List Slot → Prop
  | nil (shifted : Bool) : Alike shifted [] []
  | cons {shifted : Bool} {s t : Slot} {xs ys : List Slot} (hst : Shaped l s t)
      (hshrink : s.plan.shrink = t.plan.shrink)
      (hplace : shifted = false → s.plan.newFirst = t.plan.newFirst ∧
        s.plan.newLast = t.plan.newLast)
      (h : Alike (shifted || s.plan.shrink) xs ys) : Alike shifted (s :: xs) (t :: ys)

variable {l} {align : ℕ} {shifted : Bool} {xs ys : List Slot}

/-- A partition that is put somewhere keeps its form. -/
lemma Shaped.put {s t : Slot} (h : Shaped l s t) (hlogical : ¬ isLogical l s.part) (first : ℕ) :
    Shaped l (s.put first) t where
  part := s.put_part first ▸ h.part
  size := s.put_size first ▸ h.size
  old := by
    unfold Slot.put
    split <;> exact h.old
  bound := ⟨s.put_newLast first h.bound.1 ▸ uint64_lt _, h.bound.2⟩
  logical hl := absurd (s.put_part first ▸ hl) hlogical

/-- Plans of one form end at one place when they are put at one. -/
lemma Shaped.put_newLast {s t : Slot} (h : Shaped l s t) (first : ℕ) :
    (s.put first).plan.newLast = (t.put first).plan.newLast := by
  rw [s.put_newLast _ h.bound.1, t.put_newLast _ h.bound.2, h.size]

lemma Alike.forall₂ (h : Alike l shifted xs ys) : List.Forall₂ (Shaped l) xs ys := by
  induction h with
  | nil => exact .nil
  | cons hst _ _ _ ih => exact .cons hst ih

lemma oldLast_of_shaped (h : List.Forall₂ (Shaped l) xs ys) :
    xs.map (·.plan.oldLast) = ys.map (·.plan.oldLast) := by
  induction h with
  | nil => rfl
  | cons hst _ ih => exact congrArg₂ List.cons hst.old.2 ih

lemma size_of_shaped (h : List.Forall₂ (Shaped l) xs ys) : xs.map Slot.size = ys.map Slot.size := by
  induction h with
  | nil => rfl
  | cons hst _ ih => exact congrArg₂ List.cons hst.size ih

/-- Whether partitions are shrunk. -/
def shrunk (slots : List Slot) : List Bool := slots.map (·.plan.shrink)

lemma Alike.shrunk_eq (h : Alike l shifted xs ys) : shrunk xs = shrunk ys := by
  induction h with
  | nil => rfl
  | cons _ hshrink _ _ ih => exact congrArg₂ List.cons hshrink ih

lemma Alike.refl (h : ∀ s ∈ xs, s.plan.newLast < 2 ^ 64) : Alike l shifted xs xs := by
  induction xs generalizing shifted with
  | nil => exact .nil _
  | cons s xs ih =>
    obtain ⟨hs, hxs⟩ := List.forall_mem_cons.1 h
    exact .cons ⟨rfl, rfl, ⟨rfl, rfl⟩, ⟨hs, hs⟩, fun _ => ⟨rfl, rfl⟩⟩ rfl (fun _ => ⟨rfl, rfl⟩)
      (ih hxs)

/-- Before the first partition that was shrunk nothing is moved. -/
lemma relayout_front (last : ℕ) (s : Slot) (slots : List Slot) :
    (relayout l align false last (s :: slots)).1 =
      s :: (relayout l align s.plan.shrink s.plan.newLast slots).1 := by
  simp [relayout]

/-- Behind it a partition is put behind the one before it, unless it is logical. -/
lemma relayout_behind (last : ℕ) (s : Slot) (slots : List Slot) :
    (relayout l align true last (s :: slots)).1 =
      let s := if isLogical l s.part then s else s.put (alignUp (uint64 (last + 1)) align)
      s :: (relayout l align true s.plan.newLast slots).1 := by
  by_cases hlogical : isLogical l s.part <;> simp [relayout, hlogical]

/-- The new layout depends on the form only. -/
lemma relayout_places (h : Alike l shifted xs ys) (last : ℕ) :
    places (relayout l align shifted last xs).1 = places (relayout l align shifted last ys).1 := by
  induction h generalizing last with
  | nil => rfl
  | @cons shifted s t xs ys hst hshrink hplace _ ih =>
    cases shifted with
    | false =>
      obtain ⟨hfirst, hlast⟩ := hplace rfl
      rw [relayout_front, relayout_front, ← hshrink, ← hlast]
      exact places_cons hfirst hlast (ih _)
    | true =>
      rw [relayout_behind, relayout_behind, ← hst.part]
      by_cases hlogical : isLogical l s.part
      · obtain ⟨hfirst, hlast⟩ := hst.logical hlogical
        simp only [if_pos hlogical, ← hlast]
        exact places_cons hfirst hlast (ih _)
      · have hlast := hst.put_newLast (alignUp (uint64 (last + 1)) align)
        simp only [if_neg hlogical, ← hlast]
        refine places_cons ?_ hlast (ih _)
        rw [Slot.put_newFirst, Slot.put_newFirst]

/-- The new layout has the form of the old one. -/
lemma relayout_alike (h : Alike l shifted xs ys) (last : ℕ) :
    Alike l shifted (relayout l align shifted last xs).1 ys := by
  induction h generalizing last with
  | nil => exact .nil _
  | @cons shifted s t xs ys hst hshrink hplace _ ih =>
    cases shifted with
    | false =>
      exact .cons hst hshrink hplace (ih _)
    | true =>
      rw [relayout_behind]
      by_cases hlogical : isLogical l s.part
      · simp only [if_pos hlogical]
        exact .cons hst hshrink hplace (ih _)
      · simp only [if_neg hlogical]
        refine .cons (hst.put hlogical _) ((s.put_shrink _).trans hshrink) (by simp) ?_
        exact ih _

/-- The realignment depends on the form only. -/
lemma realignFrom_places (h : List.Forall₂ (Shaped l) xs ys) (pos : ℕ) :
    places (realignFrom l align pos xs) = places (realignFrom l align pos ys) := by
  induction h generalizing pos with
  | nil => rfl
  | @cons s t xs ys hst _ ih =>
    rw [realignFrom, realignFrom, ← hst.part]
    by_cases hlogical : isLogical l s.part
    · obtain ⟨hfirst, hlast⟩ := hst.logical hlogical
      rw [if_pos hlogical, if_pos hlogical]
      exact places_cons hfirst hlast (ih _)
    · have hlast := hst.put_newLast (alignUp pos align)
      simp only [if_neg hlogical, ← hlast]
      refine places_cons ?_ hlast (ih _)
      rw [Slot.put_newFirst, Slot.put_newFirst]

/-- The realignment keeps the form. -/
lemma realignFrom_shaped (h : List.Forall₂ (Shaped l) xs ys) (pos : ℕ) :
    List.Forall₂ (Shaped l) (realignFrom l align pos xs) ys := by
  induction h generalizing pos with
  | nil => exact .nil
  | @cons s t xs ys hst _ ih =>
    unfold realignFrom
    split_ifs with hlogical
    · exact .cons hst (ih _)
    · exact .cons (hst.put hlogical _) (ih _)

/-! ## What is shrunk -/

lemma packAtEnd_shrunk {limit stop : ℕ} {slots packed : List Slot}
    (h : packAtEnd l align limit slots = .ok (stop, packed)) : shrunk packed = shrunk slots := by
  induction slots generalizing stop packed with
  | nil =>
    cases h
    rfl
  | cons s slots ih =>
    unfold packAtEnd at h
    split at h
    · cases h
    · rename_i hslots
      split at h
      · cases h
      · cases h
        exact congrArg (List.cons _) (ih hslots)

/-- Growth shrinks nothing. -/
lemma growLast_shrunk {opts : FitOptions} {limit : ℕ} {before trailing : List Slot} {d : Slot} :
    shrunk (growLast l opts align limit before d trailing).1 =
      shrunk (before ++ d :: trailing) := by
  rw [growLast_eq]
  split
  · rfl
  split
  · rfl
  · rename_i hpack
    have hpacked := packAtEnd_shrunk hpack
    have hgrow := (d.growTo_keeps ‹_›).2.2.2.2.1
    simp_all [shrunk]

lemma realignFrom_shrunk (pos : ℕ) : shrunk (realignFrom l align pos xs) = shrunk xs := by
  induction xs generalizing pos with
  | nil => rfl
  | cons s xs ih =>
    unfold realignFrom
    split
    · exact congrArg (List.cons _) (ih _)
    · exact congrArg₂ List.cons (s.put_shrink _) (ih _)

lemma realign_shrunk_eq {limit : ℕ} :
    shrunk (realign l align limit xs).1 = shrunk xs := by
  have hdrop : ∀ s : Slot, s.fallBack.plan.shrink = s.plan.shrink := by
    intro s
    unfold Slot.fallBack
    split <;> rfl
  rw [realign_fst, ← @realignFrom_shrunk l align xs (alignUp l.firstUsableLBA align)]
  split
  · simp only [shrunk, List.map_map, Function.comp_def, hdrop]
    rfl
  · rfl

end Form

/-! ## Withdrawals -/

section Shrink

variable (l : Layout) (opts : FitOptions) (align limit : ℕ)

/-- The sectors that a data partition has above its minimum. -/
def allowance (s : Slot) : ℕ :=
  if isData l s.part ∧ ¬ isLogical l s.part then s.size - (minSectorsOf l opts align s).1 else 0

/-- The sectors that partitions can give. -/
def allowances (slots : List Slot) : ℕ := (slots.map (allowance l opts align)).sum

/-- A partition that gives `n` sectors. -/
def Slot.give (s : Slot) (n : ℕ) : Slot :=
  { s with plan := { s.plan with
      newLast := uint64 (s.plan.newLast - n), shrink := s.plan.shrink || decide (0 < n) } }

/-- The partitions when `n` sectors are taken from the tail backwards. -/
def takeBack (n : ℕ) : List Slot → List Slot
  | [] => []
  | s :: slots =>
    s.give (min (allowance l opts align s) (n - allowances l opts align slots)) :: takeBack n slots

/-- The sectors that are taken in all, where `n` have been taken and `need` are to be taken next:
what the partitions that are left still miss is taken in whole alignment units. -/
def takenBy (slots : List Slot) : ℕ → ℕ → ℕ → ℕ
  | 0, n, _ => n
  | passes + 1, n, need =>
    if need = 0 then n
    else
      let stop := tailEnd (relayout l align false 0 (takeBack l opts align (n + need) slots)).1
      takenBy slots passes (n + need)
        (if limit < stop then alignUp (stop - limit) align else 0)

variable {l opts align limit}

lemma Slot.give_size {s : Slot} {n : ℕ} (h : n ≤ s.size) : (s.give n).size = s.size - n := by
  have hsize := s.size_cast
  have hlast := uint64_cast (s.plan.newLast - n)
  have hgiven := uint64_cast (uint64 (s.plan.newLast - n) - s.plan.newFirst + 1)
  change uint64 (uint64 (s.plan.newLast - n) - s.plan.newFirst + 1) = _
  omega

lemma allowance_le (s : Slot) : allowance l opts align s ≤ s.size := by
  unfold allowance
  split <;> omega

/-- The minimum is that of the partition. -/
lemma minSectorsOf_congr {s t : Slot} (h : s.part = t.part) :
    (minSectorsOf l opts align s).1 = (minSectorsOf l opts align t).1 := by
  simp only [minSectorsOf, h]
  split <;> rfl

/-- What a partition can give after it has given `n` sectors. -/
lemma allowance_give {s t : Slot} {n : ℕ} (hpart : s.part = t.part) (hsize : s.size = t.size - n) :
    allowance l opts align s = allowance l opts align t - n := by
  unfold allowance
  rw [hpart, hsize, minSectorsOf_congr hpart]
  split <;> omega

lemma takeBack_allowance_le (n : ℕ) (s : Slot) (slots : List Slot) :
    min (allowance l opts align s) (n - allowances l opts align slots) ≤ s.size :=
  (min_le_left _ _).trans (allowance_le s)

/-- What is found out about a minimum leaves the place as it is. -/
lemma minSectorsOf_slot (s : Slot) : ∃ minBytes, (minSectorsOf l opts align s).2.1 =
    s.noteMin minBytes := by
  unfold minSectorsOf
  split
  · exact ⟨_, rfl⟩
  · exact ⟨s.plan.minBytes, rfl⟩

@[simp] lemma Slot.noteMin_size (s : Slot) (minBytes : ℤ) :
    (s.noteMin minBytes).size = s.size := rfl

@[simp] lemma Slot.noteMin_newLast (s : Slot) (minBytes : ℤ) :
    (s.noteMin minBytes).plan.newLast = s.plan.newLast := rfl

lemma Slot.give_zero {s : Slot} (h : s.plan.newLast < 2 ^ 64) : s.give 0 = s := by
  have hlast := uint64_cast s.plan.newLast
  have hsame : uint64 s.plan.newLast = s.plan.newLast := by omega
  simp [Slot.give, hsame]

/-- What a pass does with a partition, when `left` sectors are still needed. -/
lemma shrinkPass_cons {s : Slot} (hs : s.plan.newLast < 2 ^ 64) {slots slots' : List Slot}
    {need left : ℕ} {warnings warnings' : List String}
    (h : shrinkPass l opts align slots need warnings = (slots', left, warnings')) :
    ∃ minBytes warnings'', shrinkPass l opts align (s :: slots) need warnings =
      ((s.noteMin minBytes).give (min (allowance l opts align s) left) :: slots',
        left - allowance l opts align s, warnings'') := by
  obtain ⟨minBytes, hmin⟩ := @minSectorsOf_slot l opts align s
  rw [shrinkPass, h]
  simp only
  by_cases hskip : left = 0 ∨ (!isData l s.part) = true ∨ isLogical l s.part
  · have hnone : min (allowance l opts align s) left = 0 := by
      rcases hskip with hleft | hdata | hlogical
      · omega
      · simp_all [allowance]
      · simp [allowance, hlogical]
    rw [if_pos hskip, hnone, show left - allowance l opts align s = left by omega]
    exact ⟨s.plan.minBytes, warnings', by rw [Slot.give_zero (s.noteMin_newLast _ ▸ hs)]; rfl⟩
  · have hdata : isData l s.part ∧ ¬ isLogical l s.part := by simp_all
    have hgive : allowance l opts align s = s.size - (minSectorsOf l opts align s).1 := if_pos hdata
    rw [if_neg hskip, hmin, hgive]
    refine ⟨minBytes, warnings' ++ (minSectorsOf l opts align s).2.2.filter (· ∉ warnings'), ?_⟩
    simp only [Slot.noteMin_size, min_comm left]
    split
    · rename_i hzero
      rw [hzero, Slot.give_zero (s.noteMin_newLast _ ▸ hs),
        show left - (s.size - (minSectorsOf l opts align s).1) = left by omega]
    · rename_i hpos
      have htaken : left - min (s.size - (minSectorsOf l opts align s).1) left =
          left - (s.size - (minSectorsOf l opts align s).1) := by omega
      rw [htaken]
      simp [Slot.give, Nat.pos_of_ne_zero hpos]

/-- A partition that gives more gives the sum. -/
lemma Slot.give_newLast {s c : Slot} {n : ℕ} (h : s.plan.newLast = (c.give n).plan.newLast)
    (k : ℕ) :
    (s.give k).plan.newLast = (c.give (n + k)).plan.newLast := by
  have hgiven := uint64_cast (c.plan.newLast - n)
  have hmore := uint64_cast (s.plan.newLast - k)
  have hsum := uint64_cast (c.plan.newLast - (n + k : ℕ))
  change s.plan.newLast = uint64 (c.plan.newLast - n) at h
  change uint64 (s.plan.newLast - k) = uint64 (c.plan.newLast - (n + k : ℕ))
  omega

lemma Shaped.give {s c : Slot} {n k : ℕ} (h : Shaped l s (c.give n)) (hle : n + k ≤ c.size)
    (minBytes : ℤ) :
    Shaped l ((s.noteMin minBytes).give k) (c.give (n + k)) where
  part := h.part
  size := by
    have hsize : s.size = c.size - n := h.size.trans (Slot.give_size (by omega))
    rw [Slot.give_size hle, Slot.give_size (by rw [Slot.noteMin_size]; omega), Slot.noteMin_size]
    omega
  old := h.old
  bound := ⟨uint64_lt _, uint64_lt _⟩
  logical hl := ⟨(h.logical hl).1, Slot.give_newLast (h.logical hl).2 k⟩

/-- A pass takes what is needed, behind what was taken before. -/
lemma shrinkPass_alike {xs cs : List Slot} {shifted shifted' : Bool} {n : ℕ} (need : ℕ)
    (warnings : List String) (hshift : shifted → shifted')
    (h : Alike l shifted xs (takeBack l opts align n cs)) :
    ∃ slots warnings', shrinkPass l opts align xs need warnings =
        (slots, need - (allowances l opts align cs - n), warnings') ∧
      Alike l shifted' slots (takeBack l opts align (n + need) cs) := by
  induction cs generalizing xs shifted shifted' with
  | nil =>
    cases h
    exact ⟨[], warnings, by simp [shrinkPass, allowances], .nil _⟩
  | cons c cs ih =>
    cases h with
    | @cons _ s t xs _ hst hshrink hplace h =>
      set given := min (allowance l opts align c) (n - allowances l opts align cs) with hgiven
      have hle := @allowance_le l opts align c
      have hallow : allowance l opts align s = allowance l opts align c - given :=
        @allowance_give l opts align _ c _ hst.part
          (hst.size.trans (Slot.give_size (takeBack_allowance_le n c cs)))
      set more :=
        min (allowance l opts align s) (need - (allowances l opts align cs - n)) with hmore
      have hsum : given + more =
          min (allowance l opts align c) (n + need - allowances l opts align cs) := by omega
      have hflag : (s.plan.shrink || decide (0 < more)) =
          (c.plan.shrink || decide (0 < given + more)) := by
        rw [hshrink]
        change (c.plan.shrink || decide (0 < given) || decide (0 < more)) = _
        rw [Bool.or_assoc, ← Bool.decide_or]
        congr 2
        exact propext (by omega)
      obtain ⟨slots, warnings', hpass, hslots⟩ := @ih xs _
        (shifted' || (s.plan.shrink || decide (0 < more))) (by
          cases shifted <;> simp_all) h
      obtain ⟨minBytes, warnings'', hcons⟩ :=
        @shrinkPass_cons l opts align s hst.bound.1 _ _ _ _ _ _ hpass
      refine ⟨(s.noteMin minBytes).give more :: slots, warnings'', ?_, ?_⟩
      · rw [hcons]
        have hleft : need - (allowances l opts align cs - n) - allowance l opts align s =
            need - (allowances l opts align (c :: cs) - n) := by
          simp only [allowances, List.map_cons, List.sum_cons] at hgiven ⊢
          omega
        rw [hleft]
      · rw [takeBack, ← hsum]
        refine .cons (hst.give (by omega) minBytes) hflag (fun hfront => ?_) hslots
        have hfront' : shifted = false := by
          cases shifted
          · rfl
          · exact absurd (hshift rfl) (by simp [hfront])
        exact ⟨(hplace hfront').1, Slot.give_newLast (hplace hfront').2 more⟩

/-- **The passes take the sectors of one withdrawal.** -/
lemma shrinkPasses_alike {cs : List Slot} {passes : ℕ} {xs : List Slot} {n need : ℕ}
    {warnings refusals : List String} (h : Alike l false xs (takeBack l opts align n cs))
    (hdone : (shrinkPasses l opts align limit passes xs need warnings refusals).2.1 = 0) :
    Alike l false (shrinkPasses l opts align limit passes xs need warnings refusals).1
      (takeBack l opts align (takenBy l opts align limit cs passes n need) cs) := by
  induction passes generalizing xs n need warnings refusals with
  | zero => exact h
  | succ passes ih =>
    unfold takenBy
    by_cases hneed : need = 0
    · simp only [shrinkPasses, if_pos hneed]
      exact h
    · obtain ⟨slots, warnings', hpass, hslots⟩ := shrinkPass_alike need warnings (fun h => h) h
      simp only [shrinkPasses, if_neg hneed, hpass] at hdone ⊢
      split at hdone
      · simp only at hdone
        omega
      · rename_i hmoves
        have hstop : tailEnd (relayout l align false 0 slots).1 = tailEnd (relayout l align false 0
            (takeBack l opts align (n + need) cs)).1 := by
          rw [tailEnd_eq, tailEnd_eq, relayout_places hslots]
        rw [if_neg hmoves]
        simp only [hstop] at hdone ⊢
        exact ih (relayout_alike hslots 0) hdone

lemma dvd_alignUp (halign : align ∣ 2 ^ 64) (lba : ℕ) : align ∣ alignUp lba align := by
  have hunit : align ≠ 0 := by
    rintro rfl
    norm_num at halign
  unfold alignUp
  split_ifs with h
  · exact Nat.dvd_of_mod_eq_zero (h.resolve_left hunit)
  · have hword := uint64_cast (lba + align - lba % align)
    have hwhole : (align : ℤ) ∣ lba + align - lba % align := by
      rw [show (lba : ℤ) + align - lba % align = (lba - lba % align) + align by ring]
      exact dvd_add Int.dvd_self_sub_emod dvd_rfl
    have hrest : (lba + align - lba % align : ℤ) % 2 ^ 64 % align = 0 := by
      rw [Int.emod_emod_of_dvd _ (by exact_mod_cast halign)]
      exact Int.emod_eq_zero_of_dvd hwhole
    rw [← hword] at hrest
    exact_mod_cast Int.dvd_of_emod_eq_zero hrest

/-- Units are added to the excess. -/
lemma takenBy_modEq {cs : List Slot} (halign : align ∣ 2 ^ 64) {passes n need : ℕ}
    (hneed : align ∣ need) :
    takenBy l opts align limit cs passes n need ≡ n [MOD align] := by
  induction passes generalizing n need with
  | zero => rfl
  | succ passes ih =>
    unfold takenBy
    split
    · rfl
    · refine (ih ?_).trans (by simpa using (Nat.modEq_zero_iff_dvd.2 hneed).add_left n)
      split
      · exact dvd_alignUp halign _
      · exact dvd_zero _

/-! ## The realignment of what was shrunk -/

variable {xs : List Slot}

/-- A partition that was captured off the target is off it when a realignment is dropped. -/
lemma tailEnd_fallBack (hlast : limit < tailEnd xs)
    (hold : limit < ((xs.map (·.plan.oldLast)).getLast?).getD 0) :
    limit < tailEnd (xs.map Slot.fallBack) := by
  unfold tailEnd at hlast ⊢
  rw [List.getLast?_map] at hold ⊢
  cases hs : xs.getLast? with
  | none => simp [hs] at hlast
  | some s =>
    simp only [hs, Option.map_some, Option.getD_some] at hlast hold ⊢
    unfold Slot.fallBack
    split
    · exact hold
    · exact hlast

end Shrink

/-! ## The planner on a smaller target -/

section Planner

variable {l : Layout} {tg : TargetGeometry} {opts : FitOptions} {plan : FitPlan}

/-- The sectors that the plan for a target takes from the data partitions. -/
def taken (l : Layout) (tg : TargetGeometry) (opts : FitOptions) : ℕ :=
  takenBy l opts (alignment l tg) (lastUsable l tg) (capturedSlots l) 16 0
    (tailEnd (capturedSlots l) - lastUsable l tg)

/-- The partitions that are left, at their captured places. -/
def leftSlots (l : Layout) (tg : TargetGeometry) (opts : FitOptions) : List Slot :=
  takeBack l opts (alignment l tg) (taken l tg opts) (capturedSlots l)

/-- Sectors are 64-bit numbers. -/
def WordLBAs (l : Layout) : Prop := ∀ p ∈ l.partitions, p.lastLBA < 2 ^ 64

lemma newLast_capturedSlots (hlba : WordLBAs l) {s : Slot} (hs : s ∈ capturedSlots l) :
    s.plan.newLast < 2 ^ 64 := by
  obtain ⟨p, hp, rfl⟩ := List.mem_map.1 hs
  exact hlba p ((List.mem_insertionSort _).1 hp)

lemma takeBack_zero {align : ℕ} {cs : List Slot} (h : ∀ c ∈ cs, c.plan.newLast < 2 ^ 64) :
    takeBack l opts align 0 cs = cs := by
  induction cs with
  | nil => rfl
  | cons c cs ih =>
    obtain ⟨hc, hcs⟩ := List.forall_mem_cons.1 h
    rw [takeBack, ih hcs, Nat.zero_sub, Nat.min_zero, Slot.give_zero hc]

/-- What is left of the partitions when nothing is refused. -/
lemma resize_alike (hlba : WordLBAs l) (hsmall : lastUsable l tg < tailEnd (capturedSlots l))
    (h : (resized l tg opts).2.2 = []) :
    Alike l false (resized l tg opts).1 (leftSlots l tg opts) := by
  have hcs := fun s => @newLast_capturedSlots l hlba s
  unfold resized resize at h ⊢
  simp only [if_neg (Nat.not_le.2 hsmall), List.append_eq_nil_iff] at h ⊢
  refine shrinkPasses_alike (n := 0) ?_ ?_
  · rw [takeBack_zero hcs]
    exact Alike.refl hcs
  · by_contra hneed
    simp [Nat.pos_of_ne_zero hneed] at h

/-- The old places are those of the captured layout. -/
lemma oldLast_leftSlots {xs : List Slot} (h : List.Forall₂ (Shaped l) xs (leftSlots l tg opts)) :
    xs.map (·.plan.oldLast) = (capturedSlots l).map (·.plan.newLast) := by
  have hleft : ∀ (n : ℕ) (cs : List Slot),
    (takeBack l opts (alignment l tg) n cs).map (·.plan.oldLast) =
      cs.map (·.plan.oldLast) := by
    intro n cs
    induction cs with
    | nil => rfl
    | cons c cs ih => exact congrArg (List.cons _) ih
  rw [oldLast_of_shaped h, leftSlots, hleft, capturedSlots, List.map_map, List.map_map]
  rfl

/-- **A shrink and a realignment.** What is left is realigned as a whole, or the plan is refused: a
realignment that is dropped leaves the last partition off the target. -/
lemma realign_shrunk {xs : List Slot} (hsmall : lastUsable l tg < tailEnd (capturedSlots l))
    (h : List.Forall₂ (Shaped l) xs (leftSlots l tg opts))
    (hclear :
      Clear (lastUsable l tg) (places (realign l (alignment l tg) (lastUsable l tg) xs).1)) :
    (realign l (alignment l tg) (lastUsable l tg) xs).1 = realigned l (alignment l tg) xs := by
  have hstop := tailEnd_le hclear
  rw [realign_fst] at hstop ⊢
  split at hstop
  · rename_i hpast
    refine absurd hstop (Nat.not_le.2 (tailEnd_fallBack hpast ?_))
    rw [realigned, oldLast_leftSlots (realignFrom_shaped h _)]
    simpa [tailEnd, List.getLast?_map] using hsmall
  · rename_i hfits
    rw [if_neg hfits]

/-- The final partitions on a smaller target are those that are left, at other places. -/
lemma finalSlots_shrunk (hlba : WordLBAs l) (hsmall : lastUsable l tg < tailEnd (capturedSlots l))
    (h : (resized l tg opts).2.2 = [])
    (hclear : Clear (lastUsable l tg) (places (finalSlots l tg opts))) :
    List.Forall₂ (Shaped l) (finalSlots l tg opts) (leftSlots l tg opts) ∧
      shrunk (finalSlots l tg opts) = shrunk (leftSlots l tg opts) := by
  have hleft := resize_alike hlba hsmall h
  unfold finalSlots at hclear ⊢
  split_ifs at hclear with hrealign
  · rw [if_pos hrealign, realign_shrunk hsmall hleft.forall₂ hclear, realigned, realignFrom_shrunk]
    exact ⟨realignFrom_shaped hleft.forall₂ _, hleft.shrunk_eq⟩
  · rw [if_neg hrealign]
    exact ⟨hleft.forall₂, hleft.shrunk_eq⟩

/-- On a target that is large enough nothing is shrunk. -/
lemma finalSlots_shrunk_eq (h : tailEnd (capturedSlots l) ≤ lastUsable l tg) :
    shrunk (finalSlots l tg opts) = shrunk (capturedSlots l) := by
  have hresize : shrunk (resized l tg opts).1 = shrunk (capturedSlots l) := by
    unfold resized resize
    simp only [if_pos h]
    split
    · split
      · rfl
      · rename_i hsplit
        rw [growLast_shrunk, ← splitLastData_eq hsplit]
    · rfl
  unfold finalSlots
  split
  · rw [realign_shrunk_eq, hresize]
  · exact hresize

/-- The sectors that are left to a partition that gives some, where `behind` is behind it: its
minimum, if all that can be given is taken, and otherwise what those behind it cannot give is
missing. -/
def sectorsLeft (l : Layout) (tg : TargetGeometry) (opts : FitOptions) (q : Slot)
    (behind : List Slot) :
    ℕ :=
  if allowances l opts (alignment l tg) (q :: behind) ≤ taken l tg opts then
    (minSectorsOf l opts (alignment l tg) q).1
  else q.size + allowances l opts (alignment l tg) behind - taken l tg opts

lemma takeBack_getElem? {align : ℕ} (n : ℕ) (before behind : List Slot) (q : Slot) :
    (takeBack l opts align n (before ++ q :: behind))[before.length]? =
      some (q.give (min (allowance l opts align q) (n - allowances l opts align behind))) := by
  induction before with
  | nil => rfl
  | cons c before ih => simpa [takeBack] using ih

/-- **The size of a partition that is shrunk.** -/
lemma size_shrunk (hlba : WordLBAs l) (h : planFit l tg opts = .ok plan) (happ : plan.Applicable)
    {before behind : List Slot} {q : Slot} (hq : capturedSlots l = before ++ q :: behind)
    {p : PlannedPartition} (hp : plan.partitions[before.length]? = some p)
    (hshrink : p.shrink = true) :
    ∃ s : Slot, s.plan = p ∧ s.size = sectorsLeft l tg opts q behind := by
  obtain rfl := Except.ok.inj (((planFit_placed h happ).1 opts).symm.trans h)
  obtain ⟨hsizes, hclear⟩ := applicable_planSlots.1 happ
  rw [partitions_planSlots hsizes, List.getElem?_map, Option.map_eq_some_iff] at hp
  obtain ⟨s, hs, rfl⟩ := hp
  refine ⟨s, rfl, ?_⟩
  have hnot : q.plan.shrink = false := by
    have hmem : q ∈ capturedSlots l := by simp [hq]
    obtain ⟨p, -, rfl⟩ := List.mem_map.1 hmem
    rfl
  have hflag : (shrunk (finalSlots l tg opts))[before.length]? = some true := by
    simp [shrunk, hs, hshrink]
  rcases Nat.lt_or_ge (lastUsable l tg) (tailEnd (capturedSlots l)) with hsmall | hfits
  · obtain ⟨hform, hflags⟩ := finalSlots_shrunk hlba hsmall hsizes hclear
    have hsize := congrArg (·[before.length]?) (size_of_shaped hform)
    have hgiven := @takeBack_getElem? l opts (alignment l tg) (taken l tg opts) before behind q
    rw [← hq] at hgiven
    rw [hflags] at hflag
    simp only [shrunk, List.getElem?_map, leftSlots, hgiven, hs, Option.map_some, Option.some.injEq,
      Slot.give, hnot, Bool.false_or, decide_eq_true_eq] at hflag hsize
    have hmin : 0 < allowance l opts (alignment l tg) q → allowance l opts (alignment l tg) q =
        q.size - (minSectorsOf l opts (alignment l tg) q).1 := by
      unfold allowance
      split <;> simp
    have hall : allowances l opts (alignment l tg) (q :: behind) =
      allowance l opts (alignment l tg) q + allowances l opts (alignment l tg) behind := rfl
    rw [hsize]
    refine (Slot.give_size (takeBack_allowance_le _ q behind)).trans ?_
    unfold sectorsLeft
    split <;> omega
  · rw [finalSlots_shrunk_eq hfits, hq] at hflag
    simp [shrunk, hnot] at hflag

/-! ## Shrinking an ext4 filesystem -/

/-- `ExternalShrinker.Shrink` of ext4: the KiB that `resize2fs` is asked for. -/
def resize2fsKiB (newLength : ℤ) : Option ℤ :=
  if newLength ≤ 0 then none else some ((int64 (newLength + 1023)).tdiv 1024)

/-- `resize2fs` is asked for the length at most exactly if that is whole KiB, or its rounding
overflows. -/
lemma resize2fsKiB_le_iff {b kib : ℤ} (hb : b < 2 ^ 63) (h : resize2fsKiB b = some kib) :
    kib * 1024 ≤ b ↔ 1024 ∣ b ∨ 2 ^ 63 ≤ b + 1023 := by
  unfold resize2fsKiB at h
  split at h
  · cases h
  · cases h
    by_cases hover : 2 ^ 63 ≤ b + 1023
    · have hwrap := int64_add_mul (-(2 ^ 64 - b - 1023)) 1
      rw [show -(2 ^ 64 - b - 1023) + 2 ^ 64 * 1 = b + 1023 by omega,
        @int64_eq (-(2 ^ 64 - b - 1023)) (by omega)] at hwrap
      rw [hwrap, Int.neg_tdiv, Int.tdiv_eq_ediv_of_nonneg (by omega)]
      omega
    · rw [int64_eq (by omega), Int.tdiv_eq_ediv_of_nonneg (by omega)]
      omega

/-- The length of a partition in bytes. -/
lemma Slot.newBytes_eq (s : Slot) (sectorSize : ℕ) :
    s.plan.newBytes sectorSize = int64 (s.size * sectorSize) := by
  obtain ⟨k, hk⟩ := int64_shift (s.plan.newLast - s.plan.newFirst + 1)
  have hsize := s.size_cast
  rw [Int.emod_def] at hsize
  have hbytes : ((s.plan.newLast : ℤ) - s.plan.newFirst + 1 + 2 ^ 64 * k) * sectorSize =
      s.size * sectorSize +
        2 ^ 64 * ((k + ((s.plan.newLast : ℤ) - s.plan.newFirst + 1) / 2 ^ 64) * sectorSize) := by
    rw [hsize]
    ring
  rw [PlannedPartition.newBytes, hk, hbytes, int64_add_mul]

/-- **When a shrunk filesystem fits.** For every partition that an applicable plan shrinks: what
`resize2fs` is asked for is at most the planned length exactly if the sectors that are left to it
are whole KiB, or their rounding overflows. What is taken has the residue of the excess. -/
theorem resize2fs_fits_iff (hlba : WordLBAs l) (h : planFit l tg opts = .ok plan)
    (happ : plan.Applicable) {before behind : List Slot} {q : Slot}
    (hq : capturedSlots l = before ++ q :: behind) {p : PlannedPartition}
    (hp : plan.partitions[before.length]? = some p) (hshrink : p.shrink = true) {kib : ℤ}
    (hkib : resize2fsKiB (p.newBytes l.sectorSize) = some kib) :
    (kib * 1024 ≤ p.newBytes l.sectorSize ↔
        1024 ∣ sectorsLeft l tg opts q behind * l.sectorSize ∨
          2 ^ 63 ≤ int64 (sectorsLeft l tg opts q behind * l.sectorSize) + 1023) ∧
      (alignment l tg ∣ 2 ^ 64 →
        taken l tg opts ≡ tailEnd (capturedSlots l) - lastUsable l tg [MOD alignment l tg]) := by
  obtain ⟨s, rfl, hsize⟩ := size_shrunk hlba h happ hq hp hshrink
  refine ⟨?_, fun halign => ?_⟩
  · rw [s.newBytes_eq, hsize] at hkib ⊢
    rw [resize2fsKiB_le_iff (int64_range _).2 hkib]
    refine or_congr_left ?_
    obtain ⟨k, hk⟩ := int64_shift (sectorsLeft l tg opts q behind * l.sectorSize)
    rw [hk]
    omega
  · unfold taken takenBy
    split_ifs with hnone
    · rw [hnone]
    · rw [Nat.zero_add]
      refine takenBy_modEq halign ?_
      split
      · exact dvd_alignUp halign _
      · exact dvd_zero _

end Planner

/-- A GPT disk with a Linux partition and one that holds no data. -/
def twoParts (first last first' last' : ℕ) : Layout :=
  ⟨.gpt, 512, 16384 * 512, [], 34, 16350, 16383,
    [⟨0, dataTypes[1], [], [], first, last, 0, 0, false⟩,
      ⟨1, [], [], [], first', last', 0, 0, false⟩],
    [], ⟨0, 34 * 512⟩, ⟨16351 * 512, 33 * 512⟩⟩

/-- The Linux partition gives the 100 sectors that are missing, and 2048 more since the other one
has to begin on a boundary: 3005 KiB are left. -/
theorem resize2fs_fits_moved : ∃ plan p,
    planFit (twoParts 34 8191 8192 8291) ⟨8225 * 512, 512, 512⟩
      ⟨false, false, false, none⟩ = .ok plan ∧
      plan.partitions[0]? = some p ∧ p.shrink = true ∧
      taken (twoParts 34 8191 8192 8291) ⟨8225 * 512, 512, 512⟩ ⟨false, false, false, none⟩ = 2148 ∧
      3005 * 1024 ≤ p.newBytes 512 := by
  obtain ⟨plan, h, happ, hp⟩ : ∃ plan, planFit (twoParts 34 8191 8192 8291) ⟨8225 * 512, 512, 512⟩
      ⟨false, false, false, none⟩ = .ok plan ∧ plan.Applicable ∧
        plan.partitions[0]? = some ⟨0, 34, 8191, 34, 6043, true, false, false, 0⟩ :=
    ⟨_, rfl, rfl, rfl⟩
  refine ⟨plan, _, h, hp, rfl, by decide +kernel, ?_⟩
  have hkib : resize2fsKiB (PlannedPartition.newBytes
      ⟨0, 34, 8191, 34, 6043, true, false, false, 0⟩ 512) = some 3005 := by decide +kernel
  have hiff :=
    resize2fs_fits_iff (by unfold WordLBAs; decide) h happ (rfl : _ = [] ++ _ :: _) hp rfl
    hkib
  exact hiff.1.2 (.inl (by decide +kernel))

/-- A GPT disk of 8192 sectors with one Linux partition. -/
def linuxLayout : Layout :=
  ⟨.gpt, 512, 8192 * 512, [], 34, 8158, 8191,
    [⟨0, dataTypes[1], [], [], 2048, 8158, 0, 0, false⟩], [], ⟨0, 34 * 512⟩, ⟨8159 * 512, 33 * 512⟩⟩

/-- On 8000 sectors the partition shrinks to 5919. -/
def shrunkPlan : PlannedPartition := ⟨0, 2048, 8158, 2048, 7966, true, false, false, 1⟩

/-- **A filesystem that does not fit**: `resize2fs` is asked for 512 bytes too many. -/
theorem planFit_asks_too_much :
    (planFit linuxLayout ⟨8000 * 512, 512, 512⟩ ⟨false, false, false, some fun _ =>
      some 1⟩).toOption.map
      (fun plan => (plan.sectorSize, plan.partitions, plan.refusals)) =
        some (512, [shrunkPlan], []) ∧
    (resize2fsKiB (shrunkPlan.newBytes 512)).map (· * 1024) =
      some (shrunkPlan.newBytes 512 + 512) := by
  decide +kernel

end DiskNexus.DiskLayout
