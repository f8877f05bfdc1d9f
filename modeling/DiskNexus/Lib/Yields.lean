import DiskNexus.Lib.Binary

/-!
# Readers that hand out a stream

A reader answers each call with bytes, or with the end of the stream. The input of a call is the
size of its buffer, and whatever else decides how much of it is filled.
-/

namespace Streams

open Binary

variable {σ ι : Type}

/-- The answers to a sequence of calls. -/
def answers (read : σ → ι → Option Bytes × σ) : σ → List ι → List (Option Bytes)
  | _, [] => []
  | s, i :: is => (read s i).1 :: answers read (read s i).2 is

/-- The answers to calls cut a stream: each is the next part of it, empty for an empty buffer only,
or the end of the stream when nothing is left. -/
inductive Cuts (size : ι → ℕ) : Bytes → List ι → List (Option Bytes) → Prop
  | none (stream : Bytes) : Cuts size stream [] []
  | ends {i : ι} {is : List ι} {as : List (Option Bytes)} (hsize : 0 < size i)
      (h : Cuts size [] is as) : Cuts size [] (i :: is) (Option.none :: as)
  | part {i : ι} {is : List ι} {as : List (Option Bytes)} {b rest : Bytes}
      (hfits : b.length ≤ size i)
      (hmoves : b = [] → size i = 0) (h : Cuts size rest is as) :
      Cuts size (b ++ rest) (i :: is) (some b :: as)

/-- A reader hands out a stream. -/
def Yields (size : ι → ℕ) (read : σ → ι → Option Bytes × σ) (s : σ) (stream : Bytes) : Prop :=
  ∀ is, Cuts size stream is (answers read s is)

/-- One call on a reader that holds `stream`, and holds `rest` then. -/
def Call (size : ℕ) (stream : Bytes) (answer : Option Bytes) (rest : Bytes) : Prop :=
  match answer with
  | none => 0 < size ∧ stream = [] ∧ rest = []
  | some b => stream = b ++ rest ∧ b.length ≤ size ∧ (b = [] → size = 0)

/-- **A reader hands out what it holds** if each call does, from every state of the invariant. -/
theorem yields_of_step {size : ι → ℕ} {read : σ → ι → Option Bytes × σ} {held : σ → Bytes}
    {inv : σ → Prop} (hstep : ∀ s i, inv s → inv (read s i).2 ∧
      Call (size i) (held s) (read s i).1 (held (read s i).2)) {s : σ} (hs : inv s) :
    Yields size read s (held s) := by
  intro is
  induction is generalizing s with
  | nil => exact .none _
  | cons i is ih =>
    obtain ⟨hinv, hcall⟩ := hstep s i hs
    have hrest := ih hinv
    rw [answers]
    cases hanswer : (read s i).1 with
    | none =>
      rw [hanswer] at hcall
      obtain ⟨hsize, hnil, hnil'⟩ := hcall
      rw [hnil] at *
      rw [hnil'] at hrest
      exact .ends hsize hrest
    | some b =>
      rw [hanswer] at hcall
      obtain ⟨hsplit, hfits, hmoves⟩ := hcall
      rw [hsplit]
      exact .part hfits hmoves hrest

end Streams
