import Mathlib.Data.List.Sort
import Mathlib.Data.Multiset.Basic
import Mathlib.Algebra.BigOperators.Group.List.Basic
import Mathlib.Algebra.Order.Group.Multiset
import Mathlib.Tactic.Abel

/-!
# Buffered channels and sequence numbers

A buffered channel of Go is a queue of bounded length that can be closed: a sender waits for room,
a receiver for an item, and a `range` over the channel ends once it is closed and empty.

Goroutines that work on numbered items in parallel hand them on in any order. The items are kept
in a queue ordered by number until their turn comes.
-/

/-- A buffered channel: the items in it, and whether it is closed. -/
structure Chan (α : Type) where
  buf : List α
  closed : Bool
  deriving DecidableEq

namespace Chan

variable {α : Type}

/-- A new channel. -/
def new : Chan α := ⟨[], false⟩

/-- Send an item if there is room. -/
def send (cap : ℕ) (c : Chan α) (a : α) : Option (Chan α) :=
  if c.closed = false ∧ c.buf.length < cap then some ⟨c.buf ++ [a], false⟩ else none

/-- Receive the oldest item. -/
def recv (c : Chan α) : Option (α × Chan α) :=
  match c.buf with
  | [] => none
  | a :: rest => some (a, ⟨rest, c.closed⟩)

/-- Close the channel; what is in it can still be received. -/
def close (c : Chan α) : Chan α := { c with closed := true }

/-- Closed and empty: a `range` over the channel ends. -/
def drained (c : Chan α) : Bool := c.closed && c.buf.isEmpty

lemma ite_drained_eq_some {β : Type} {c : Chan α} {a b : β}
    (h : (if c.drained then some a else none) = some b) : c.closed = true ∧ c.buf = [] ∧ a = b := by
  simpa [drained, and_assoc] using h

lemma map_send_eq_some {β : Type} {cap : ℕ} {c : Chan α} {a : α} {f : Chan α → β} {b : β}
    (h : (c.send cap a).map f = some b) : c.closed = false ∧ f ⟨c.buf ++ [a], false⟩ = b := by
  unfold send at h
  split_ifs at h with hroom
  · exact ⟨hroom.1, Option.some.inj h⟩
  · cases h

lemma map_recv_eq_some {β : Type} {c : Chan α} {f : α × Chan α → β} {b : β}
    (h : c.recv.map f = some b) : ∃ a rest, c.buf = a :: rest ∧ f (a, ⟨rest, c.closed⟩) = b := by
  unfold recv at h
  cases hbuf : c.buf with
  | nil => simp [hbuf] at h
  | cons a rest =>
    rw [hbuf] at h
    exact ⟨a, rest, rfl, Option.some.inj h⟩

end Chan

/-- An item with its sequence number. -/
structure Numbered (α : Type) where
  item : α
  seq : ℕ
  deriving DecidableEq

namespace Numbered

variable {α : Type}

/-- The order of a queue. -/
def Le (x y : Numbered α) : Prop := x.seq ≤ y.seq

instance : DecidableRel (Le : Numbered α → Numbered α → Prop) :=
  fun x y => inferInstanceAs (Decidable (x.seq ≤ y.seq))

instance : IsTrans (Numbered α) Le := ⟨fun _ _ _ h h' => Nat.le_trans h h'⟩

instance : Std.Total (Le : Numbered α → Numbered α → Prop) := ⟨fun x y => Nat.le_total x.seq y.seq⟩

/-- Insert an item into a queue. -/
def push (queue : List (Numbered α)) (x : Numbered α) : List (Numbered α) :=
  queue.orderedInsert Le x

lemma mem_push {queue : List (Numbered α)} {x y : Numbered α} : y ∈ push queue x ↔ y = x ∨
    y ∈ queue :=
  List.mem_orderedInsert Le

lemma push_sorted {queue : List (Numbered α)} (h : queue.Pairwise Le) (x : Numbered α) :
    (push queue x).Pairwise Le :=
  h.orderedInsert x queue

end Numbered

section Numbers

variable {α : Type}

/-- The sequence numbers of some items. -/
def seqsOf (xs : List (Numbered α)) : Multiset ℕ := xs.map Numbered.seq

@[simp]
lemma seqsOf_nil : seqsOf ([] : List (Numbered α)) = 0 := rfl

@[simp]
lemma seqsOf_cons (x : Numbered α) (xs : List (Numbered α)) :
    seqsOf (x :: xs) = {x.seq} + seqsOf xs := rfl

@[simp]
lemma seqsOf_append (xs ys : List (Numbered α)) : seqsOf (xs ++ ys) = seqsOf xs + seqsOf ys := by
  simp [seqsOf]

@[simp]
lemma seqsOf_push (queue : List (Numbered α)) (x : Numbered α) :
    seqsOf (Numbered.push queue x) = {x.seq} + seqsOf queue := by
  exact Multiset.coe_eq_coe.2 ((List.perm_orderedInsert Numbered.Le x queue).map Numbered.seq)

lemma mem_seqsOf {xs : List (Numbered α)} {i : ℕ} : i ∈ seqsOf xs ↔ ∃ x ∈ xs, x.seq = i := by
  simp [seqsOf]

lemma seqsOf_eq_zero {xs : List (Numbered α)} : seqsOf xs = 0 ↔ xs = [] := by
  simp [seqsOf]

/-- Replacing one element changes a sum by that element's share. -/
lemma sum_map_set {β M : Type} [AddCommMonoid M] (f : β → M) {xs : List β} {i : ℕ} {x : β}
    (h : xs[i]? = some x) (y : β) :
    ((xs.set i y).map f).sum + f x = (xs.map f).sum + f y := by
  induction xs generalizing i with
  | nil => cases h
  | cons a xs ih =>
    cases i with
    | zero =>
      obtain rfl : a = x := by simpa using h
      simp only [List.set_cons_zero, List.map_cons, List.sum_cons]
      abel
    | succ i =>
      have hrec := ih (i := i) (by simpa using h)
      simp only [List.set_cons_succ, List.map_cons, List.sum_cons]
      rw [add_assoc, hrec, add_assoc]

end Numbers
