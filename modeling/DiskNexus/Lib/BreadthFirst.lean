import Mathlib.Data.List.Shortlex
import Mathlib.Logic.Relation
import Mathlib.Tactic

/-!
# Breadth-first search

A search goes through a queue: it visits the node in front if it is new and puts the nodes that it
refers to behind the others. A walk is given by the position of its first node among the roots and
the positions of the references that it follows; a node is visited by its least walk in the shortlex
order.

## Main results

`search_returns`, `mem_search_iff`, `nodup_search`, `search_sorted`
-/

namespace BreadthFirst

variable {α : Type}

/-- The search, for at most `fuel` rounds; `none` stands for one that has not ended by then. -/
def search [DecidableEq α] (refs : α → List α) : ℕ → List α → List α → Option (List α)
  | 0, _, _ => none
  | _ + 1, order, [] => some order
  | fuel + 1, order, x :: queue =>
    if x ∈ order then search refs fuel order queue
    else search refs fuel (order ++ [x]) (queue ++ refs x)

section Spec

variable (roots : List α) (refs : α → List α)

/-- What can be reached from the roots. -/
def Reached (x : α) : Prop := ∃ r ∈ roots, Relation.ReflTransGen (fun u v => v ∈ refs u) r x

/-- The walks to a node. -/
inductive Walks : List ℕ → α → Prop
  | root {i : ℕ} {x : α} (h : roots[i]? = some x) : Walks [i] x
  | step {w : List ℕ} {u x : α} {i : ℕ} (hw : Walks w u) (h : (refs u)[i]? = some x) :
      Walks (w ++ [i]) x

end Spec

/-- The order of walks. -/
abbrev Earlier : List ℕ → List ℕ → Prop := List.Shortlex (· < ·)

/-! ## The order of walks -/

lemma Earlier.trans {a b c : List ℕ} (h : Earlier a b) (h' : Earlier b c) : Earlier a c := by
  rw [Earlier, List.shortlex_def] at *
  rcases h with h | ⟨hlen, h⟩ <;> rcases h' with h' | ⟨hlen', h'⟩
  · exact .inl (by omega)
  · exact .inl (by omega)
  · exact .inl (by omega)
  · refine .inr ⟨by omega, ?_⟩
    exact lt_trans (α := List ℕ) h h'

lemma Earlier.irrefl (a : List ℕ) : ¬ Earlier a a := by
  intro h
  exact Std.Asymm.asymm (r := Earlier) a a h h

lemma earlier_append (a : List ℕ) (i : ℕ) : Earlier a (a ++ [i]) :=
  List.Shortlex.of_length_lt (by simp)

/-- Walks that go on keep their order. -/
lemma Earlier.append {a b : List ℕ} (h : Earlier a b) (i j : ℕ) :
    Earlier (a ++ [i]) (b ++ [j]) := by
  rw [Earlier, List.shortlex_def] at *
  rcases h with h | ⟨hlen, h⟩
  · exact .inl (by simpa using h)
  · refine .inr ⟨by simpa using hlen, ?_⟩
    induction h with
    | nil => simp at hlen
    | cons _ ih => exact List.Lex.cons (ih (by simpa using hlen))
    | rel hr => exact List.Lex.rel hr

/-- Some walk to `u` is earlier than every walk to `v`. -/
def Nearer (roots : List α) (refs : α → List α) (u v : α) : Prop :=
  ∃ w, Walks roots refs w u ∧ ∀ w', Walks roots refs w' v → Earlier w w'

variable {roots order : List α} {refs : α → List α} {w : List ℕ} {x : α}
  {visited queue : List (α × List ℕ)} {fuel : ℕ}

/-- Of two nodes at most one is nearer than the other. -/
lemma Nearer.asymm {u v : α} (h : Nearer roots refs u v) : ¬ Nearer roots refs v u := by
  rintro ⟨w', hw', hall'⟩
  obtain ⟨w, hw, hall⟩ := h
  exact Earlier.irrefl w ((hall w' hw').trans (hall' w hw))

lemma Walks.ne_nil (h : Walks roots refs w x) : w ≠ [] := by
  cases h <;> simp

lemma Walks.reached (h : Walks roots refs w x) : Reached roots refs x := by
  induction h with
  | root h => exact ⟨_, List.mem_of_getElem? h, .refl⟩
  | step _ h ih =>
    obtain ⟨r, hr, hreach⟩ := ih
    exact ⟨r, hr, hreach.tail (List.mem_of_getElem? h)⟩

/-! ## What holds between two rounds -/

section Invariant

variable {roots : List α} {refs : α → List α}

/-- The visited nodes and the queue, each node with a walk to it. -/
structure Inv (roots : List α) (refs : α → List α) (visited queue : List (α × List ℕ)) : Prop where
  walks : ∀ p ∈ visited ++ queue, Walks roots refs p.2 p.1
  sorted : (visited ++ queue).Pairwise fun p q => Earlier p.2 q.2
  parents : ∀ p ∈ queue, (∃ i, p.2 = [i]) ∨ ∃ q ∈ visited, ∃ i, p.2 = q.2 ++ [i]
  nodup : (visited.map Prod.fst).Nodup
  starts : ∀ i x, roots[i]? = some x → x ∈ visited.map Prod.fst ∨ (x, [i]) ∈ queue
  children : ∀ p ∈ visited, ∀ i x, (refs p.1)[i]? = some x →
    x ∈ visited.map Prod.fst ∨ (x, p.2 ++ [i]) ∈ queue
  least : ∀ p ∈ visited, ∀ w, Walks roots refs w p.1 → w = p.2 ∨ Earlier p.2 w

/-- Nodes with walks that go on from a walk. -/
def onward (w : List ℕ) (xs : List α) : List (α × List ℕ) :=
  xs.zipIdx.map fun p => (p.1, w ++ [p.2])

lemma map_fst_onward (w : List ℕ) (xs : List α) : (onward w xs).map Prod.fst = xs := by
  rw [onward, List.map_map]
  exact List.zipIdx_map_fst 0 xs

lemma mem_onward {xs : List α} {p : α × List ℕ} :
    p ∈ onward w xs ↔ ∃ i, xs[i]? = some p.1 ∧ p.2 = w ++ [i] := by
  rw [onward, List.mem_map]
  constructor
  · rintro ⟨⟨x, i⟩, h, rfl⟩
    exact ⟨i, List.mk_mem_zipIdx_iff_getElem?.1 h, rfl⟩
  · rintro ⟨i, h, hw⟩
    exact ⟨(p.1, i), List.mk_mem_zipIdx_iff_getElem?.2 h, Prod.ext rfl hw.symm⟩

lemma onward_sorted (w : List ℕ) (xs : List α) :
    (onward w xs).Pairwise fun p q => Earlier p.2 q.2 := by
  rw [onward, List.pairwise_map]
  refine (List.pairwise_iff_getElem.2 fun i j hi hj hij => ?_)
  exact List.Shortlex.append_left (by simpa using hij) w

/-- At the start the queue has the roots. -/
lemma inv_start (roots : List α) (refs : α → List α) : Inv roots refs [] (onward [] roots) := by
  refine ⟨fun p hp => ?_, ?_, fun p hp => ?_, List.nodup_nil, fun i x h => .inr ?_,
    fun p hp => (by cases hp), fun p hp => (by cases hp)⟩
  · obtain ⟨i, hi, hw⟩ := mem_onward.1 hp
    rw [hw]
    exact .root hi
  · exact onward_sorted [] roots
  · obtain ⟨i, -, hw⟩ := mem_onward.1 hp
    exact .inl ⟨i, hw⟩
  · exact mem_onward.2 ⟨i, h, rfl⟩

/-- A walk to a node that is not visited is not earlier than some walk in the queue.

**Proof sketch.** By induction on the walk. If the node before the last is visited, its own walk,
which is its least, goes on to the node within the queue. -/
lemma Inv.exists_queue (h : Inv roots refs visited queue) (hw : Walks roots refs w x)
    (hx : x ∉ visited.map Prod.fst) :
    ∃ q ∈ queue, q.2 = w ∨ Earlier q.2 w := by
  induction hw with
  | root hi => exact ⟨_, (h.starts _ _ hi).resolve_left hx, .inl rfl⟩
  | @step w u x i hw hi ih =>
    by_cases hu : u ∈ visited.map Prod.fst
    · obtain ⟨p, hp, rfl⟩ := List.mem_map.1 hu
      refine ⟨_, (h.children p hp i x hi).resolve_left hx, ?_⟩
      rcases h.least p hp w hw with rfl | hlt
      · exact .inl rfl
      · exact .inr (hlt.append i i)
    · obtain ⟨q, hq, hle⟩ := ih hu
      refine ⟨q, hq, .inr ?_⟩
      rcases hle with rfl | hlt
      · exact earlier_append _ i
      · exact hlt.trans (earlier_append w i)

lemma Inv.skip {p : α × List ℕ} (h : Inv roots refs visited (p :: queue))
    (hp : p.1 ∈ visited.map Prod.fst) :
    Inv roots refs visited queue := by
  have hsub : (visited ++ queue).Sublist (visited ++ p :: queue) :=
    (List.Sublist.refl visited).append (List.sublist_cons_self p queue)
  have hcase : ∀ {x : α} {w : List ℕ}, x ∈ visited.map Prod.fst ∨ (x, w) ∈ p :: queue →
      x ∈ visited.map Prod.fst ∨ (x, w) ∈ queue := by
    rintro x w (hx | hx)
    · exact .inl hx
    · rcases List.mem_cons.1 hx with rfl | hx
      · exact .inl hp
      · exact .inr hx
  exact ⟨fun q hq => h.walks q (hsub.subset hq), h.sorted.sublist hsub,
    fun q hq => h.parents q (.tail _ hq), h.nodup,
    fun i x hi => hcase (h.starts i x hi), fun q hq i x hi => hcase (h.children q hq i x hi),
      h.least⟩

lemma Inv.visit {visited queue : List (α × List ℕ)} {p : α × List ℕ}
    (h : Inv roots refs visited (p :: queue)) (hp : p.1 ∉ visited.map Prod.fst) :
    Inv roots refs (visited ++ [p]) (queue ++ onward p.2 (refs p.1)) := by
  have hwalk : Walks roots refs p.2 p.1 := h.walks p (by simp)
  have hpairs := List.pairwise_append.1 h.sorted
  have hfront := (List.pairwise_cons.1 hpairs.2.1).1
  have hassoc : visited ++ [p] ++ (queue ++ onward p.2 (refs p.1)) =
      visited ++ p :: queue ++ onward p.2 (refs p.1) := by simp
  -- the front of the queue has the least walk to its node
  have hleast : ∀ w, Walks roots refs w p.1 → w = p.2 ∨ Earlier p.2 w := by
    intro w hw
    obtain ⟨q, hq, hle⟩ := h.exists_queue hw hp
    rcases List.mem_cons.1 hq with rfl | hq
    · exact hle.imp_left Eq.symm
    · have hpq := hfront q hq
      rcases hle with rfl | hlt
      · exact .inr hpq
      · exact .inr (hpq.trans hlt)
  -- what is visited or in the queue has an earlier walk than the nodes that are new in the queue
  have hbefore : ∀ q ∈ visited ++ p :: queue, ∀ i, Earlier q.2 (p.2 ++ [i]) := by
    intro q hq i
    rcases List.mem_append.1 hq with hq | hq
    · exact (hpairs.2.2 q hq p (.head _)).trans (earlier_append _ _)
    · rcases List.mem_cons.1 hq with rfl | hq
      · exact earlier_append _ _
      · rcases h.parents q (.tail _ hq) with ⟨j, hj⟩ | ⟨u, hu, j, hj⟩
        · have hpos := List.length_pos_iff.2 hwalk.ne_nil
          rw [hj]
          exact List.Shortlex.of_length_lt (by simp; omega)
        · rw [hj]
          exact (hpairs.2.2 u hu p (.head _)).append j i
  have hmono : ∀ x, x ∈ visited.map Prod.fst → x ∈ (visited ++ [p]).map Prod.fst := by
    intro x hx
    rw [List.map_append]
    exact List.mem_append_left _ hx
  have hcase : ∀ {x : α} {w : List ℕ}, x ∈ visited.map Prod.fst ∨ (x, w) ∈ p :: queue →
      x ∈ (visited ++ [p]).map Prod.fst ∨ (x, w) ∈ queue ++ onward p.2 (refs p.1) := by
    rintro x w (hx | hx)
    · exact .inl (hmono x hx)
    · rcases List.mem_cons.1 hx with rfl | hx
      · exact .inl (by simp)
      · exact .inr (List.mem_append_left _ hx)
  refine ⟨?_, ?_, ?_, ?_, fun i x hi => hcase (h.starts i x hi), ?_, ?_⟩
  · rw [hassoc]
    intro q hq
    rcases List.mem_append.1 hq with hq | hq
    · exact h.walks q hq
    · obtain ⟨i, hi, hw⟩ := mem_onward.1 hq
      rw [hw]
      exact hwalk.step hi
  · rw [hassoc]
    refine List.pairwise_append.2 ⟨h.sorted, onward_sorted _ _, fun q hq q' hq' => ?_⟩
    obtain ⟨i, -, hw⟩ := mem_onward.1 hq'
    rw [hw]
    exact hbefore q hq i
  · intro q hq
    rcases List.mem_append.1 hq with hq | hq
    · rcases h.parents q (.tail _ hq) with hroot | ⟨u, hu, hi⟩
      · exact .inl hroot
      · exact .inr ⟨u, List.mem_append_left _ hu, hi⟩
    · obtain ⟨i, -, hw⟩ := mem_onward.1 hq
      exact .inr ⟨p, by simp, i, hw⟩
  · rw [List.map_append, List.nodup_append]
    refine ⟨h.nodup, by simp, fun x hx y hy => ?_⟩
    rw [List.mem_singleton.1 hy]
    rintro rfl
    exact hp hx
  · intro q hq i x hi
    rcases List.mem_append.1 hq with hq | hq
    · exact hcase (h.children q hq i x hi)
    · obtain rfl := List.mem_singleton.1 hq
      exact .inr (List.mem_append_right _ (mem_onward.2 ⟨i, hi, rfl⟩))
  · intro q hq
    rcases List.mem_append.1 hq with hq | hq
    · exact h.least q hq
    · obtain rfl := List.mem_singleton.1 hq
      exact hleast

/-- A search that ends leaves an empty queue. -/
lemma Inv.search [DecidableEq α] (h : Inv roots refs visited queue)
    (hs : search refs fuel (visited.map Prod.fst) (queue.map Prod.fst) = some order) :
    ∃ visited', Inv roots refs visited' [] ∧ order = visited'.map Prod.fst := by
  induction fuel generalizing visited queue with
  | zero => cases hs
  | succ fuel ih =>
    cases queue with
    | nil =>
      cases hs
      exact ⟨visited, h, rfl⟩
    | cons p queue =>
      rw [List.map_cons, BreadthFirst.search] at hs
      split_ifs at hs with hp
      · exact ih (h.skip hp) hs
      · refine ih (h.visit hp) ?_
        rw [List.map_append, List.map_append, map_fst_onward]
        exact hs

/-- With an empty queue, what can be reached is visited. -/
lemma Inv.mem_iff (h : Inv roots refs visited []) (x : α) :
    x ∈ visited.map Prod.fst ↔ Reached roots refs x := by
  constructor
  · intro hx
    obtain ⟨p, hp, rfl⟩ := List.mem_map.1 hx
    exact (h.walks p (by simpa using hp)).reached
  · rintro ⟨r, hr, hreach⟩
    induction hreach with
    | refl =>
      obtain ⟨i, hi⟩ := List.mem_iff_getElem?.1 hr
      exact (h.starts i r hi).resolve_right List.not_mem_nil
    | tail _ hstep ih =>
      obtain ⟨p, hp, rfl⟩ := List.mem_map.1 ih
      obtain ⟨i, hi⟩ := List.mem_iff_getElem?.1 hstep
      exact (h.children p hp i _ hi).resolve_right List.not_mem_nil

end Invariant

/-! ## The search -/

section Search

variable [DecidableEq α] {roots : List α} {refs : α → List α}

/-- On a finite graph the search ends: a node from the queue is visited already, or the number of
nodes that are not visited gets smaller. -/
theorem search_returns {nodes : List α} (hrefs : ∀ x ∈ nodes, ∀ y ∈ refs x, y ∈ nodes)
    (order queue : List α) (hqueue : ∀ x ∈ queue, x ∈ nodes) :
    ∃ n result, ∀ fuel, n ≤ fuel → search refs fuel order queue = some result := by
  induction hleft : (nodes.filter fun x => x ∉ order).length using Nat.strong_induction_on
    generalizing order queue with
  | _ left ih =>
    induction queue with
    | nil =>
      refine ⟨1, order, fun fuel hfuel => ?_⟩
      obtain ⟨fuel, rfl⟩ := Nat.exists_eq_add_of_le' hfuel
      rfl
    | cons x queue ihq =>
      obtain ⟨hx, hqueue'⟩ := List.forall_mem_cons.1 hqueue
      have hround : ∃ n result, ∀ fuel, n ≤ fuel →
          search refs (fuel + 1) order (x :: queue) = some result := by
        by_cases hin : x ∈ order
        · obtain ⟨n, result, h⟩ := ihq hqueue'
          refine ⟨n, result, fun fuel hfuel => ?_⟩
          rw [search, if_pos hin]
          exact h fuel hfuel
        · have hlt : (nodes.filter fun y => y ∉ order ++ [x]).length < left := by
            have hfilter : (nodes.filter fun y => y ∉ order ++ [x]) =
                (nodes.filter fun y => y ∉ order).filter fun y => y ≠ x := by
              rw [List.filter_filter]
              simp [not_or, and_comm]
            rw [← hleft, hfilter]
            exact List.length_filter_lt_length_iff_exists.2
              ⟨x, List.mem_filter.2 ⟨hx, by simpa using hin⟩, by simp⟩
          obtain ⟨n, result, h⟩ := ih _ hlt (order ++ [x]) (queue ++ refs x)
            (fun y hy => (List.mem_append.1 hy).elim (hqueue' y) (hrefs x hx y)) rfl
          refine ⟨n, result, fun fuel hfuel => ?_⟩
          rw [search, if_neg hin]
          exact h fuel hfuel
      obtain ⟨n, result, h⟩ := hround
      refine ⟨n + 1, result, fun fuel hfuel => ?_⟩
      obtain ⟨fuel, rfl⟩ := Nat.exists_eq_add_of_le' (Nat.le_of_add_left_le hfuel)
      exact h fuel (by omega)

lemma search_inv (h : search refs fuel [] roots = some order) :
    ∃ visited, Inv roots refs visited [] ∧ order = visited.map Prod.fst := by
  rw [← map_fst_onward [] roots] at h
  exact (inv_start roots refs).search h

/-- The search visits what can be reached. -/
theorem mem_search_iff (h : search refs fuel [] roots = some order) (x : α) :
    x ∈ order ↔ Reached roots refs x := by
  obtain ⟨visited, hinv, rfl⟩ := search_inv h
  exact hinv.mem_iff x

/-- The search visits a node once. -/
theorem nodup_search (h : search refs fuel [] roots = some order) :
    order.Nodup := by
  obtain ⟨visited, hinv, rfl⟩ := search_inv h
  exact hinv.nodup

/-- Nodes are visited in the order of the walks to them. -/
theorem search_sorted (h : search refs fuel [] roots = some order) :
    order.Pairwise (Nearer roots refs) := by
  obtain ⟨visited, hinv, rfl⟩ := search_inv h
  have hsorted := hinv.sorted
  rw [List.append_nil] at hsorted
  rw [List.pairwise_map]
  refine hsorted.imp_of_mem fun {p q} hp hq hpq => ?_
  refine ⟨p.2, hinv.walks p (by simpa using hp), fun w hw => ?_⟩
  rcases hinv.least q hq w hw with rfl | hlt
  · exact hpq
  · exact hpq.trans hlt

end Search

end BreadthFirst
