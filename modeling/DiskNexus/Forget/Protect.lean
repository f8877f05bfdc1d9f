import Mathlib.Data.List.AList
import Mathlib.Data.List.Sort
import Mathlib.Data.String.Basic
import Mathlib.Logic.Relation
import Mathlib.Tactic

/-!
# Protecting what a kept backup references

`forget.Protect` extends the backups that a policy keeps by those that they reference: the parent of
an incremental backup, and the backups that a file catalog names as the home of a file's data. It
goes through a queue and needs the manifest of every backup there.
-/

namespace DiskNexus.Forget

/-! ## The code -/

/-- The part of `manifest.Backup` that retention reads, with the `DataBackupID` of each file. -/
structure Backup where
  backupID : String
  timestamp : ℤ
  backupType : String
  parentBackupID : String
  fileCatalog : List String
  deriving DecidableEq

/-- How a backup references another. -/
inductive Via
  | parent
  | data
  deriving DecidableEq

/-- The name of a kind of reference. -/
def Via.text : Via → String
  | .parent => "parent"
  | .data => "data"

/-- `refEdge`. -/
structure RefEdge where
  id : String
  via : Via
  deriving DecidableEq

/-- `forget.Dangling`: a reference to a backup that does not exist. -/
structure Dangling where
  src : String
  dst : String
  via : Via
  deriving DecidableEq

/-- The data references of a file catalog, the first of each target. -/
def dataEdges : List String → List String → List RefEdge
  | _, [] => []
  | seen, d :: catalog =>
    if d ≠ "" ∧ d ∉ seen then ⟨d, .data⟩ :: dataEdges (d :: seen) catalog
    else dataEdges seen catalog

/-- `referenceEdges`. -/
def referenceEdges (b : Backup) : List RefEdge :=
  (if b.parentBackupID ≠ "" then [⟨b.parentBackupID, .parent⟩] else []) ++
    dataEdges [] b.fileCatalog

/-- The characters that the first `n` bytes hold whole. -/
def takeBytes : ℕ → List Char → List Char
  | _, [] => []
  | n, c :: cs => if c.utf8Size ≤ n then c :: takeBytes (n - c.utf8Size) cs else []

/-- `short`: the first eight bytes of an ID. -/
def short (id : String) : String := String.ofList (takeBytes 8 id.toList)

/-- The protected IDs, with the reasons for each. -/
abbrev Protected := AList (fun _ : String => List String)

/-- What `Protect` works on. -/
structure Queue where
  queue : List String
  found : Protected
  dangling : List Dangling

/-- One reference of the backup `id`. -/
def promote (allIDs : List String) (id : String) (q : Queue) (e : RefEdge) : Queue :=
  if e.id ∉ allIDs then { q with dangling := q.dangling ++ [⟨id, e.id, e.via⟩] }
  else if e.id ∈ q.found then q
  else
    let referrer := short id
    let via := e.via.text
    { q with
      found := q.found.insert e.id [s!"promoted: referenced by {referrer} via {via}"]
      queue := q.queue ++ [e.id] }

/-- The loop of `Protect`, for at most `fuel` rounds. An error comes with the dangling references.
-/
def protectLoop (allIDs : List String) (load : String → Except String Backup) :
    ℕ → Queue → Option (Except (String × List Dangling) (Protected × List Dangling))
  | 0, _ => none
  | fuel + 1, q =>
    match q.queue with
    | [] => some (.ok (q.found, q.dangling))
    | id :: queue =>
      match load id with
      | .error e =>
        let name := short id
        some (.error
          ((s!"cannot read manifest {name}, which a kept backup depends on, to prove the " ++
          s!"keep set is safe: {e}"), q.dangling))
      | .ok b =>
        let edges := (referenceEdges b).insertionSort fun a b => a.id ≤ b.id
        protectLoop allIDs load fuel (edges.foldl (promote allIDs id) { q with queue := queue })

/-- `Protect`, for at most `fuel` rounds of its loop. -/
def protect (allIDs : List String) (keepReasons : Protected)
    (load : String → Except String Backup) (fuel : ℕ) :
    Option (Except (String × List Dangling) (Protected × List Dangling)) :=
  protectLoop allIDs load fuel ⟨keepReasons.keys.insertionSort (· ≤ ·), keepReasons, []⟩

/-! ## What has to be protected -/

section Spec

variable (allIDs : List String) (load : String → Except String Backup)

/-- A reference of a backup that loads. -/
def Refers (x : String) (e : RefEdge) : Prop := ∃ b, load x = .ok b ∧ e ∈ referenceEdges b

/-- A reference to a backup that exists. -/
def Resolves (x y : String) : Prop := y ∈ allIDs ∧ ∃ via, Refers load x ⟨y, via⟩

/-- The backups that are referenced from the keep set, directly or not. -/
def Closure (keepReasons : Protected) (id : String) : Prop :=
  ∃ root ∈ keepReasons, Relation.ReflTransGen (Resolves allIDs load) root id

end Spec

/-- A reference leads to the parent, or to a backup that the catalog names. -/
lemma mem_dataEdges {seen catalog : List String} {e : RefEdge} : e ∈ dataEdges seen catalog ↔
    e.via = .data ∧ e.id ∈ catalog ∧ e.id ≠ "" ∧ e.id ∉ seen := by
  induction catalog generalizing seen with
  | nil => simp [dataEdges]
  | cons d catalog ih =>
    rw [dataEdges]
    split_ifs with hd
    · rw [List.mem_cons, ih, List.mem_cons, List.mem_cons]
      obtain ⟨id, via⟩ := e
      by_cases hid : id = d
      · subst hid
        simp [hd.1, hd.2]
      · simp [hid]
    · rw [ih, List.mem_cons]
      by_cases hid : e.id = d
      · rw [hid]
        tauto
      · simp [hid]

lemma mem_referenceEdges {b : Backup} {e : RefEdge} : e ∈ referenceEdges b ↔ e.id ≠ "" ∧
    (e.via = .parent ∧ e.id = b.parentBackupID ∨ e.via = .data ∧ e.id ∈ b.fileCatalog) := by
  rw [referenceEdges, List.mem_append, mem_dataEdges]
  obtain ⟨id, via⟩ := e
  by_cases hp : b.parentBackupID = ""
  · simp only [hp]
    tauto
  · simp only [ne_eq, hp, not_false_eq_true, if_true, List.mem_singleton, RefEdge.mk.injEq]
    constructor
    · rintro (⟨rfl, rfl⟩ | h)
      · exact ⟨hp, .inl ⟨rfl, rfl⟩⟩
      · tauto
    · tauto

lemma nodup_dataEdges (seen catalog : List String) : (dataEdges seen catalog).Nodup := by
  induction catalog generalizing seen with
  | nil => simp [dataEdges]
  | cons d catalog ih =>
    rw [dataEdges]
    split
    · refine List.nodup_cons.2 ⟨fun hmem => ?_, ih _⟩
      exact (mem_dataEdges.1 hmem).2.2.2 (.head _)
    · exact ih _

/-- Every reference is listed once. -/
lemma nodup_referenceEdges (b : Backup) : (referenceEdges b).Nodup := by
  refine List.Nodup.append ?_ (nodup_dataEdges _ _) fun e he he' => ?_
  · split <;> simp
  · have hdata := (mem_dataEdges.1 he').1
    split at he
    · rw [List.mem_singleton.1 he] at hdata
      cases hdata
    · cases he

/-! ## One round -/

section Round

variable {allIDs : List String} {load : String → Except String Backup} {keepReasons : Protected}
  {id : String} {q : Queue}

/-- What following references does: the existing, new targets join the queue. -/
structure Followed (allIDs : List String) (id : String) (es : List RefEdge) (q q' : Queue) :
    Prop where
  found : ∀ x, x ∈ q'.found ↔ x ∈ q.found ∨ x ∈ allIDs ∧ ∃ e ∈ es, e.id = x
  queue : ∃ new, q'.queue = q.queue ++ new ∧ new.Nodup ∧
    ∀ x, x ∈ new ↔ x ∈ q'.found ∧ x ∉ q.found
  dangling : q'.dangling = q.dangling ++
    (es.filter fun e => e.id ∉ allIDs).map fun e => ⟨id, e.id, e.via⟩

lemma followed_promote (allIDs : List String) (id : String) (q : Queue) (e : RefEdge) :
    Followed allIDs id [e] q (promote allIDs id q e) := by
  unfold promote
  split
  · rename_i he
    refine ⟨fun x => ⟨.inl, ?_⟩, ⟨[], by simp, by simp, by simp⟩, by simp [he]⟩
    rintro (hx | ⟨hx, e', he', rfl⟩)
    · exact hx
    · exact absurd (List.mem_singleton.1 he' ▸ hx) he
  · rename_i he
    split_ifs with hfound
    · refine ⟨fun x => ?_, ⟨[], by simp, by simp, by simp⟩, by simpa using he⟩
      simpa using fun _ hex => hex ▸ hfound
    · have hmem : e.id ∈ allIDs := not_not.1 he
      refine ⟨fun x => ?_, ⟨[e.id], rfl, by simp, fun x => ?_⟩, by simpa using he⟩
      · simp only [AList.mem_insert, List.mem_singleton, exists_eq_left]
        constructor
        · rintro (rfl | hx)
          · exact .inr ⟨hmem, rfl⟩
          · exact .inl hx
        · rintro (hx | ⟨-, rfl⟩)
          · exact .inr hx
          · exact .inl rfl
      · simp only [AList.mem_insert, List.mem_singleton]
        constructor
        · rintro rfl
          exact ⟨.inl rfl, hfound⟩
        · rintro ⟨hx | hx, hnot⟩
          · exact hx
          · exact absurd hx hnot

lemma Followed.trans {es es' : List RefEdge} {q1 q2 : Queue} (h : Followed allIDs id es q q1)
    (h' : Followed allIDs id es' q1 q2) : Followed allIDs id (es ++ es') q q2 := by
  obtain ⟨new, hqueue, hnodup, hnew⟩ := h.queue
  obtain ⟨new', hqueue', hnodup', hnew'⟩ := h'.queue
  have hmono : ∀ x, x ∈ q.found → x ∈ q1.found := fun x hx => (h.found x).2 (.inl hx)
  have hmono' : ∀ x, x ∈ q1.found → x ∈ q2.found := fun x hx => (h'.found x).2 (.inl hx)
  refine ⟨fun x => ?_, ⟨new ++ new', by rw [hqueue', hqueue, List.append_assoc], ?_, fun x => ?_⟩,
    ?_⟩
  · rw [h'.found, h.found]
    simp only [List.mem_append, or_assoc, ← and_or_left, ← exists_or, or_and_right]
  · refine hnodup.append hnodup' fun x hx hx' => ?_
    exact ((hnew' x).1 hx').2 ((hnew x).1 hx).1
  · rw [List.mem_append, hnew, hnew']
    constructor
    · rintro (⟨hx, hnot⟩ | ⟨hx, hnot⟩)
      · exact ⟨hmono' x hx, hnot⟩
      · exact ⟨hx, fun hq => hnot (hmono x hq)⟩
    · rintro ⟨hx, hnot⟩
      by_cases hmid : x ∈ q1.found
      · exact .inl ⟨hmid, hnot⟩
      · exact .inr ⟨hx, hmid⟩
  · rw [h'.dangling, h.dangling, List.filter_append, List.map_append, List.append_assoc]

/-- All references of a backup. -/
lemma followed_foldl (allIDs : List String) (id : String) (es : List RefEdge) (q : Queue) :
    Followed allIDs id es q (es.foldl (promote allIDs id) q) := by
  induction es generalizing q with
  | nil => exact ⟨by simp, ⟨[], by simp, by simp, by simp⟩, by simp⟩
  | cons e es ih => exact (followed_promote allIDs id q e).trans (ih _)

/-- **The invariant of the loop.** What has left the queue has been gone through. -/
structure Walk (allIDs : List String) (load : String → Except String Backup)
    (keepReasons : Protected) (q : Queue) : Prop where
  kept : ∀ x ∈ keepReasons, x ∈ q.found
  closure : ∀ x ∈ q.found, Closure allIDs load keepReasons x
  pending : ∀ x ∈ q.queue, x ∈ q.found
  nodup : q.queue.Nodup
  through : ∀ x ∈ q.found, x ∉ q.queue →
    (∃ b, load x = .ok b) ∧ ∀ y, Resolves allIDs load x y → y ∈ q.found
  dangling : ∀ d, d ∈ q.dangling ↔ (d.src ∈ q.found ∧ d.src ∉ q.queue) ∧ d.dst ∉ allIDs ∧
    Refers load d.src ⟨d.dst, d.via⟩
  danglingNodup : q.dangling.Nodup

lemma walk_init (allIDs : List String) (load : String → Except String Backup)
    (keepReasons : Protected) : Walk allIDs load keepReasons
      ⟨keepReasons.keys.insertionSort (· ≤ ·), keepReasons, []⟩ := by
  have hmem : ∀ x, x ∈ keepReasons.keys.insertionSort (· ≤ ·) ↔ x ∈ keepReasons :=
    fun x => List.mem_insertionSort _
  refine ⟨fun x hx => hx, fun x hx => ⟨x, hx, .refl⟩, fun x hx => (hmem x).1 hx, ?_, ?_, ?_, ?_⟩
  · exact (List.perm_insertionSort _ _).nodup_iff.2 keepReasons.keys_nodup
  · exact fun x hx hnot => absurd ((hmem x).2 hx) hnot
  · intro d
    simp only [List.not_mem_nil, false_iff, not_and]
    exact fun h => absurd ((hmem _).2 h.1) h.2
  · exact List.nodup_nil

/-- **One round keeps the invariant.** -/
lemma Walk.round (h : Walk allIDs load keepReasons q) {queue : List String}
    (hqueue : q.queue = id :: queue) {b : Backup} (hload : load id = .ok b) {es : List RefEdge}
    (hes : es.Perm (referenceEdges b)) {q' : Queue}
    (hq' : Followed allIDs id es { q with queue := queue } q') :
    Walk allIDs load keepReasons q' := by
  have hid : id ∈ q.found := h.pending id (hqueue ▸ List.mem_cons_self)
  obtain ⟨hidnot, hnodup⟩ := List.nodup_cons.1 (hqueue ▸ h.nodup)
  have hpending : ∀ x ∈ queue, x ∈ q.found :=
    fun x hx => h.pending x (hqueue ▸ .tail _ hx)
  have hmono : ∀ x ∈ q.found, x ∈ q'.found := fun x hx => (hq'.found x).2 (.inl hx)
  have hrefers : ∀ e, Refers load id e ↔ e ∈ es := by
    intro e
    rw [hes.mem_iff]
    constructor
    · rintro ⟨b', hb', he⟩
      rw [hload] at hb'
      cases hb'
      exact he
    · exact fun he => ⟨b, hload, he⟩
  obtain ⟨new, hqueue', hnewNodup, hnew⟩ := hq'.queue
  -- what has left the queue is `id` and what had left it before
  have hleft : ∀ x, x ∈ q'.found ∧ x ∉ q'.queue ↔ x = id ∨ x ∈ q.found ∧ x ∉ q.queue := by
    intro x
    rw [hqueue', hqueue, List.mem_append, List.mem_cons, hnew]
    constructor
    · rintro ⟨hx, hnot⟩
      by_cases hxid : x = id
      · exact .inl hxid
      · have hfound : x ∈ q.found := by
          by_contra hfound
          exact hnot (.inr ⟨hx, hfound⟩)
        exact .inr ⟨hfound, fun hor => hnot (.inl (hor.resolve_left hxid))⟩
    · rintro (rfl | ⟨hx, hnot⟩)
      · exact ⟨hmono _ hid, fun hor => hor.elim hidnot fun hn => hn.2 hid⟩
      · exact ⟨hmono _ hx, fun hor => hor.elim (fun hq => hnot (.inr hq)) fun hn => hn.2 hx⟩
  refine ⟨fun x hx => hmono x (h.kept x hx), fun x hx => ?_, fun x hx => ?_, ?_,
    fun x hx hnot => ?_, fun d => ?_, ?_⟩
  · rcases (hq'.found x).1 hx with hx | ⟨hall, e, he, rfl⟩
    · exact h.closure x hx
    · obtain ⟨root, hroot, hreach⟩ := h.closure id hid
      exact ⟨root, hroot, hreach.tail ⟨hall, e.via, (hrefers e).2 he⟩⟩
  · rw [hqueue', List.mem_append, hnew] at hx
    exact hx.elim (fun hx => hmono x (hpending x hx)) And.left
  · rw [hqueue']
    exact hnodup.append hnewNodup fun x hx hx' => ((hnew x).1 hx').2 (hpending x hx)
  · rcases (hleft x).1 ⟨hx, hnot⟩ with rfl | ⟨hx, hnot⟩
    · refine ⟨⟨b, hload⟩, fun y hy => ?_⟩
      obtain ⟨hall, via, hrefer⟩ := hy
      exact (hq'.found y).2 (.inr ⟨hall, _, (hrefers _).1 hrefer, rfl⟩)
    · obtain ⟨hok, hclosed⟩ := h.through x hx hnot
      exact ⟨hok, fun y hy => hmono y (hclosed y hy)⟩
  · rw [hq'.dangling, List.mem_append, h.dangling, hleft, List.mem_map]
    obtain ⟨src, dst, via⟩ := d
    simp only [List.mem_filter, decide_eq_true_eq, Dangling.mk.injEq]
    constructor
    · rintro (⟨hd, hrest⟩ | ⟨e, ⟨he, hnot⟩, rfl, rfl, rfl⟩)
      · exact ⟨.inr hd, hrest⟩
      · exact ⟨.inl rfl, hnot, (hrefers e).2 he⟩
    · rintro ⟨rfl | hd, hnot, hrefer⟩
      · exact .inr ⟨⟨dst, via⟩, ⟨(hrefers _).1 hrefer, hnot⟩, rfl, rfl, rfl⟩
      · exact .inl ⟨hd, hnot, hrefer⟩
  · rw [hq'.dangling]
    refine h.danglingNodup.append ?_ fun d hd hd' => ?_
    · have hesNodup : es.Nodup := hes.nodup_iff.2 (nodup_referenceEdges b)
      refine (hesNodup.filter _).map fun e e' heq => ?_
      obtain ⟨x, v⟩ := e
      obtain ⟨x', v'⟩ := e'
      simpa using heq
    · obtain ⟨e, -, rfl⟩ := List.mem_map.1 hd'
      exact ((h.dangling _).1 hd).1.2 (hqueue ▸ List.mem_cons_self)

/-! ## The whole loop -/

/-- The rounds that are left: what waits and what may still join. -/
def Queue.left (allIDs : List String) (q : Queue) : ℕ :=
  (allIDs.toFinset.filter (· ∉ q.found)).card + q.queue.length

lemma Followed.left {es : List RefEdge} {q' : Queue} (h : Followed allIDs id es q q') :
    q'.left allIDs ≤ q.left allIDs := by
  obtain ⟨new, hqueue, hnodup, hnew⟩ := h.queue
  have hsub : allIDs.toFinset.filter (· ∉ q'.found) ∪ new.toFinset ⊆
      allIDs.toFinset.filter (· ∉ q.found) := by
    intro x hx
    rw [Finset.mem_union, Finset.mem_filter, List.mem_toFinset, List.mem_toFinset, hnew] at hx
    rw [Finset.mem_filter, List.mem_toFinset]
    rcases hx with ⟨hall, hnot⟩ | ⟨hfound, hnot⟩
    · exact ⟨hall, fun hq => hnot ((h.found x).2 (.inl hq))⟩
    · exact ⟨(((h.found x).1 hfound).resolve_left hnot).1, hnot⟩
  have hdisjoint : Disjoint (allIDs.toFinset.filter (· ∉ q'.found)) new.toFinset := by
    rw [Finset.disjoint_left]
    intro x hx hx'
    rw [List.mem_toFinset, hnew] at hx'
    exact (Finset.mem_filter.1 hx).2 hx'.1
  have hcard := Finset.card_le_card hsub
  rw [Finset.card_union_of_disjoint hdisjoint, List.toFinset_card_of_nodup hnodup] at hcard
  rw [Queue.left, Queue.left, hqueue, List.length_append]
  omega

/-- What `Protect` returns. -/
def Protects (allIDs : List String) (load : String → Except String Backup)
    (keepReasons : Protected) :
    Except (String × List Dangling) (Protected × List Dangling) → Prop
  | .error _ => ∃ id e, Closure allIDs load keepReasons id ∧ load id = .error e
  | .ok (found, dangling) => (∀ id, id ∈ found ↔ Closure allIDs load keepReasons id) ∧
      (∀ x ∈ found, ∃ b, load x = .ok b) ∧
      (∀ x ∈ found, ∀ y, Resolves allIDs load x y → y ∈ found) ∧ dangling.Nodup ∧
      ∀ d, d ∈ dangling ↔ Closure allIDs load keepReasons d.src ∧ d.dst ∉ allIDs ∧
        Refers load d.src ⟨d.dst, d.via⟩

/-- A queue that is empty: the closure has been gone through. -/
lemma Walk.protects (h : Walk allIDs load keepReasons q) (hqueue : q.queue = []) :
    Protects allIDs load keepReasons (.ok (q.found, q.dangling)) := by
  have hthrough : ∀ x ∈ q.found,
      (∃ b, load x = .ok b) ∧ ∀ y, Resolves allIDs load x y → y ∈ q.found :=
    fun x hx => h.through x hx (by simp [hqueue])
  have hclosure : ∀ x, x ∈ q.found ↔ Closure allIDs load keepReasons x := by
    refine fun x => ⟨h.closure x, ?_⟩
    rintro ⟨root, hroot, hreach⟩
    induction hreach with
    | refl => exact h.kept root hroot
    | tail _ hlink ih => exact (hthrough _ ih).2 _ hlink
  refine ⟨hclosure, fun x hx => (hthrough x hx).1, fun x hx => (hthrough x hx).2, h.danglingNodup,
    fun d => ?_⟩
  rw [h.dangling, hclosure, hqueue]
  simp

/-- **The loop returns** when it has rounds enough. -/
lemma Walk.protectLoop (h : Walk allIDs load keepReasons q) {fuel : ℕ}
    (hfuel : q.left allIDs < fuel) :
    ∃ r, protectLoop allIDs load fuel q = some r ∧ Protects allIDs load keepReasons r := by
  induction fuel generalizing q with
  | zero => omega
  | succ fuel ih =>
    rw [Forget.protectLoop]
    cases hqueue : q.queue with
    | nil => exact ⟨_, rfl, h.protects hqueue⟩
    | cons id queue =>
      simp only
      cases hload : load id with
      | error e => exact ⟨_, rfl, id, e, h.closure id (h.pending id (by simp [hqueue])), hload⟩
      | ok b =>
        have hfollowed := followed_foldl allIDs id
          ((referenceEdges b).insertionSort fun a b => a.id ≤ b.id) { q with queue := queue }
        have hleft := hfollowed.left
        refine ih (h.round hqueue hload (List.perm_insertionSort _ _) hfollowed) ?_
        have hpop : q.left allIDs = ({ q with queue := queue } : Queue).left allIDs + 1 := by
          simp [Queue.left, hqueue, Nat.add_assoc]
        omega

lemma protectLoop_mono {fuel : ℕ}
    {r : Except (String × List Dangling) (Protected × List Dangling)}
    (h : protectLoop allIDs load fuel q = some r) {more : ℕ} (hmore : fuel ≤ more) :
    protectLoop allIDs load more q = some r := by
  induction fuel generalizing q more with
  | zero => cases h
  | succ fuel ih =>
    obtain ⟨more, rfl⟩ := Nat.exists_eq_add_of_le' (Nat.one_le_of_lt (Nat.lt_of_succ_le hmore))
    rw [protectLoop] at h ⊢
    split at h
    · exact h
    · split at h
      · exact h
      · exact ih h (by omega)

/-- `Protect` returns after at most one round per backup. -/
lemma protect_protects (allIDs : List String) (load : String → Except String Backup)
    (keepReasons : Protected) :
    ∃ r, (∀ fuel, allIDs.length + keepReasons.keys.length < fuel →
        protect allIDs keepReasons load fuel = some r) ∧ Protects allIDs load keepReasons r := by
  obtain ⟨r, hr, hprotects⟩ :=
    (walk_init allIDs load keepReasons).protectLoop (Nat.lt_succ_self _)
  refine ⟨r, fun fuel hfuel => protectLoop_mono hr ?_, hprotects⟩
  have hcard := (Finset.card_filter_le allIDs.toFinset (· ∉ keepReasons)).trans
    allIDs.toFinset_card_le
  simp only [Queue.left, List.length_insertionSort]
  omega

/-- **`Protect` computes the reference closure.** It returns after at most one round per backup. It
fails iff a backup of the closure does not load. Otherwise what it protects is the closure, so that
every reference of a protected backup that leads somewhere still does when the others are removed,
and it reports each that leads nowhere.

**Proof sketch.** The invariant is `Walk`. Each round uses up a backup that is queued or not found
yet. -/
theorem protect_closure (hkeep : ∀ id ∈ keepReasons, id ∈ allIDs) :
    ∃ r, (∀ fuel, allIDs.length + keepReasons.keys.length < fuel →
        protect allIDs keepReasons load fuel = some r) ∧
      ((∃ err, r = .error err) ↔
        ∃ id e, Closure allIDs load keepReasons id ∧ load id = .error e) ∧
      ∀ found dangling, r = .ok (found, dangling) →
        (∀ id, id ∈ found ↔ id ∈ allIDs ∧ Closure allIDs load keepReasons id) ∧
        (∀ x ∈ found, ∀ y, Resolves allIDs load x y → y ∈ found) ∧
        dangling.Nodup ∧ ∀ d, d ∈ dangling ↔ Closure allIDs load keepReasons d.src ∧
          d.dst ∉ allIDs ∧ Refers load d.src ⟨d.dst, d.via⟩ := by
  obtain ⟨r, hr, hprotects⟩ := protect_protects allIDs load keepReasons
  have hexists : ∀ id, Closure allIDs load keepReasons id → id ∈ allIDs := by
    rintro id ⟨root, hroot, hreach⟩
    cases hreach with
    | refl => exact hkeep _ hroot
    | tail _ hlink => exact hlink.1
  refine ⟨r, hr, ⟨?_, ?_⟩, ?_⟩
  · rintro ⟨err, rfl⟩
    exact hprotects
  · rintro ⟨id, e, hid, hload⟩
    cases r with
    | error err => exact ⟨err, rfl⟩
    | ok res =>
      obtain ⟨hfound, hok, -⟩ := hprotects
      obtain ⟨b, hb⟩ := hok id ((hfound id).2 hid)
      rw [hload] at hb
      cases hb
  · rintro found dangling rfl
    obtain ⟨hfound, -, hclosed, hnodup, hdangling⟩ := hprotects
    refine ⟨fun id => ?_, hclosed, hnodup, hdangling⟩
    rw [hfound]
    exact ⟨fun hid => ⟨hexists id hid, hid⟩, And.right⟩

end Round

/-- Two increments that reference each other, and their full backup. -/
def looped (id : String) : Except String Backup :=
  if id = "a" then .ok ⟨"a", 2, "incremental", "b", ["c", "gone"]⟩
  else if id = "b" then .ok ⟨"b", 1, "incremental", "a", []⟩
  else .ok ⟨id, 0, "full", "", []⟩

theorem protect_closure_looped :
    (∀ id ∈ (∅ : Protected).insert "a" ["last"], id ∈ ["a", "b", "c", "d"]) ∧
      ∃ r, ∀ fuel, 5 < fuel →
        protect ["a", "b", "c", "d"] ((∅ : Protected).insert "a" ["last"]) looped fuel =
          some r := by
  have hkeep : ∀ id ∈ (∅ : Protected).insert "a" ["last"], id ∈ ["a", "b", "c", "d"] := by
    intro id hid
    simp only [AList.mem_insert, AList.notMem_empty, or_false] at hid
    simp [hid]
  obtain ⟨r, hr, -⟩ := @protect_closure ["a", "b", "c", "d"] looped _ hkeep
  exact ⟨hkeep, r, hr⟩

example : (protect ["a", "b", "c", "d"] ((∅ : Protected).insert "a" ["last"]) looped 6).map
    (fun r => r.toOption.map fun x => (x.1.keys, x.2)) =
      some (some (["c", "b", "a"], [⟨"a", "gone", .data⟩])) := by
  decide +kernel

end DiskNexus.Forget
