import DiskNexus.Forget.Protect
import DiskNexus.Lib.BreadthFirst
import DiskNexus.Lib.Text

/-!
# The backups of an archive

`CollectBackupSet` gathers every backup that the requested ones reference, through a queue. The
reverse of its list is meant to have every backup behind those that it references.

## Main results

`collectBackupSet_closed`, `collectBackupSet_parentsFirst_iff`
-/

namespace DiskNexus.ExportImport

open BreadthFirst
open Forget (Backup)

/-! ## The code -/

/-- The manifests of a repository. `LoadCatalog` loads only what is listed. -/
structure Repository where
  ids : List String
  load : String → Except String Backup
  listed : ∀ id b, load id = .ok b → id ∈ ids

/-- `manifest.ResolveID`. -/
def resolveID (ids : List String) (partialID : String) : Except String String :=
  let found := ids.filter fun id => partialID.toList.isPrefixOf id.toList
  let count := found.length
  let quoted := Text.quote partialID
  match found with
  | [] => .error s!"no backup found matching prefix {quoted}"
  | [id] => .ok id
  | _ => .error s!"ambiguous prefix {quoted} matches {count} backups"

/-- The loop over the requested IDs. -/
def resolveAll (ids : List String) : List String → Except String (List String)
  | [] => .ok []
  | id :: rest =>
    let quoted := Text.quote id
    match resolveID ids id with
    | .error e => .error s!"resolving backup ID {quoted}: {e}"
    | .ok fullID => (resolveAll ids rest).map (fullID :: ·)

/-- What a backup puts behind the queue. -/
def references (b : Backup) : List String :=
  (if b.parentBackupID ≠ "" then [b.parentBackupID] else []) ++ b.fileCatalog.filter (· ≠ "")

/-- The loop over the queue; `order` holds the visited backups. -/
def collectLoop (load : String → Except String Backup) :
    ℕ → List String → List String → Option (Except String (List String))
  | 0, _, _ => none
  | _ + 1, order, [] => some (.ok order)
  | fuel + 1, order, id :: queue =>
    if id ∈ order then collectLoop load fuel order queue
    else
      match load id with
      | .error e => some (.error s!"loading backup {id}: {e}")
      | .ok b => collectLoop load fuel (order ++ [id]) (queue ++ references b)

/-- `CollectBackupSet`, for at most `fuel` rounds of its loop. -/
def collectBackupSet (repo : Repository) (backupIDs : List String) (fuel : ℕ) :
    Option (Except String (List String)) :=
  match resolveAll repo.ids backupIDs with
  | .error e => some (.error e)
  | .ok queue => collectLoop repo.load fuel [] queue

/-! ## The reference graph -/

/-- The references of a backup. -/
def refs (load : String → Except String Backup) (id : String) : List String :=
  match load id with
  | .error _ => []
  | .ok b => references b

/-- Every backup that can be reached loads. -/
def Loadable (repo : Repository) (roots : List String) : Prop :=
  ∀ id, Reached roots (refs repo.load) id → ∃ b, repo.load id = .ok b

/-- No backup that can be reached references itself. -/
def Acyclic (repo : Repository) (roots : List String) : Prop :=
  ∀ id, Reached roots (refs repo.load) id →
    ¬ Relation.TransGen (fun u v => v ∈ refs repo.load u) id id

/-- Every backup of a list comes behind all that it references. -/
def ParentsFirst (repo : Repository) (list : List String) : Prop :=
  ∀ before id after, list = before ++ id :: after → ∀ ref ∈ refs repo.load id, ref ∈ before

/-- Some walk to each backup is earlier than every walk to what it references. -/
def LeadsOn (repo : Repository) (roots : List String) : Prop :=
  ∀ id, Reached roots (refs repo.load) id → ∀ ref ∈ refs repo.load id,
    Nearer roots (refs repo.load) id ref

variable {repo : Repository} {roots : List String}

/-- While everything loads, the loop is the search. -/
lemma collectLoop_eq (hload : Loadable repo roots) (fuel : ℕ) (order queue : List String)
    (hqueue : ∀ id ∈ queue, Reached roots (refs repo.load) id) :
    collectLoop repo.load fuel order queue =
      (search (refs repo.load) fuel order queue).map .ok := by
  induction fuel generalizing order queue with
  | zero => rfl
  | succ fuel ih =>
    cases queue with
    | nil => rfl
    | cons id queue =>
      obtain ⟨hid, hrest⟩ := List.forall_mem_cons.1 hqueue
      rw [collectLoop, search]
      split
      · exact ih order queue hrest
      · obtain ⟨b, hb⟩ := hload id hid
        have hrefs : refs repo.load id = references b := by
          rw [refs, hb]
        rw [hb]
        simp only
        rw [← hrefs]
        refine ih _ _ fun x hx => ?_
        rcases List.mem_append.1 hx with hx | hx
        · exact hrest x hx
        · obtain ⟨r, hr, hreach⟩ := hid
          exact ⟨r, hr, hreach.tail hx⟩

/-- The loop ends with the search. -/
lemma collectBackupSet_search {ids : List String} (hroots : resolveAll repo.ids ids = .ok roots)
    (hload : Loadable repo roots) :
    ∃ n order, search (refs repo.load) n [] roots = some order ∧
      ∀ fuel, n ≤ fuel → collectBackupSet repo ids fuel = some (.ok order) := by
  have hstart : ∀ id ∈ roots, Reached roots (refs repo.load) id := fun id hid => ⟨id, hid, .refl⟩
  -- what can be reached is listed, so there are finitely many such backups
  classical
  have hmem : ∀ id, id ∈ repo.ids.filter (fun id => Reached roots (refs repo.load) id) ↔
      Reached roots (refs repo.load) id := by
    intro id
    rw [List.mem_filter, decide_eq_true_eq]
    refine and_iff_right_of_imp fun hid => ?_
    obtain ⟨b, hb⟩ := hload id hid
    exact repo.listed id b hb
  have hclosed : ∀ id ∈ repo.ids.filter (fun id => Reached roots (refs repo.load) id),
      ∀ ref ∈ refs repo.load id,
        ref ∈ repo.ids.filter (fun id => Reached roots (refs repo.load) id) := by
    intro id hid ref href
    obtain ⟨r, hr, hreach⟩ := (hmem id).1 hid
    exact (hmem ref).2 ⟨r, hr, hreach.tail href⟩
  obtain ⟨n, order, h⟩ := search_returns hclosed [] roots fun id hid => (hmem id).2 (hstart id hid)
  refine ⟨n, order, h n le_rfl, fun fuel hfuel => ?_⟩
  rw [collectBackupSet, hroots]
  simp only
  rw [collectLoop_eq hload fuel [] roots hstart, h fuel hfuel]
  rfl

/-- `CollectBackupSet` ends and returns what can be reached from the requested backups, each once.
-/
theorem collectBackupSet_closed {ids : List String} (hroots : resolveAll repo.ids ids = .ok roots)
    (hload : Loadable repo roots) :
    ∃ n order, (∀ fuel, n ≤ fuel → collectBackupSet repo ids fuel = some (.ok order)) ∧
      order.Nodup ∧ (∀ id, id ∈ order ↔ Reached roots (refs repo.load) id) ∧
        order.Pairwise (Nearer roots (refs repo.load)) := by
  obtain ⟨n, order, hsearch, hreturn⟩ := collectBackupSet_search hroots hload
  exact ⟨n, order, hreturn, nodup_search hsearch, mem_search_iff hsearch, search_sorted hsearch⟩

/-- The reverse of the search order starts with the parents exactly if every reference leads on. -/
lemma parentsFirst_reverse_iff {order : List String} (hnodup : order.Nodup)
    (hmem : ∀ id, id ∈ order ↔ Reached roots (refs repo.load) id)
    (hsorted : order.Pairwise (Nearer roots (refs repo.load))) :
    ParentsFirst repo order.reverse ↔ LeadsOn repo roots := by
  have hreached : ∀ {id ref : String}, id ∈ order → ref ∈ refs repo.load id → ref ∈ order := by
    intro id ref hid href
    obtain ⟨r, hr, hreach⟩ := (hmem id).1 hid
    exact (hmem ref).2 ⟨r, hr, hreach.tail href⟩
  constructor
  · intro h id hid ref href
    obtain ⟨before, after, rfl⟩ := List.append_of_mem ((hmem id).2 hid)
    have hin := h after.reverse id before.reverse (by simp) ref href
    exact (List.pairwise_cons.1 (List.pairwise_append.1 hsorted).2.1).1 ref (List.mem_reverse.1 hin)
  · intro h before id after hsplit ref href
    obtain rfl : order = after.reverse ++ id :: before.reverse := by
      rw [← List.reverse_reverse order, hsplit]
      simp
    have hnear := h id ((hmem id).1 (by simp)) ref href
    have hnot : ¬ Nearer roots (refs repo.load) ref id := hnear.asymm
    rcases List.mem_append.1 (hreached (by simp) href) with hin | hin
    · exact absurd ((List.pairwise_append.1 hsorted).2.2 ref hin id (.head _)) hnot
    · rcases List.mem_cons.1 hin with rfl | hin
      · exact absurd hnear hnot
      · exact List.mem_reverse.1 hin

/-- `CollectBackupSet` returns the closure of the requested backups, and the reverse of its list is
a walk that starts with the parents of an acyclic graph, exactly if every reference leads on. -/
theorem collectBackupSet_parentsFirst_iff {ids : List String}
    (hroots : resolveAll repo.ids ids = .ok roots) (hload : Loadable repo roots) :
    (∃ n order, (∀ fuel, n ≤ fuel → collectBackupSet repo ids fuel = some (.ok order)) ∧
      order.Nodup ∧ (∀ id, id ∈ order ↔ Reached roots (refs repo.load) id) ∧
        (Acyclic repo roots → ParentsFirst repo order.reverse)) ↔
      (Acyclic repo roots → LeadsOn repo roots) := by
  obtain ⟨n, order, hreturn, hnodup, hmem, hsorted⟩ := collectBackupSet_closed hroots hload
  have hiff := parentsFirst_reverse_iff hnodup hmem hsorted
  constructor
  · rintro ⟨n', order', hreturn', -, -, hfirst⟩ hacyclic
    have heq := (hreturn (max n n') (by omega)).symm.trans (hreturn' (max n n') (by omega))
    obtain rfl : order = order' := Except.ok.inj (Option.some.inj heq)
    exact hiff.1 (hfirst hacyclic)
  · intro h
    exact ⟨n, order, hreturn, hnodup, hmem, fun hacyclic => hiff.2 (h hacyclic)⟩

/-! ## A chain of incremental backups -/

/-- A backup with a parent and files whose data is in other backups. -/
def chained (id parent : String) (data : List String) : Backup :=
  ⟨id, 0, "incremental", parent, data⟩

/-- A chain of four backups; a file of `a` is unchanged since `d`. -/
def chainBackups : List (String × Backup) :=
  [("a", chained "a" "b" ["d"]), ("b", chained "b" "c" []), ("c", chained "c" "d" []),
    ("d", chained "d" "" [])]

/-- A repository with the given backups. -/
def repositoryOf (backups : List (String × Backup)) : Repository where
  ids := backups.map Prod.fst
  load id :=
    match backups.find? fun p => p.1 = id with
    | none => .error "reading manifest"
    | some p => .ok p.2
  listed id b h := by
    split at h
    · cases h
    · rename_i p hp
      have hid : p.1 = id := by simpa using List.find?_some hp
      exact hid ▸ List.mem_map_of_mem (List.mem_of_find?_eq_some hp)

/-- The reference graph of such a repository, backup by backup. -/
lemma forall_refs_repositoryOf {backups : List (String × Backup)} {P : String → String → Prop}
    (h : ∀ p ∈ backups, ∀ ref ∈ references p.2, P p.1 ref) :
    ∀ id, ∀ ref ∈ refs (repositoryOf backups).load id, P id ref := by
  intro id ref href
  cases hfind : backups.find? fun p => p.1 = id with
  | none => simp [refs, repositoryOf, hfind] at href
  | some p =>
    have hid : p.1 = id := by simpa using List.find?_some hfind
    simp only [refs, repositoryOf, hfind] at href
    exact hid ▸ h p (List.mem_of_find?_eq_some hfind) ref href

lemma loadable_repositoryOf {backups : List (String × Backup)} {roots : List String}
    (hroots : ∀ id ∈ roots, id ∈ backups.map Prod.fst)
    (h : ∀ p ∈ backups, ∀ ref ∈ references p.2, ref ∈ backups.map Prod.fst) :
    Loadable (repositoryOf backups) roots := by
  rintro id ⟨r, hr, hreach⟩
  have hmem : id ∈ backups.map Prod.fst := by
    induction hreach with
    | refl => exact hroots r hr
    | tail _ hstep ih =>
      exact forall_refs_repositoryOf (P := fun _ ref => ref ∈ backups.map Prod.fst) h _ _ hstep
  obtain ⟨p, hp, hid⟩ := List.mem_map.1 hmem
  cases hfind : backups.find? fun p => p.1 = id with
  | none => exact absurd (List.find?_eq_none.1 hfind p hp) (by simpa using hid)
  | some q => exact ⟨q.2, by simp [repositoryOf, hfind]⟩

/-- A repository is acyclic if its references lead to a smaller rank. -/
lemma acyclic_repositoryOf {backups : List (String × Backup)} {roots : List String}
    (rank : String → ℕ) (h : ∀ p ∈ backups, ∀ ref ∈ references p.2, rank ref < rank p.1) :
    Acyclic (repositoryOf backups) roots := by
  have hstep := forall_refs_repositoryOf (P := fun id ref => rank ref < rank id) h
  have hlt : ∀ {x y : String}, Relation.TransGen
      (fun u v => v ∈ refs (repositoryOf backups).load u) x y → rank y < rank x := by
    intro x y hxy
    induction hxy with
    | single h => exact hstep _ _ h
    | tail _ h ih => exact (hstep _ _ h).trans ih
  exact fun id _ hcycle => absurd (hlt hcycle) (lt_irrefl _)

theorem collectBackupSet_parentsFirst_iff_chain :
    (resolveAll (repositoryOf chainBackups).ids ["b"] = .ok ["b"] ∧
      Loadable (repositoryOf chainBackups) ["b"]) ∧
    ((∃ n order,
      (∀ fuel, n ≤ fuel → collectBackupSet (repositoryOf chainBackups) ["b"] fuel =
        some (.ok order)) ∧ order.Nodup ∧
      (∀ id, id ∈ order ↔ Reached ["b"] (refs (repositoryOf chainBackups).load) id) ∧
        (Acyclic (repositoryOf chainBackups) ["b"] →
          ParentsFirst (repositoryOf chainBackups) order.reverse)) ↔
      (Acyclic (repositoryOf chainBackups) ["b"] →
        LeadsOn (repositoryOf chainBackups) ["b"])) :=
  have hroots : resolveAll (repositoryOf chainBackups).ids ["b"] = .ok ["b"] := by decide +kernel
  have hload : Loadable (repositoryOf chainBackups) ["b"] :=
    loadable_repositoryOf (by decide +kernel) (by decide +kernel)
  ⟨⟨hroots, hload⟩, collectBackupSet_parentsFirst_iff hroots hload⟩

/-- The list is `a`, `b`, `d`, `c`: the reverse has `c` before its parent. -/
theorem collectBackupSet_not_parentsFirst :
    (resolveAll (repositoryOf chainBackups).ids ["a"] = .ok ["a"] ∧
      Loadable (repositoryOf chainBackups) ["a"] ∧ Acyclic (repositoryOf chainBackups) ["a"]) ∧
    (∀ fuel, 6 ≤ fuel → collectBackupSet (repositoryOf chainBackups) ["a"] fuel =
      some (.ok ["a", "b", "d", "c"])) ∧
    ¬ ParentsFirst (repositoryOf chainBackups) ["a", "b", "d", "c"].reverse := by
  refine ⟨⟨by decide +kernel, loadable_repositoryOf (by decide +kernel) (by decide +kernel),
    acyclic_repositoryOf (fun id => if id = "a" then 3 else if id = "b" then 2 else
      if id = "c" then 1 else 0) (by decide +kernel)⟩, fun fuel hfuel => ?_, fun h => ?_⟩
  · obtain ⟨k, rfl⟩ := Nat.exists_eq_add_of_le' hfuel
    rfl
  · have hin := h [] "c" ["d", "b", "a"] rfl "d" (by decide +kernel)
    cases hin

end DiskNexus.ExportImport
