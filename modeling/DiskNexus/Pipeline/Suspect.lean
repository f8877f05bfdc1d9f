import DiskNexus.Index.Sessions
import DiskNexus.Pipeline.Backup

/-!
# A bloom filter that is missing

If `bloom.bin` is gone while the index file holds entries, an open starts with an empty filter and
reports that the index is suspect. `Close` saves the filter in memory, and from then on the empty
filter passes for the true one. `Export` opens the index to look chunks up and ends in `Close`.

## Main results

`refused_iff`, `export_launders`
-/

namespace DiskNexus.Index

open Binary Sha256 Files

/-! ## Reading an index -/

/-- The calls of those who only read. -/
def Event.Reads : Event → Prop
  | .openIndex _ _ | .lookup _ | .readAllEntries | .close _ | .closeDiscard
  | .exportArchive _ _ _ => True
  | _ => False

/-- The calls that end in `Close`. -/
def Event.Saves : Event → Prop
  | .close _ | .exportArchive (.ok _) _ _ => True
  | _ => False

/-- The invariant: the index file holds an entry, and the bloom filter is there if `saved`. -/
structure Read (saved : Prop) (w : World) : Prop where
  openable : Openable w.dir
  entry : ∃ h, (fileMap (sortedFile w.dir) h).isSome
  bloom : (w.dir.lookup .bloom).isSome ↔ saved
  session : ∀ x, w.session = some x → Session x w.dir

namespace Read

variable {saved : Prop} {w w' : World}

/-- A step that leaves alone what an open reads. -/
lemma of_same {d : RepoDir} (h : Read saved w)
    (hsame : ∀ f, f.Persistent → d.lookup f = w.dir.lookup f) {session : Option DedupIndex}
    (hsession : ∀ x, session = some x → Session x d) (inserted : List Hash)
    (folded : List String) : Read saved ⟨d, session, inserted, folded⟩ := by
  refine ⟨h.openable.of_same hsame, ?_, ?_, hsession⟩
  · simp only [sortedFile, hsame .hashIndex trivial]
    exact h.entry
  · simp only [hsame .bloom trivial]
    exact h.bloom

/-- Opening the index. -/
lemma openIndex (h : Read saved w) {nbits : UInt64} {readOnly : Bool}
    (hw' : w.openIndex nbits readOnly = some w') :
    Read saved w' ∧ w'.session.isSome := by
  unfold World.openIndex at hw'
  split at hw'
  · cases hw'
  · obtain ⟨-, x, -, -, hx, -⟩ := newDedupIndex_keyless h.openable nbits readOnly
    have hs := h.openable.session hx
    obtain ⟨hfile, hsame⟩ := @lookup_opened w.dir _ readOnly rfl
    rw [hx] at hw'
    cases hw'
    refine ⟨⟨hs.openable, ?_, ?_, ?_⟩, rfl⟩
    · simp only [sortedFile, hfile, Option.getD_some]
      exact h.entry
    · simp only [hsame .bloom trivial (by simp)]
      exact h.bloom
    · rintro _ ⟨⟩
      exact hs

/-- The index file that a flush writes holds what it held. -/
lemma entry_of_flush {x : DedupIndex} {index : HashIndex} {d : RepoDir} (h : Read saved w)
    (hs : Session x w.dir) (hflush : x.index.flush = .ok index)
    (hd : d.lookup .hashIndex = some index.file) :
    ∃ h, (fileMap (sortedFile d) h).isSome := by
  obtain ⟨k, hk⟩ := h.entry
  obtain ⟨index', hok, -, -, hmap, -⟩ := HashIndex.flush_ok hs.good
  rw [hflush] at hok
  cases hok
  refine ⟨k, ?_⟩
  rw [sortedFile, hd, Option.getD_some, hmap]
  refine hs.good.covers k ?_
  rwa [sortedFile, hs.file, Option.getD_some] at hk

/-- Closing the index saves the filter. -/
lemma closeIndex (h : Read saved w) {nonces : ℕ → Bytes} (hw' : w.closeIndex nonces = some w') :
    Read True w' := by
  obtain ⟨x, index, hsession, hflush, rfl⟩ := World.closeIndex_some hw'
  have hs := h.session x hsession
  obtain ⟨hbloom, hfile, -⟩ := lookup_shutdown hs.key hs.file hflush .close nonces
  refine ⟨hs.openable_shutdown .close nonces, h.entry_of_flush hs hflush hfile, ?_, ?_⟩
  · exact iff_of_true (Option.isSome_iff_exists.2 ⟨_, hbloom⟩) trivial
  · rintro _ ⟨⟩

/-- **One call** of a reader. -/
lemma step (h : Read saved w) {e : Event} (he : e.Reads) (hw' : w.step e = some w') :
    Read (saved ∨ e.Saves) w' := by
  have hkept : ∀ {e : Event} {w' : World}, ¬ e.Saves → Read saved w' →
    Read (saved ∨ e.Saves) w' := by
    intro e w' hno hread
    rwa [or_iff_left hno]
  cases e with
  | openIndex nbits readOnly => exact hkept id (h.openIndex hw').1
  | lookup k =>
    cases hw'
    exact hkept id h
  | readAllEntries =>
    obtain ⟨x, index, hsession, hflush, rfl⟩ := World.step_readAllEntries hw'
    have hs := h.session x hsession
    have hs' := hs.readAllEntries hflush
    refine hkept id ⟨hs'.openable, h.entry_of_flush hs hflush hs'.file, ?_, ?_⟩
    · simp only [lookup_runOps
        (HashIndex.flushOps_untouched not_working_bloom (by simp) x.index)]
      exact h.bloom
    · rintro _ ⟨⟩
      exact hs'
  | close nonces =>
    rw [show (saved ∨ Event.Saves (.close nonces)) ↔ True from iff_true_intro (.inr trivial)]
    exact h.closeIndex hw'
  | closeDiscard =>
    obtain ⟨x, hsession, rfl⟩ := World.step_closeDiscard hw'
    exact hkept id (h.of_same (h.session x hsession).lookup_closeDiscard (by simp) _ _)
  | exportArchive collected nbits nonces =>
    change w.exportArchive collected nbits nonces = some w' at hw'
    unfold World.exportArchive at hw'
    cases collected with
    | error e =>
      cases hw'
      exact hkept id h
    | ok hashes =>
      simp only at hw'
      split at hw'
      · cases hw'
      · rename_i w1 hopen
        obtain ⟨h1, hsome⟩ := h.openIndex hopen
        rw [if_pos hsome] at hw'
        rw [show (saved ∨ Event.Saves (.exportArchive (.ok hashes) nbits nonces)) ↔ True from
          iff_true_intro (.inr trivial)]
        exact h1.closeIndex hw'
  | _ => exact he.elim

/-- **Readers in any order**: the filter is there once one of them has closed. -/
lemma exec {es : List Event} (h : Read saved w) (hes : ∀ e ∈ es, e.Reads)
    (hw' : w.exec es = some w') : Read (saved ∨ ∃ e ∈ es, e.Saves) w' := by
  induction es generalizing saved w with
  | nil =>
    cases hw'
    simpa using h
  | cons e es ih =>
    unfold World.exec at hw'
    split at hw'
    · cases hw'
    · rename_i w1 he
      have hstep := h.step (hes e (.head _)) he
      have hexec := ih hstep (fun e' he' => hes e' (.tail _ he')) hw'
      rwa [or_assoc, ← List.exists_mem_cons_iff] at hexec

end Read

end DiskNexus.Index

namespace DiskNexus.Pipeline

open Binary Files Index

/-! ## What becomes of backups -/

/-- A directory on which every open reports a suspect index and no backup starts. -/
def Refused (d : RepoDir) : Prop :=
  ∀ nbits, (∃ x d', newDedupIndex none nbits false d = (.ok x, d') ∧ bloomSuspect x) ∧
    ∀ (cfg : Config) (opt : RunOptions) (r : Repository), cfg.indexKey = none →
      opt.nbits = nbits → opt.analyzeOnly = false → r.indexDir = d →
      ∃ e r', openRun cfg opt r = .error (e, r')

/-- A backup is refused on a suspect index. -/
lemma openRun_suspect {cfg : Config} {opt : RunOptions} {r : Repository} {x : DedupIndex}
    {d : RepoDir} (hopen : newDedupIndex cfg.indexKey opt.nbits false r.indexDir = (.ok x, d))
    (hx : bloomSuspect x) (hmode : opt.analyzeOnly = false) :
    ∃ e r', openRun cfg opt r = .error (e, r') := by
  unfold openRun
  split
  · exact ⟨_, _, rfl⟩
  · simp only [hopen]
    cases harm : armDelta opt x with
    | error e => exact ⟨_, _, rfl⟩
    | ok armed =>
      obtain ⟨x', ops⟩ := armed
      have hsame : bloomSuspect x' = bloomSuspect x := by
        unfold armDelta at harm
        split at harm
        · cases harm
          rfl
        · rw [if_neg (by simp [hmode])] at harm
          unfold DedupIndex.captureDelta at harm
          split at harm
          · cases harm
          · cases harm
            rfl
      simp only [hsame, hx, hmode, Bool.not_false, Bool.and_true, if_true]
      exact ⟨_, _, rfl⟩

/-- The index is suspect as long as nobody has saved a filter. -/
lemma refused_of_read {saved : Prop} {w : World} (hread : Read saved w) :
    Refused w.dir ↔ ¬ saved := by
  obtain ⟨k, hk⟩ := hread.entry
  have hsuspect : ∀ nbits, ∃ x d', newDedupIndex none nbits false w.dir = (.ok x, d') ∧
      bloomSuspect x = (w.dir.lookup .bloom).isNone := by
    intro nbits
    obtain ⟨ds, x, -, -, hx, hopened⟩ := newDedupIndex_keyless hread.openable nbits false
    exact ⟨x, _, hx, bloomSuspect_opened hopened hk⟩
  rw [← hread.bloom, Bool.not_eq_true, Option.isSome_eq_false_iff]
  constructor
  · intro hrefused
    obtain ⟨⟨x, d', hx, hs⟩, -⟩ := hrefused 64
    obtain ⟨x', d'', hx', hs'⟩ := hsuspect 64
    rw [hx] at hx'
    obtain ⟨rfl, rfl⟩ : x = x' ∧ d' = d'' := by simpa using hx'
    rw [← hs', hs]
  · intro hnone nbits
    obtain ⟨x, d', hx, hs⟩ := hsuspect nbits
    refine ⟨⟨x, d', hx, hs.trans hnone⟩, fun cfg opt r hkey hbits hmode hdir => ?_⟩
    refine @openRun_suspect cfg opt r x d' ?_ (hs.trans hnone) hmode
    rw [hkey, hbits, hdir, hx]

/-- A directory whose filter is missing. -/
lemma read_idle {d : RepoDir} (hd : Openable d) (hbloom : d.lookup .bloom = none)
    (hentry : decodeEntries (sortedFile d) ≠ []) : Read False (World.idle d) := by
  obtain ⟨entry, hmem⟩ := List.exists_mem_of_ne_nil _ hentry
  refine ⟨hd, ⟨entry.strongHash, ?_⟩, by simp [World.idle, hbloom], by rintro _ ⟨⟩⟩
  exact Option.isSome_iff_exists.2 ⟨entry, (fileMap_eq_some_iff hd.indexFile).2 ⟨hmem, rfl⟩⟩

/-- **A missing filter is noticed until somebody closes the index.** If those who use an index whose
bloom filter is missing only read it, in any order, the index stays suspect exactly if none of them
calls `Close`, as `Export` does.

**Proof sketch.** No other call writes `bloom.bin`, and what they may write keeps every entry of the
index file. `Close` writes the filter that the open started with. -/
theorem refused_iff {d : RepoDir} (hd : Openable d) (hbloom : d.lookup .bloom = none)
    (hentry : decodeEntries (sortedFile d) ≠ []) {es : List Event} (hes : ∀ e ∈ es, e.Reads)
    {w : World} (hw : (World.idle d).exec es = some w) :
    Refused w.dir ↔ ∀ e ∈ es, ¬ e.Saves := by
  have hread := (read_idle hd hbloom hentry).exec hes hw
  rw [refused_of_read hread, false_or]
  push Not
  rfl

/-! ## An index of one chunk whose filter is missing -/

lemma oneEntry_openable : Openable (indexDir [oneEntry]) :=
  indexDir_openable (by decide) (by decide)

lemma oneEntry_bloom : (indexDir [oneEntry]).lookup .bloom = none :=
  lookup_indexDir_ne [oneEntry] (by simp)

lemma oneEntry_entries : decodeEntries (sortedFile (indexDir [oneEntry])) = [oneEntry] := by
  rw [sortedFile, lookup_indexDir, Option.getD_some, decodeEntries_encodeEntries]

/-- After a lookup in a session that is given up, the index is still suspect. -/
theorem refused_iff_discarded : ∃ w : World,
    (World.idle (indexDir [oneEntry])).exec
      [.openIndex 64 false, .lookup oneEntry.strongHash, .closeDiscard] = some w ∧
    Refused w.dir := by
  obtain ⟨-, x, -, -, hx, -⟩ := newDedupIndex_keyless oneEntry_openable 64 false
  have hexec : (World.idle (indexDir [oneEntry])).exec
      [.openIndex 64 false, .lookup oneEntry.strongHash, .closeDiscard] =
      some ⟨runOps (newHashIndex (indexDir [oneEntry]) false).2 x.closeDiscardOps, none, [],
        []⟩ := by
    simp only [World.exec, World.step, World.openIndex, World.idle, hx]
  refine ⟨_, hexec, (refused_iff oneEntry_openable oneEntry_bloom ?_ ?_ hexec).2 ?_⟩
  · simp [oneEntry_entries]
  · simp [Event.Reads]
  · simp [Event.Saves]

/-- **An export launders the index**: it is not suspect any more, and takes its chunk for a new one.
-/
theorem export_launders : Refused (indexDir [oneEntry]) ∧ ∃ w : World,
    (World.idle (indexDir [oneEntry])).exec
      [.exportArchive (.ok [oneEntry.strongHash]) 64 fun _ => []] = some w ∧
    ∃ x d', newDedupIndex none 64 false w.dir = (.ok x, d') ∧ ¬ bloomSuspect x ∧
      x.lookupDirect oneEntry.strongHash = some oneEntry ∧
      x.check ⟨7, oneEntry.strongHash⟩ = none := by
  have hnone := not_pendingEntry_indexDir [oneEntry]
  have hmem : oneEntry ∈ decodeEntries (sortedFile (indexDir [oneEntry])) := by
    rw [oneEntry_entries]
    exact List.mem_singleton_self _
  have hfind : fileMap (sortedFile (indexDir [oneEntry])) oneEntry.strongHash = some oneEntry :=
    (fileMap_eq_some_iff oneEntry_openable.indexFile).2 ⟨hmem, rfl⟩
  refine ⟨(refused_of_read (read_idle oneEntry_openable oneEntry_bloom
    (by simp [oneEntry_entries]))).2 id, ?_⟩
  -- the session of the export, and what its `Close` writes
  obtain ⟨es, x, -, hes, hx, hopened⟩ := newDedupIndex_keyless oneEntry_openable 64 false
  obtain rfl : es = [] := List.eq_nil_iff_forall_not_mem.2 fun e he => hnone e ((hes e).1 he)
  have hs := oneEntry_openable.session hx
  obtain ⟨index, hflush, -, -, hmap, -⟩ := HashIndex.flush_ok hs.good
  obtain ⟨hbloom, hfile, hsame⟩ := lookup_shutdown hs.key hs.file hflush .close fun _ => []
  have hopen := hs.openable_shutdown .close fun _ => []
  set d1 := runOps (newHashIndex (indexDir [oneEntry]) false).2 (Shutdown.close.ops x fun _ => [])
    with hd1
  refine ⟨⟨d1, none, [], []⟩, ?_, ?_⟩
  · simp only [World.exec, World.step, World.exportArchive, World.openIndex, World.idle, hx,
      World.closeIndex, hflush]
    rfl
  -- the next open
  obtain ⟨es', y, -, hes', hy, hopened'⟩ := newDedupIndex_keyless hopen 64 false
  obtain rfl : es' = [] := by
    refine List.eq_nil_iff_forall_not_mem.2 fun e he => hnone e (((hes' e).1 he).congr ?_)
    intro stem enc
    rw [hsame (.delta stem enc) trivial (by simp) (by simp)]
    exact ((lookup_opened rfl).2 (.delta stem enc) trivial (by simp)).symm
  have hcontent : y.index.content = fileMap (sortedFile (indexDir [oneEntry])) := by
    rw [hopened'.content, openedMap_nil, hfile, Option.getD_some, hmap, hopened.content]
    rfl
  have hlookup : y.lookupDirect oneEntry.strongHash = some oneEntry := by
    rw [DedupIndex.lookupDirect, HashIndex.lookup_eq_content
      (by rw [hopened'.good.mode, hopened'.mode]; rfl), hcontent, hfind]
  have hfilter : y.bloom = newBloomFilter 64 := by
    rw [hopened'.bloom, filterWith_nil, hbloom, filterOf_bytes, hopened.bloom, filterWith_nil,
      oneEntry_bloom, filterOf]
  refine ⟨y, _, hy, ?_, hlookup, ?_⟩
  · have hentry : (fileMap (sortedFile d1) oneEntry.strongHash).isSome := by
      rw [sortedFile, hfile, Option.getD_some, hmap, hopened.content, openedMap_nil, ← sortedFile,
        hfind]
      rfl
    rw [bloomSuspect_opened hopened' hentry, hbloom]
    simp
  · rw [DedupIndex.check, hfilter, if_neg (by decide)]

end DiskNexus.Pipeline
