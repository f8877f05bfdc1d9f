import DiskNexus.Manifest.Entries

/-!
# The hashes that a prune keeps

`prune.collectReferencedHashes` collects the hashes of the entries of every backup, and those of the
backups that its file catalog names. A backup is a `.dnm` file, a `.manifest` file with an
`.entries` sidecar, or a `.manifest` file that embeds its entries. `manifest.Load` takes the
embedded entries first, the walk the sidecar.

## Main results

`mem_collectReferencedHashes`, `Manifests.via_streamed_iff`
-/

namespace DiskNexus.Prune

open Binary Sha256 Manifest

/-! ## The manifests directory -/

/-- What reading a `.dnm` file yields: the hashes of its entries, up to the first record that does
not read, and the backups of its catalog. -/
structure DnmFile where
  entries : List Hash
  entriesErr : Option String
  catalog : Except String (List String)

/-- A `.manifest` file: the hashes that it embeds, and the backups of its catalog. -/
structure JsonManifest where
  entries : List Hash
  catalog : List String

/-- The files of one backup. -/
structure BackupFiles where
  dnm : Option (Except String DnmFile)
  manifest : Option (Except String JsonManifest)
  entries : Option Bytes

/-- The manifests directory, by backup; `bak` are leftovers of a migration. -/
structure Manifests where
  readErr : Option String
  backups : List (String × BackupFiles)
  bak : List String

namespace BackupFiles

/-- No file at all. -/
def missing : BackupFiles := ⟨none, none, none⟩

/-- Whether a manifest names the backup. -/
def listed (b : BackupFiles) : Bool := b.dnm.isSome || b.manifest.isSome

/-- `manifest.ReadEntries` of the sidecar: `none` if there is none. -/
def readEntries (b : BackupFiles) : Except String (Option (List Hash)) :=
  match b.entries with
  | none => .ok none
  | some file =>
    match Manifest.readEntries file with
    | .error e => .error e
    | .ok es => .ok (some (es.map (·.chunkHash)))

/-- The entries that `manifest.Load` reads. -/
def load (b : BackupFiles) : Except String (List Hash) :=
  match b.dnm with
  | some (.error e) => .error s!"opening dnm file: {e}"
  | some (.ok dnm) =>
    match dnm.catalog with
    | .error e => .error s!"reading dnm catalog: {e}"
    | .ok _ =>
      match dnm.entriesErr with
      | some e => .error s!"reading dnm entries: {e}"
      | none => .ok dnm.entries
  | none =>
    match b.manifest with
    | none => .error "reading manifest"
    | some (.error e) => .error s!"parsing manifest: {e}"
    | some (.ok m) =>
      if m.entries = [] then
        match b.readEntries with
        | .error e => .error s!"reading entries sidecar: {e}"
        | .ok none => .ok []
        | .ok (some hs) => .ok hs
      else .ok m.entries

/-- `manifest.LoadCatalog`: the `DataBackupID` of each file of the catalog. -/
def loadCatalog (b : BackupFiles) : Except String (List String) :=
  match b.dnm with
  | some (.error e) => .error s!"opening dnm file: {e}"
  | some (.ok dnm) =>
    match dnm.catalog with
    | .error e => .error s!"reading dnm catalog: {e}"
    | .ok ids => .ok ids
  | none =>
    match b.manifest with
    | none => .error "reading manifest"
    | some (.error e) => .error s!"parsing manifest: {e}"
    | some (.ok m) => .ok m.catalog

end BackupFiles

namespace Manifests

/-- The files of a backup. -/
def backup (m : Manifests) (id : String) : BackupFiles :=
  ((m.backups.find? fun b => b.1 = id).map (·.2)).getD .missing

/-- The backups that have a manifest. -/
def ids (m : Manifests) : List String :=
  (m.backups.map (·.1)).filter fun id => (m.backup id).listed

/-- `manifest.ListIDs`. -/
def listIDs (m : Manifests) : Except String (List String) :=
  match m.readErr with
  | some e => .error s!"reading manifests dir: {e}"
  | none => .ok m.ids

end Manifests

/-! ## The walk -/

/-- `streamHashes`: add the hashes of a backup to `dst`. -/
def streamHashes (m : Manifests) (id : String) (dst : List Hash) : Option String × List Hash :=
  let b := m.backup id
  match b.dnm with
  | some (.error e) => (some e, dst)
  | some (.ok dnm) => (dnm.entriesErr, dst ++ dnm.entries)
  | none =>
    match b.readEntries with
    | .error e => (some e, dst)
    | .ok (some hs) => (none, dst ++ hs)
    | .ok none =>
      match b.load with
      | .error e => (some s!"loading legacy manifest {id}: {e}", dst)
      | .ok hs => (none, dst ++ hs)

/-- The three maps of the walk. -/
structure Collected where
  referenced : List Hash
  dataBackupIDs : List String
  loadedIDs : List String

/-- One backup of the walk. -/
def collectBackup (m : Manifests) (c : Collected) (id : String) : Except String Collected :=
  let loadedIDs := c.loadedIDs ++ [id]
  match streamHashes m id c.referenced with
  | (some e, _) => .error
      (s!"streaming hashes for backup {id}: {e} (all manifests must be readable " ++
      "for safe prune)")
  | (none, referenced) =>
    match (m.backup id).loadCatalog with
    | .error e => .error
        s!"loading manifest {id}: {e} (all manifests must be readable for safe prune)"
    | .ok catalog =>
      .ok ⟨referenced, c.dataBackupIDs ++ catalog.filter fun d => d ≠ "" ∧ d ∉ loadedIDs, loadedIDs⟩

/-- A backup that only a catalog names may have been deleted; its errors are ignored. -/
def collectDataBackup (m : Manifests) (loadedIDs : List String) (dst : List Hash) (id : String) :
    List Hash :=
  if id ∈ loadedIDs then dst else (streamHashes m id dst).2

/-- `collectReferencedHashes`. -/
def collectReferencedHashes (m : Manifests) : Except String (List Hash) :=
  match m.listIDs with
  | .error e => .error s!"listing manifests: {e}"
  | .ok ids =>
    match ids.foldlM (collectBackup m) ⟨[], [], []⟩ with
    | .error e => .error e
    | .ok c => .ok (c.dataBackupIDs.foldl (collectDataBackup m c.loadedIDs) c.referenced)

/-- `removeBakFiles`: how many there were, and the directory without them. -/
def removeBakFiles (m : Manifests) : ℕ × Manifests :=
  match m.readErr with
  | some _ => (0, m)
  | none => (m.bak.length, { m with bak := [] })

/-! ## What the manifests reference -/

/-- The hashes of a backup as `manifest.Load` reads it, or those of its sidecar without a manifest.
-/
def BackupFiles.own (b : BackupFiles) : List Hash :=
  if b.listed then b.load.toOption.getD []
  else (b.readEntries.toOption.getD none).getD []

/-- The hashes of a backup: the sidecar before the embedded entries. -/
def BackupFiles.streamed (b : BackupFiles) : List Hash :=
  match b.dnm with
  | some (.error _) => []
  | some (.ok dnm) => dnm.entries
  | none =>
    match b.readEntries with
    | .error _ => []
    | .ok (some hs) => hs
    | .ok none => b.load.toOption.getD []

/-- The backups that the file catalog of a backup names. -/
def BackupFiles.dataBackupIDs (b : BackupFiles) : List String :=
  (b.loadCatalog.toOption.getD []).filter fun d => d ≠ ""

/-- A hash of a listed backup, or of one that a catalog names, where `read` gives the hashes. -/
def Manifests.Via (m : Manifests) (read : BackupFiles → List Hash) (h : Hash) : Prop :=
  ∃ id ∈ m.ids, h ∈ read (m.backup id) ∨ ∃ d ∈ (m.backup id).dataBackupIDs, h ∈ read (m.backup d)

/-- A hash that a manifest references, through its own entries or a `DataBackupID`. -/
def Manifests.References (m : Manifests) (h : Hash) : Prop := m.Via BackupFiles.own h

/-! ## What the walk collects -/

section Walk

variable {m : Manifests}

/-- Streaming a backup adds its hashes, whether it fails or not. -/
lemma streamHashes_snd (m : Manifests) (id : String) (dst : List Hash) :
    (streamHashes m id dst).2 = dst ++ (m.backup id).streamed := by
  unfold streamHashes BackupFiles.streamed
  simp only
  split
  · exact (List.append_nil dst).symm
  · rfl
  · split
    · exact (List.append_nil dst).symm
    · rfl
    · cases (m.backup id).load with
      | error e => exact (List.append_nil dst).symm
      | ok hs => rfl

/-- What one step of the walk does if it succeeds. -/
lemma collectBackup_ok {c c' : Collected} {id : String} (h : collectBackup m c id = .ok c') :
    c'.loadedIDs = c.loadedIDs ++ [id] ∧ c'.referenced = c.referenced ++ (m.backup id).streamed ∧
      c'.dataBackupIDs =
        c.dataBackupIDs ++ (m.backup id).dataBackupIDs.filter fun d => d ∉ c'.loadedIDs := by
  have hstream := streamHashes_snd m id c.referenced
  unfold collectBackup at h
  rcases hres : streamHashes m id c.referenced with ⟨_ | e, referenced⟩
  · rw [hres] at h hstream
    cases hcat : (m.backup id).loadCatalog with
    | error e => rw [hcat] at h; cases h
    | ok catalog =>
      rw [hcat] at h
      cases h
      refine ⟨rfl, hstream, ?_⟩
      simp only [BackupFiles.dataBackupIDs, hcat, Except.toOption, Option.getD_some,
        List.filter_filter]
      congr 1
      simp [Bool.and_comm]
  · rw [hres] at h
    cases h

/-- The walk over the listed backups. -/
lemma foldlM_collectBackup {ids : List String} {c c' : Collected}
    (h : ids.foldlM (collectBackup m) c = .ok c') :
    c'.loadedIDs = c.loadedIDs ++ ids ∧
      c'.referenced = c.referenced ++ ids.flatMap (fun id => (m.backup id).streamed) ∧
      ∀ d, d ∉ c'.loadedIDs → (d ∈ c'.dataBackupIDs ↔
        d ∈ c.dataBackupIDs ∨ ∃ id ∈ ids, d ∈ (m.backup id).dataBackupIDs) := by
  induction ids generalizing c with
  | nil =>
    cases h
    simp
  | cons id ids ih =>
    rw [List.foldlM_cons] at h
    cases hstep : collectBackup m c id with
    | error e => rw [hstep] at h; cases h
    | ok c1 =>
      rw [hstep] at h
      obtain ⟨hloaded, hreferenced, hdata⟩ := ih h
      obtain ⟨hloaded1, hreferenced1, hdata1⟩ := collectBackup_ok hstep
      refine ⟨by rw [hloaded, hloaded1, List.append_assoc]; rfl, ?_, fun d hd => ?_⟩
      · rw [hreferenced, hreferenced1, List.append_assoc]
        rfl
      · have hd1 : d ∉ c1.loadedIDs := fun hmem =>
          hd (by rw [hloaded]; exact List.mem_append_left _ hmem)
        rw [hdata d hd, hdata1, List.mem_append, List.mem_filter]
        simp only [hd1, not_false_eq_true, decide_true, and_true, List.mem_cons, or_assoc,
          exists_eq_or_imp]

lemma foldl_collectDataBackup (m : Manifests) (loaded : List String) (ds : List String)
    (dst : List Hash) (h : Hash) :
    h ∈ ds.foldl (collectDataBackup m loaded) dst ↔
      h ∈ dst ∨ ∃ d ∈ ds, d ∉ loaded ∧ h ∈ (m.backup d).streamed := by
  induction ds generalizing dst with
  | nil => simp
  | cons d ds ih =>
    rw [List.foldl_cons, ih]
    unfold collectDataBackup
    split_ifs with hd
    · simp [hd]
    · rw [streamHashes_snd, List.mem_append]
      simp [hd, or_assoc]

/-- **What the walk collects**: the hashes of the listed backups and of those that their catalogs
name, each read with its sidecar first. -/
theorem mem_collectReferencedHashes {hs : List Hash} (hm : collectReferencedHashes m = .ok hs)
    (h : Hash) : h ∈ hs ↔ m.Via BackupFiles.streamed h := by
  unfold collectReferencedHashes Manifests.listIDs at hm
  cases hread : m.readErr with
  | some e => rw [hread] at hm; cases hm
  | none =>
    rw [hread] at hm
    simp only at hm
    cases hfold : m.ids.foldlM (collectBackup m) ⟨[], [], []⟩ with
    | error e => rw [hfold] at hm; cases hm
    | ok c =>
      rw [hfold] at hm
      cases hm
      obtain ⟨hloaded, hreferenced, hdata⟩ := foldlM_collectBackup hfold
      rw [List.nil_append] at hloaded hreferenced
      rw [foldl_collectDataBackup, hreferenced, hloaded, List.mem_flatMap]
      constructor
      · rintro (⟨id, hid, hh⟩ | ⟨d, hd, hnot, hh⟩)
        · exact ⟨id, hid, .inl hh⟩
        · rw [hdata d (by rwa [hloaded])] at hd
          obtain ⟨id, hid, hcat⟩ := hd.resolve_left (by simp)
          exact ⟨id, hid, .inr ⟨d, hcat, hh⟩⟩
      · rintro ⟨id, hid, hh | ⟨d, hd, hh⟩⟩
        · exact .inl ⟨id, hid, hh⟩
        · by_cases hlisted : d ∈ m.ids
          · exact .inl ⟨d, hlisted, hh⟩
          · exact .inr ⟨d, (hdata d (by rwa [hloaded])).2 (.inr ⟨id, hid, hd⟩), hlisted, hh⟩

end Walk

/-! ## Backups read either way -/

/-- A backup whose `.manifest` embeds entries has no sidecar. -/
def BackupFiles.Unshadowed (b : BackupFiles) : Prop :=
  ∀ j, b.dnm = none → b.manifest = some (.ok j) → b.entries.isSome → j.entries = []

/-- `manifest.Load` reads the backup, if it has a manifest. -/
def BackupFiles.Loads (b : BackupFiles) : Prop := b.listed → ∃ hs, b.load = .ok hs

/-- Such a backup reads the same either way. -/
lemma BackupFiles.streamed_eq_own {b : BackupFiles} (hload : b.Loads) (h : b.Unshadowed) :
    b.streamed = b.own := by
  obtain ⟨dnm, manifest, entries⟩ := b
  rcases dnm with _ | e | dnm
  · rcases manifest with _ | e | j
    · -- only a sidecar
      unfold streamed own
      simp only [listed, Option.isSome_none, Bool.or_self, Bool.false_eq_true, if_false]
      split <;> simp_all [Except.toOption, load]
    · obtain ⟨hs, hhs⟩ := hload rfl
      cases hhs
    · obtain ⟨hs, hhs⟩ := hload rfl
      have hnil := h j rfl rfl
      unfold streamed own
      cases hread : (⟨none, some (.ok j), entries⟩ : BackupFiles).readEntries with
      | error e =>
        have hsome : entries.isSome := by
          cases entries with
          | none => cases hread
          | some file => rfl
        simp [load, hnil hsome, hread] at hhs
      | ok found =>
        cases found with
        | none => rfl
        | some found =>
          have hsome : entries.isSome := by
            cases entries with
            | none => cases hread
            | some file => rfl
          simp [load, hnil hsome, hread, Except.toOption]
  · obtain ⟨hs, hhs⟩ := hload rfl
    cases hhs
  · obtain ⟨hs, hhs⟩ := hload rfl
    have hentries : hs = dnm.entries := by
      unfold load at hhs
      simp only at hhs
      split at hhs
      · cases hhs
      · split at hhs
        · cases hhs
        · cases hhs
          rfl
    simp [streamed, own, listed, hhs, hentries, Except.toOption]

/-- **The walk is complete** where every backup loads and none has both kinds of entries. -/
theorem Manifests.via_streamed_iff {m : Manifests} (hload : ∀ id, (m.backup id).Loads)
    (h : ∀ id, (m.backup id).Unshadowed) (k : Hash) :
    m.Via BackupFiles.streamed k ↔ m.References k := by
  unfold References Via
  simp only [fun id => BackupFiles.streamed_eq_own (hload id) (h id)]

end DiskNexus.Prune
