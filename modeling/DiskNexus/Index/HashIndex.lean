import DiskNexus.Hasher
import DiskNexus.Index.HashTableBuild
import DiskNexus.Repo.FileName

/-!
# The hash index

`index.HashIndex` keeps the entries of a repository in a sorted file. An open builds the hash table
from it; inserts go to a buffer, `FlushDelta` moves the buffer into the table, and `Flush` writes
the entries of both to a new file and rebuilds the table.

## Main results

`newHashIndex_ok`, `HashIndex.flushDelta_ok`, `HashIndex.flush_ok`
-/

namespace DiskNexus.Index

open Binary Sha256 Files

/-- The in-memory write buffer: an entry under each hash. -/
abbrev Buffer := AList (fun h : Hash => { e : IndexEntry // e.strongHash = h })

/-- The entry under a hash. -/
def Buffer.get (b : Buffer) (h : Hash) : Option IndexEntry := (b.lookup h).map (·.1)

/-- The entries of a buffer. -/
def Buffer.values (b : Buffer) : List IndexEntry := b.entries.map fun s => s.2.1

/-- `index.HashIndex`; `file` is what its open handle reads. -/
structure HashIndex where
  file : Bytes
  entries : Buffer
  dirty : Bool
  noHtab : Bool
  htab : Option DiskHashTable

/-! ## File operations -/

/-- The magic number of a hash table file. -/
def htabMagic : Bytes := [0x44, 0x4E, 0x48, 0x54, 0x41, 0x42, 0x01, 0x00]

/-- The header of a hash table file. -/
def htabHeader (numSlots count : ℕ) : Bytes := htabMagic ++ le 8 numSlots ++ le 8 count

/-- The file operations that write the table of a build. -/
def tableOps (es : List IndexEntry) : List (FileOp FileName) :=
  match buildHashTable es with
  | none => [.create .htab, .append .htab (htabHeader (slotsFor es.length) 0), .remove .htab]
  | some t => [.create .htab, .append .htab (htabHeader t.numSlots 0),
      .append .htab (encodeEntries ((List.range t.numSlots).map t.slots)),
      .patch .htab 16 (le 8 t.count)]

/-- The file operations of `buildHashTable`: the bucket files, the table, its count. -/
def buildOps (es : List IndexEntry) : List (FileOp FileName) :=
  let n := slotsFor es.length
  let K := segmentsFor n
  let segSize := (n + K - 1) / K
  let bucket k := encodeEntries (es.filter fun e => bucketOf n segSize K e = k)
  let creates := (List.range K).map fun k => FileOp.create (FileName.bucket k)
  let writes := (List.range K).map fun k => FileOp.append (FileName.bucket k) (bucket k)
  let removes := (List.range K).map fun k => FileOp.remove (FileName.bucket k)
  creates ++ writes ++ tableOps es ++ removes

/-- The offset of a slot in a hash table file. -/
def slotOffset (i : ℕ) : ℕ := 24 + i * entrySize

/-- The file operations of an insert into the table file `f`. -/
def insertOps (f : FileName) (t : DiskHashTable) (e : IndexEntry) : List (FileOp FileName) :=
  if t.count > t.numSlots * 85 / 100 then []
  else
    match t.layout.seek t.slots e.strongHash with
    | .vacant i => [.patch f (slotOffset i) (encodeEntry e)]
    | .found i => if t.slots i = e then [] else [.patch f (slotOffset i) (encodeEntry e)]
    | .full => []

/-- The file operations of inserts, up to a failure. -/
def insertAllOps (f : FileName) : DiskHashTable → List IndexEntry → List (FileOp FileName)
  | _, [] => []
  | t, e :: es => insertOps f t e ++
      match t.insert e with
      | none => []
      | some t => insertAllOps f t es

/-- The file operations of `growHashTable`: a table with twice the slots replaces the old one. -/
def growOps (t : DiskHashTable) : List (FileOp FileName) :=
  let bare := DiskHashTable.create (t.numSlots * 2) t.double_pos
  [.create .htabTmp, .append .htabTmp (htabHeader bare.numSlots 0),
    .append .htabTmp (List.replicate (bare.numSlots * entrySize) 0)] ++
  insertAllOps .htabTmp bare t.readAll ++
  match t.grow with
  | none => [.remove .htabTmp]
  | some t' => [.patch .htabTmp 16 (le 8 t'.count), .patch .htab 16 (le 8 t.count),
      .remove .htab, .rename .htabTmp .htab]

/-- The file operations of one insertion of `FlushDelta`. -/
def insertGrowingOps (t : DiskHashTable) (e : IndexEntry) : List (FileOp FileName) :=
  match t.insert e with
  | some _ => insertOps .htab t e
  | none => growOps t ++
      match t.grow with
      | none => []
      | some t => insertOps .htab t e

/-- The file operations of `FlushDelta`'s inserts, up to a failure. -/
def insertAllGrowingOps : DiskHashTable → List IndexEntry → List (FileOp FileName)
  | _, [] => []
  | t, e :: es => insertGrowingOps t e ++
      match t.insertGrowing e with
      | none => []
      | some t => insertAllGrowingOps t es

/-- Remove the numbered delta files of interrupted runs, up to the first missing one. -/
def removeDeltas : ℕ → ℕ → RepoDir → RepoDir
  | 0, _, d => d
  | fuel + 1, i, d =>
    match d.lookup (.hashIndexDelta i) with
    | none => d
    | some _ => removeDeltas fuel (i + 1) (d.erase (.hashIndexDelta i))

/-- The leftovers of interrupted runs that an open removes. -/
def staleFiles : List FileName := [.hashIndexTmp, .session, .sessionTmp, .htabTmp]

/-- `NewHashIndex`: remove stale working files and, unless `skipHtab`, build the hash table. -/
def newHashIndex (d : RepoDir) (skipHtab : Bool) : Except String HashIndex × RepoDir :=
  let file := (d.lookup .hashIndex).getD []
  let d := d.insert .hashIndex file
  let d := staleFiles.foldl (fun d f => d.erase f) d
  let d := removeDeltas d.keys.length 0 d
  let d := d.erase .htab
  if skipHtab then (.ok ⟨file, ∅, false, true, none⟩, d)
  else
    let es := decodeEntries file
    match buildHashTable es with
    | none => (.error "building hash table", runOps d (buildOps es))
    | some t => (.ok ⟨file, ∅, false, false, some t⟩, runOps d (buildOps es))

namespace HashIndex

/-! ## Operations -/

/-- The binary search for the first prefix that is not below `want`. -/
def lowerBound (es : List IndexEntry) (want : ℕ) : ℕ → ℕ → ℕ → ℕ
  | 0, lo, _ => lo
  | fuel + 1, lo, hi =>
    if lo < hi then
      let mid := (lo + hi) / 2
      if hashPrefix8 (es.getD mid .empty).strongHash < want then
        lowerBound es want fuel (mid + 1) hi
      else lowerBound es want fuel lo mid
    else lo

/-- `diskLookup`: search by prefix, then scan the entries with it. -/
def diskLookup (file : Bytes) (h : Hash) : Option IndexEntry :=
  let es := decodeEntries file
  let want := hashPrefix8 h
  let lo := lowerBound es want es.length 0 es.length
  ((es.drop lo).takeWhile fun e => hashPrefix8 e.strongHash = want).find? fun e => e.strongHash = h

/-- `HashIndex.Lookup`: the buffer, then the hash table or the file. -/
def lookup (x : HashIndex) (h : Hash) : Option IndexEntry :=
  match x.entries.get h with
  | some e => some e
  | none =>
    match x.htab with
    | none => diskLookup x.file h
    | some t => t.lookup h

/-- `HashIndex.Insert`. -/
def insert (x : HashIndex) (id : ChunkID) (packNumber : UInt32) (storeOffset : UInt64)
    (chunkLength : UInt32) : HashIndex :=
  { x with
    entries := x.entries.insert id.strongHash
      ⟨⟨id.strongHash, packNumber, storeOffset, chunkLength⟩, rfl⟩
    dirty := true }

/-- `HashIndex.FlushDelta`: move the buffer into the hash table. -/
def flushDelta (x : HashIndex) : Except String HashIndex :=
  if x.entries.entries.isEmpty then .ok x
  else
    match x.htab with
    | none => .error "FlushDelta requires the hash table"
    | some t =>
      match x.entries.values.foldlM DiskHashTable.insertGrowing t with
      | none => .error "inserting into hash table"
      | some t' => .ok { x with htab := some t', entries := ∅ }

/-- The entries a flush writes: those of the table or of the file, with the buffer's over them. -/
def collect (x : HashIndex) : List IndexEntry :=
  let all := match x.htab with
    | none => decodeEntries x.file
    | some t => t.readAll
  all.filter (fun e => (x.entries.get e.strongHash).isNone) ++ x.entries.values

/-- Entries in the order of the sorted file. -/
def sortEntries (es : List IndexEntry) : List IndexEntry :=
  es.mergeSort fun a b => hashPrefix8 a.strongHash ≤ hashPrefix8 b.strongHash

/-- Whether a flush has nothing to do. -/
def isClean (x : HashIndex) : Bool := !x.dirty && x.entries.entries.isEmpty

/-- `HashIndex.Flush`. -/
def flush (x : HashIndex) : Except String HashIndex :=
  if x.isClean then .ok x
  else
    let file := encodeEntries (sortEntries x.collect)
    if x.noHtab then .ok ⟨file, ∅, false, x.noHtab, none⟩
    else
      match buildHashTable (decodeEntries file) with
      | none => .error "rebuilding hash table after flush"
      | some t => .ok ⟨file, ∅, false, x.noHtab, some t⟩

/-- The file operations of `Flush`. -/
def flushOps (x : HashIndex) : List (FileOp FileName) :=
  if x.isClean then []
  else
    let file := encodeEntries (sortEntries x.collect)
    let rebuild := if x.noHtab then [] else buildOps (decodeEntries file)
    replaceOps .hashIndexTmp .hashIndex file ++
      (if x.htab.isSome then FileOp.remove .htab :: rebuild else rebuild)

/-- The file operations of `FlushDelta`. -/
def flushDeltaOps (x : HashIndex) : List (FileOp FileName) :=
  if x.entries.entries.isEmpty then []
  else
    match x.htab with
    | none => []
    | some t => insertAllGrowingOps t x.entries.values

/-- The file operations of `CloseDiscard`: the hash table goes. -/
def closeDiscardOps (x : HashIndex) : List (FileOp FileName) :=
  if x.htab.isSome then [.remove .htab] else []

/-- The file operations of `Close` after its flush: the count is stamped, the table removed. -/
def closeOps (x : HashIndex) : List (FileOp FileName) :=
  match x.htab with
  | none => []
  | some t => [.patch .htab 16 (le 8 t.count), .remove .htab]

end HashIndex

/-! ## What an index stands for -/

/-- A well-formed index file: distinct, nonzero hashes. -/
structure IndexFile (file : Bytes) : Prop where
  ne_zero : ∀ e ∈ decodeEntries file, e.strongHash ≠ .zero
  nodup : ((decodeEntries file).map (·.strongHash)).Nodup

/-- The finite map an index file holds. -/
def fileMap (file : Bytes) : Hash → Option IndexEntry :=
  overlay (fun _ => none) (decodeEntries file)

variable {h : Hash} {e : IndexEntry} {x x' : HashIndex} {f : FileName} {d : RepoDir}

lemma fileMap_eq_some_iff {file : Bytes} (hf : IndexFile file) :
    fileMap file h = some e ↔ e ∈ decodeEntries file ∧ e.strongHash = h := by
  rw [fileMap, overlay_eq_some_iff hf.nodup]
  simp

/-- An entry is stored under its own hash. -/
lemma Buffer.strongHash_of_get {b : Buffer} (he : b.get h = some e) :
    e.strongHash = h := by
  obtain ⟨a, -, rfl⟩ := Option.map_eq_some_iff.1 he
  exact a.2

lemma Buffer.mem_values {b : Buffer} :
    e ∈ b.values ↔ b.get e.strongHash = some e := by
  unfold Buffer.values Buffer.get
  rw [List.mem_map, Option.map_eq_some_iff]
  constructor
  · rintro ⟨⟨h, e', rfl⟩, hmem, rfl⟩
    exact ⟨_, AList.mem_lookup_iff.2 hmem, rfl⟩
  · rintro ⟨a, ha, hae⟩
    exact ⟨⟨_, a⟩, AList.mem_lookup_iff.1 ha, hae⟩

/-- The entries of a buffer have distinct hashes. -/
lemma Buffer.values_nodup (b : Buffer) : (b.values.map (·.strongHash)).Nodup := by
  have hmap : b.values.map (·.strongHash) = b.keys := by
    rw [Buffer.values, List.map_map]
    refine List.map_congr_left fun s _ => ?_
    exact s.2.2
  rw [hmap]
  exact b.keys_nodup

lemma Buffer.get_insert (b : Buffer) (e : IndexEntry) :
    Buffer.get (b.insert e.strongHash ⟨e, rfl⟩) = Function.update b.get e.strongHash (some e) := by
  funext h
  rw [Function.update_apply, Buffer.get]
  split_ifs with hh
  · subst hh
    rw [AList.lookup_insert]
    rfl
  · rw [AList.lookup_insert_ne hh]
    rfl

/-- The buffer over a finite map. -/
lemma overlay_values (b : Buffer) (m : Hash → Option IndexEntry) (h : Hash) :
    overlay m b.values h = (b.get h).or (m h) := by
  refine Option.ext fun e => ?_
  rw [overlay_eq_some_iff b.values_nodup, Option.or_eq_some_iff]
  have hmem : e ∈ b.values ∧ e.strongHash = h ↔ b.get h = some e := by
    rw [Buffer.mem_values]
    constructor
    · rintro ⟨he, rfl⟩
      exact he
    · intro he
      have := Buffer.strongHash_of_get he
      exact ⟨this ▸ he, this⟩
  have hkeys : h ∉ b.values.map (·.strongHash) ↔ b.get h = none := by
    rw [not_iff_comm, ← ne_eq, Option.ne_none_iff_exists', List.mem_map]
    constructor
    · rintro ⟨a, ha⟩
      have hah := Buffer.strongHash_of_get ha
      exact ⟨a, Buffer.mem_values.2 (hah ▸ ha), hah⟩
    · rintro ⟨a, ha, rfl⟩
      exact ⟨a, Buffer.mem_values.1 ha⟩
  rw [hmem, hkeys]

namespace HashIndex

/-- The finite map below the buffer. -/
def base (x : HashIndex) : Hash → Option IndexEntry :=
  match x.htab with
  | none => fileMap x.file
  | some t => t.lookup

/-- The finite map an index stands for. -/
def content (x : HashIndex) : Hash → Option IndexEntry := overlay x.base x.entries.values

/-- The invariant of an index. -/
structure Good (x : HashIndex) : Prop where
  indexFile : IndexFile x.file
  htab_good : ∀ t, x.htab = some t → t.Good
  mode : x.htab.isSome = !x.noHtab
  buffer_ne : ∀ e ∈ x.entries.values, e.strongHash ≠ .zero
  clean : x.dirty = false → x.entries = ∅ ∧ x.base = fileMap x.file
  covers : ∀ h, (fileMap x.file h).isSome → (x.content h).isSome

/-- With a hash table, lookups read the finite map. -/
lemma lookup_eq_content (h : x.htab.isSome) : x.lookup = x.content := by
  funext k
  obtain ⟨t, ht⟩ := Option.isSome_iff_exists.1 h
  rw [content, overlay_values, lookup]
  cases x.entries.get k <;> simp [base, ht]

lemma values_empty : Buffer.values ∅ = [] := rfl

lemma content_of_entries_empty (h : x.entries = ∅) : x.content = x.base := by
  rw [content, h, values_empty, overlay_nil]

/-! ## Inserting -/

lemma content_insert (x : HashIndex) (id : ChunkID) (p : UInt32) (o : UInt64) (l : UInt32) :
    (x.insert id p o l).content =
      Function.update x.content id.strongHash (some ⟨id.strongHash, p, o, l⟩) := by
  funext h
  have hget := congrFun (Buffer.get_insert x.entries ⟨id.strongHash, p, o, l⟩) h
  rw [Function.update_apply] at hget
  rw [content, overlay_values, Function.update_apply, insert, hget, content, overlay_values]
  split <;> rfl

/-- Inserting keeps the invariant. -/
lemma Good.insert {x : HashIndex} (hx : x.Good) {id : ChunkID} (hid : id.strongHash ≠ .zero)
    (p : UInt32) (o : UInt64) (l : UInt32) : (x.insert id p o l).Good where
  indexFile := hx.indexFile
  htab_good := hx.htab_good
  mode := hx.mode
  buffer_ne e he := by
    have hget := (Buffer.mem_values.1 he).symm.trans
      (congrFun (Buffer.get_insert x.entries ⟨id.strongHash, p, o, l⟩) e.strongHash)
    rw [Function.update_apply] at hget
    split_ifs at hget with heq
    · rwa [heq]
    · exact hx.buffer_ne e (Buffer.mem_values.2 hget.symm)
  clean h := by cases h
  covers h hh := by
    rw [content_insert, Function.update_apply]
    split
    · rfl
    · exact hx.covers h hh

/-! ## Flushing the buffer into the table -/

/-- Inserting a list of entries with growth. -/
lemma foldlM_insertGrowing_ok {t : DiskHashTable} {es : List IndexEntry} (ht : t.Good)
    (hes : ∀ e ∈ es, e.strongHash ≠ .zero) :
    ∃ t', es.foldlM DiskHashTable.insertGrowing t = some t' ∧ t'.Good ∧
      t'.lookup = overlay t.lookup es := by
  induction es generalizing t with
  | nil => exact ⟨t, rfl, ht, rfl⟩
  | cons e es ih =>
    obtain ⟨t1, h1, hgood1, hl1⟩ := DiskHashTable.insertGrowing_ok ht (hes e (.head _))
    obtain ⟨t', h', hgood', hl'⟩ := ih hgood1 fun a ha => hes a (.tail _ ha)
    refine ⟨t', ?_, hgood', by rw [hl', hl1, overlay_cons]⟩
    rw [List.foldlM_cons, h1]
    exact h'

/-- **`FlushDelta`** succeeds with a hash table and keeps the content. -/
theorem flushDelta_ok (hx : x.Good) (hmode : x.noHtab = false) :
    ∃ x', x.flushDelta = .ok x' ∧ x'.Good ∧ x'.content = x.content ∧ x'.noHtab = x.noHtab ∧
      x'.file = x.file := by
  unfold flushDelta
  by_cases hempty : x.entries.entries.isEmpty
  · exact ⟨x, by simp [hempty], hx, rfl, rfl, rfl⟩
  have hsome : x.htab.isSome := by rw [hx.mode, hmode]; rfl
  obtain ⟨t, ht⟩ := Option.isSome_iff_exists.1 hsome
  obtain ⟨t', h', hgood', hl'⟩ := foldlM_insertGrowing_ok (hx.htab_good t ht) hx.buffer_ne
  have hbase : ({ x with htab := some t', entries := ∅ } : HashIndex).content = x.content := by
    rw [content_of_entries_empty rfl, content]
    simp only [base, ht]
    exact hl'
  refine ⟨{ x with htab := some t', entries := ∅ }, ?_, ?_, hbase, rfl, rfl⟩
  · simp only [hempty, ht, h', Bool.false_eq_true, if_false]
  · refine ⟨hx.indexFile, ?_, by simp [hmode], by simp [values_empty], fun hd => ?_, ?_⟩
    · rintro _ ⟨⟩
      exact hgood'
    · -- a buffer that is not empty was inserted into since the last flush
      exact absurd (by simp [(hx.clean hd).1]) hempty
    · rw [hbase]
      exact hx.covers

/-- A `FlushDelta` that returns, with or without a hash table. -/
lemma flushDelta_inv (hx : x.Good) (h : x.flushDelta = .ok x') :
    x'.Good ∧ x'.file = x.file ∧ x'.content = x.content := by
  cases hno : x.noHtab with
  | false =>
    obtain ⟨y, hy, hgood, hcontent, -, hfile⟩ := flushDelta_ok hx hno
    rw [h] at hy
    cases hy
    exact ⟨hgood, hfile, hcontent⟩
  | true =>
    -- without a hash table only an empty buffer can be flushed
    have hnone : x.htab = none := by
      have := hx.mode
      rw [hno] at this
      exact Option.isNone_iff_eq_none.1 (by simpa using this)
    unfold flushDelta at h
    rw [hnone] at h
    split at h
    · cases h
      exact ⟨hx, rfl, rfl⟩
    · cases h

/-! ## Flushing to the file -/

lemma decodeEntries_flushed (x : HashIndex) :
    decodeEntries (encodeEntries (sortEntries x.collect)) = sortEntries x.collect :=
  decodeEntries_encodeEntries _

/-- The entries below the buffer. -/
lemma base_eq_some_iff (hx : x.Good) :
    x.base h = some e ↔
      e ∈ (match x.htab with | none => decodeEntries x.file | some t => t.readAll) ∧
        e.strongHash = h := by
  unfold base
  cases ht : x.htab with
  | none => exact fileMap_eq_some_iff hx.indexFile
  | some t =>
    rw [DiskHashTable.lookup_eq_some_iff (hx.htab_good t ht), DiskHashTable.mem_readAll, and_comm]

/-- The entries below the buffer have distinct, nonzero hashes. -/
lemma base_entries (hx : x.Good) :
    let all := match x.htab with | none => decodeEntries x.file | some t => t.readAll
    (∀ e ∈ all, e.strongHash ≠ .zero) ∧ (all.map (·.strongHash)).Nodup := by
  cases ht : x.htab with
  | none => exact ⟨hx.indexFile.ne_zero, hx.indexFile.nodup⟩
  | some t =>
    exact ⟨fun e he => (DiskHashTable.mem_readAll.1 he).1,
      DiskHashTable.readAll_nodup (hx.htab_good t ht)⟩

/-- The entries a flush writes have distinct, nonzero hashes. -/
lemma collect_wf (hx : x.Good) :
    (∀ e ∈ x.collect, e.strongHash ≠ .zero) ∧ (x.collect.map (·.strongHash)).Nodup := by
  obtain ⟨hne, hnodup⟩ := base_entries hx
  constructor
  · intro e he
    rcases List.mem_append.1 he with he | he
    · exact hne e (List.mem_filter.1 he).1
    · exact hx.buffer_ne e he
  · rw [collect, List.map_append]
    refine List.Nodup.append (hnodup.sublist (List.filter_sublist.map _)) x.entries.values_nodup ?_
    -- what is kept from below is not in the buffer
    intro h h1 h2
    obtain ⟨e, he, rfl⟩ := List.mem_map.1 h1
    obtain ⟨a, ha, hae⟩ := List.mem_map.1 h2
    have hnone := (List.mem_filter.1 he).2
    rw [← hae, Buffer.mem_values.1 ha] at hnone
    cases hnone

/-- The entries a flush writes are the index's content. -/
lemma mem_collect_iff (hx : x.Good) :
    e ∈ x.collect ∧ e.strongHash = h ↔ x.content h = some e := by
  rw [content, overlay_values, Option.or_eq_some_iff, base_eq_some_iff hx, collect,
    List.mem_append, List.mem_filter, Buffer.mem_values]
  constructor
  · rintro ⟨⟨he, hnone⟩ | he, rfl⟩
    · exact .inr ⟨Option.isNone_iff_eq_none.1 hnone, he, rfl⟩
    · exact .inl he
  · rintro (he | ⟨hnone, he, rfl⟩)
    · obtain rfl := Buffer.strongHash_of_get he
      exact ⟨.inr he, rfl⟩
    · exact ⟨.inl ⟨he, by rw [hnone]; rfl⟩, rfl⟩

/-- The file a flush writes. -/
lemma flushed_file {x : HashIndex} (hx : x.Good) :
    IndexFile (encodeEntries (sortEntries x.collect)) ∧
      fileMap (encodeEntries (sortEntries x.collect)) = x.content := by
  obtain ⟨hne, hnodup⟩ := collect_wf hx
  have hperm : (sortEntries x.collect).Perm x.collect := List.mergeSort_perm _ _
  have hfile : IndexFile (encodeEntries (sortEntries x.collect)) := by
    refine ⟨?_, ?_⟩ <;> rw [decodeEntries_flushed]
    · exact fun e he => hne e (hperm.mem_iff.1 he)
    · exact (hperm.map _).nodup_iff.2 hnodup
  refine ⟨hfile, ?_⟩
  funext h
  refine Option.ext fun e => ?_
  rw [fileMap_eq_some_iff hfile, decodeEntries_flushed, hperm.mem_iff, mem_collect_iff hx]

/-- An index with nothing to flush has its content in the file. -/
lemma Good.fileMap_of_isClean (hx : x.Good) (h : x.isClean) :
    fileMap x.file = x.content := by
  have hd : x.dirty = false := by
    unfold isClean at h
    simp only [Bool.and_eq_true, Bool.not_eq_true'] at h
    exact h.1
  obtain ⟨hempty, hbase⟩ := hx.clean hd
  rw [content_of_entries_empty hempty, hbase]

end HashIndex

/-- A hash table built from a well-formed index file. -/
lemma buildHashTable_indexFile {file : Bytes} (hf : IndexFile file) :
    ∃ t, buildHashTable (decodeEntries file) = some t ∧ t.Good ∧ t.lookup = fileMap file :=
  lookup_buildHashTable hf.ne_zero hf.nodup

/-- An index without buffered entries over a well-formed file. -/
lemma HashIndex.good_of_file {file : Bytes} (hf : IndexFile file) {noHtab : Bool}
    {htab : Option DiskHashTable} (hmode : htab.isSome = !noHtab)
    (hht : ∀ t, htab = some t → t.Good ∧ t.lookup = fileMap file) :
    (⟨file, ∅, false, noHtab, htab⟩ : HashIndex).Good ∧
      (⟨file, ∅, false, noHtab, htab⟩ : HashIndex).content = fileMap file := by
  have hbase : (⟨file, ∅, false, noHtab, htab⟩ : HashIndex).base = fileMap file := by
    cases htab with
    | none => rfl
    | some t => exact (hht t rfl).2
  have hcontent : (⟨file, ∅, false, noHtab, htab⟩ : HashIndex).content = fileMap file := by
    rw [content_of_entries_empty rfl, hbase]
  exact ⟨⟨hf, fun t ht => (hht t ht).1, hmode, by simp [values_empty], fun _ => ⟨rfl, hbase⟩,
    fun h hh => by rwa [hcontent]⟩, hcontent⟩

/-- **`Flush`** succeeds, keeps the content and puts it into the file. -/
theorem HashIndex.flush_ok (hx : x.Good) :
    ∃ x', x.flush = .ok x' ∧ x'.Good ∧ x'.content = x.content ∧ fileMap x'.file = x.content ∧
      x'.noHtab = x.noHtab := by
  unfold HashIndex.flush
  by_cases hclean : x.isClean
  · exact ⟨x, by simp [hclean], hx, rfl, hx.fileMap_of_isClean hclean, rfl⟩
  · obtain ⟨hfile, hmap⟩ := flushed_file hx
    rw [if_neg hclean]
    cases hno : x.noHtab with
    | true =>
      obtain ⟨hgood, hcontent⟩ := @good_of_file _ hfile true none rfl (by simp)
      exact ⟨_, rfl, hgood, hcontent.trans hmap, hmap, rfl⟩
    | false =>
      obtain ⟨t, ht, htgood, htl⟩ := buildHashTable_indexFile hfile
      obtain ⟨hgood, hcontent⟩ := @good_of_file _ hfile false (some t) rfl (by
        rintro _ ⟨⟩
        exact ⟨htgood, htl⟩)
      exact ⟨_, by simp only [ht, Bool.false_eq_true, if_false], hgood, hcontent.trans hmap, hmap,
        rfl⟩

/-! ## Opening -/

/-- The build of the hash table touches working files only. -/
lemma buildOps_untouched (hf : ¬ f.Working) (es : List IndexEntry) :
    Untouched f (buildOps es) := by
  have hbucket : ∀ k, FileName.bucket k ≠ f := fun k => not_working_ne hf (.bucket k) trivial
  have htable : Untouched f (tableOps es) := by
    unfold tableOps
    split <;> simp [not_working_ne hf .htab trivial]
  simp [buildOps, hbucket, htable]

lemma lookup_removeDeltas (hf : ¬ f.Working) (fuel i : ℕ) (d : RepoDir) :
    (removeDeltas fuel i d).lookup f = d.lookup f := by
  induction fuel generalizing i d with
  | zero => rfl
  | succ fuel ih =>
    unfold removeDeltas
    split
    · rfl
    · rw [ih, AList.lookup_erase_ne (not_working_ne hf (.hashIndexDelta i) trivial).symm]

/-- What `NewHashIndex` leaves in the directory. -/
lemma lookup_newHashIndex (hf : ¬ f.Working) (d : RepoDir) (skip : Bool) :
    (newHashIndex d skip).2.lookup f =
      (d.insert .hashIndex ((d.lookup .hashIndex).getD [])).lookup f := by
  have herase : ∀ (g : FileName) (d : RepoDir), g.Working → (d.erase g).lookup f = d.lookup f :=
    fun g d hg => AList.lookup_erase_ne (not_working_ne hf g hg).symm
  have hstale : ∀ d : RepoDir, (staleFiles.foldl (fun d f => d.erase f) d).lookup f =
      d.lookup f := by
    intro d
    simp only [staleFiles, List.foldl_cons, List.foldl_nil]
    rw [herase .htabTmp _ trivial, herase .sessionTmp _ trivial, herase .session _ trivial,
      herase .hashIndexTmp _ trivial]
  unfold newHashIndex
  cases skip with
  | true =>
    simp only [if_true]
    rw [herase .htab _ trivial, lookup_removeDeltas hf, hstale]
  | false =>
    simp only [Bool.false_eq_true, if_false]
    split <;>
      rw [lookup_runOps (buildOps_untouched hf _), herase .htab _ trivial,
        lookup_removeDeltas hf, hstale]

/-- **`NewHashIndex`** over a well-formed file succeeds and holds what the file holds. -/
theorem newHashIndex_ok (hf : IndexFile ((d.lookup .hashIndex).getD [])) (skip : Bool) :
    ∃ x, (newHashIndex d skip).1 = .ok x ∧ x.Good ∧
      x.content = fileMap ((d.lookup .hashIndex).getD []) ∧ x.noHtab = skip ∧
      x.file = (d.lookup .hashIndex).getD [] := by
  unfold newHashIndex
  cases skip with
  | true =>
    obtain ⟨hgood, hcontent⟩ := @HashIndex.good_of_file _ hf true none rfl (by simp)
    exact ⟨_, rfl, hgood, hcontent, rfl, rfl⟩
  | false =>
    obtain ⟨t, ht, htgood, htl⟩ := buildHashTable_indexFile hf
    obtain ⟨hgood, hcontent⟩ := @HashIndex.good_of_file _ hf false (some t) rfl (by
      rintro _ ⟨⟩
      exact ⟨htgood, htl⟩)
    exact ⟨_, by simp only [ht, Bool.false_eq_true, if_false], hgood, hcontent, rfl, rfl⟩

/-! ## What a flush does to the files -/

namespace HashIndex

lemma not_working_hashIndex : ¬ FileName.hashIndex.Working := fun h => h

lemma tmp_ne_hashIndex : FileName.hashIndexTmp ≠ FileName.hashIndex := by decide

/-- Behind the replacement a flush touches working files only. -/
lemma flushOps_rest_untouched (hf : ¬ f.Working) (x : HashIndex) (es : List IndexEntry) :
    Untouched f (if x.htab.isSome then
        FileOp.remove .htab :: (if x.noHtab then [] else buildOps es)
      else if x.noHtab then [] else buildOps es) := by
  split_ifs <;> simp [not_working_ne hf .htab trivial, buildOps_untouched hf es]

/-- A flush touches the index file and working files only. -/
lemma flushOps_untouched (hf : ¬ f.Working) (hne : FileName.hashIndex ≠ f) (x : HashIndex) :
    Untouched f x.flushOps := by
  unfold flushOps
  split
  · exact untouched_nil
  · exact (untouched_replaceOps (not_working_ne hf .hashIndexTmp trivial) hne _).append
      (flushOps_rest_untouched hf x _)

/-- The close after a flush touches working files only. -/
lemma closeOps_untouched (hf : ¬ f.Working) (x : HashIndex) :
    Untouched f x.closeOps := by
  unfold closeOps
  split <;> simp [not_working_ne hf .htab trivial]

/-- What a flush can return. -/
lemma flush_inv (h : x.flush = .ok x') :
    (x.isClean ∧ x' = x) ∨ (¬ x.isClean ∧ ∃ t,
      x' = ⟨encodeEntries (sortEntries x.collect), ∅, false, x.noHtab, t⟩) := by
  unfold flush at h
  by_cases hclean : x.isClean
  · rw [if_pos hclean] at h
    cases h
    exact .inl ⟨hclean, rfl⟩
  · rw [if_neg hclean] at h
    refine .inr ⟨hclean, ?_⟩
    cases hno : x.noHtab with
    | true =>
      simp only [hno, if_true] at h
      cases h
      exact ⟨_, rfl⟩
    | false =>
      simp only [hno, Bool.false_eq_true, if_false] at h
      split at h
      · cases h
      · cases h
        exact ⟨_, rfl⟩

/-- After a flush there is nothing to flush. -/
lemma isClean_of_flush (h : x.flush = .ok x') : x'.isClean := by
  rcases flush_inv h with ⟨hclean, rfl⟩ | ⟨-, t, rfl⟩
  · exact hclean
  · rfl

/-- The index file after a flush that completed. -/
lemma lookup_runOps_flushOps (h : x.flush = .ok x') (hd : d.lookup .hashIndex = some x.file) :
    (runOps d x.flushOps).lookup .hashIndex = some x'.file := by
  unfold flushOps
  rcases flush_inv h with ⟨hclean, rfl⟩ | ⟨hclean, t, rfl⟩
  · rw [if_pos hclean]
    exact hd
  · rw [if_neg hclean, runOps_append,
      lookup_runOps (flushOps_rest_untouched not_working_hashIndex x _),
      lookup_runOps_replaceOps]

/-- **Wherever a flush is cut**, the index file is well formed and holds what it held. -/
theorem lookup_crashAt_flushOps (hx : x.Good) (hd : d.lookup .hashIndex = some x.file) (k n : ℕ) :
    ∃ file, (crashAt d x.flushOps k n).lookup .hashIndex = some file ∧ IndexFile file ∧
      ∀ h, (fileMap x.file h).isSome → (fileMap file h).isSome := by
  obtain ⟨hnew, hmap⟩ := flushed_file hx
  have hcovers : ∀ h, (fileMap x.file h).isSome →
      (fileMap (encodeEntries (sortEntries x.collect)) h).isSome := by
    rw [hmap]
    exact hx.covers
  unfold flushOps
  split
  · exact ⟨x.file, by simp [crashAt, hd], hx.indexFile, fun h hh => hh⟩
  · rw [crashAt_append]
    split
    · rcases lookup_crashAt_replaceOps tmp_ne_hashIndex d
        (encodeEntries (sortEntries x.collect)) k n
        with h | h
      · exact ⟨x.file, by rw [h, hd], hx.indexFile, fun h hh => hh⟩
      · exact ⟨_, h, hnew, hcovers⟩
    · refine ⟨_, ?_, hnew, hcovers⟩
      rw [lookup_crashAt (flushOps_rest_untouched not_working_hashIndex x _),
        lookup_runOps_replaceOps]

/-! ### A session that is given up -/

lemma insertOps_untouched {g : FileName} (h : g ≠ f) (t : DiskHashTable) (e : IndexEntry) :
    Untouched f (insertOps g t e) := by
  unfold insertOps
  split
  · exact untouched_nil
  · split
    · simp [h]
    · split <;> simp [h]
    · exact untouched_nil

lemma insertAllOps_untouched {g : FileName} (h : g ≠ f) (t : DiskHashTable) (es : List IndexEntry) :
    Untouched f (insertAllOps g t es) := by
  induction es generalizing t with
  | nil => exact untouched_nil
  | cons e es ih =>
    refine (insertOps_untouched h t e).append ?_
    cases t.insert e with
    | none => exact untouched_nil
    | some t' => exact ih t'

lemma growOps_untouched (h : FileName.htab ≠ f) (h' : FileName.htabTmp ≠ f) (t : DiskHashTable) :
    Untouched f (growOps t) := by
  refine Untouched.append (.append ?_ (insertAllOps_untouched h' _ _)) ?_
  · simp [h']
  · cases t.grow <;> simp [h, h']

lemma insertGrowingOps_untouched (h : FileName.htab ≠ f) (h' : FileName.htabTmp ≠ f)
    (t : DiskHashTable) (e : IndexEntry) :
    Untouched f (insertGrowingOps t e) := by
  unfold insertGrowingOps
  split
  · exact insertOps_untouched h t e
  · refine (growOps_untouched h h' t).append ?_
    split
    · exact untouched_nil
    · exact insertOps_untouched h _ e

lemma insertAllGrowingOps_untouched (h : FileName.htab ≠ f) (h' : FileName.htabTmp ≠ f)
    (t : DiskHashTable) (es : List IndexEntry) :
    Untouched f (insertAllGrowingOps t es) := by
  induction es generalizing t with
  | nil => exact untouched_nil
  | cons e es ih =>
    refine (insertGrowingOps_untouched h h' t e).append ?_
    cases t.insertGrowing e with
    | none => exact untouched_nil
    | some t' => exact ih t'

/-- `FlushDelta` writes the hash table and nothing else. -/
lemma flushDeltaOps_untouched (hf : ¬ f.Working) (x : HashIndex) :
    Untouched f x.flushDeltaOps := by
  unfold flushDeltaOps
  split
  · exact untouched_nil
  · split
    · exact untouched_nil
    · exact insertAllGrowingOps_untouched (not_working_ne hf .htab trivial)
        (not_working_ne hf .htabTmp trivial) _ _

lemma closeDiscardOps_untouched (hf : ¬ f.Working) (x : HashIndex) :
    Untouched f x.closeDiscardOps := by
  unfold closeDiscardOps
  split <;> simp [not_working_ne hf .htab trivial]

end HashIndex

end DiskNexus.Index
