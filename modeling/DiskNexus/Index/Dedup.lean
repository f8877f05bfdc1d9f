import DiskNexus.Index.Bloom
import DiskNexus.Index.Delta
import DiskNexus.Index.HashIndex
import DiskNexus.Store.Frame

/-!
# The dedup index

`index.DedupIndex` puts the bloom filter before the hash index. An open also takes over the delta
objects other runs have published and nobody has folded into the index yet.

## Main results

`pendingDeltas_congr`, `Openable.update`
-/

namespace DiskNexus.Index

open Binary Sha256 Files Store

/-- The armed journal of a run's delta: every entry captured so far, and those still buffered. -/
structure DeltaCapture where
  path : String
  payload : Bytes
  buffered : Bytes
  count : ℕ

/-- `index.DedupIndex`. -/
structure DedupIndex where
  bloom : BloomFilter
  index : HashIndex
  key : Option Cipher
  bloomMissing : Bool
  delta : Option DeltaCapture

/-! ## Opening -/

/-- `crypto.DecryptFile` of a file that may be missing. -/
def decryptFile (k : Cipher) (src dst : FileName) (what : String) (d : RepoDir) :
    Except String Unit × RepoDir :=
  match d.lookup src with
  | none => (.ok (), d)
  | some data =>
    match k.decryptWithAAD data with
    | none => (.error s!"decrypting {what}", d)
    | some plain => (.ok (), d.insert dst plain)

/-- The refusal to open an encrypted index without a key. -/
def encryptedWithoutKey (name : String) : String :=
  (s!"index is encrypted ({name} is present) and was opened without a key — reading the " ++
    "repository's index needs the repo key (store.IndexKeyFor); opening it anyway would present " ++
    "an EMPTY index and any backup written against it would forget every chunk the repository " ++
    "already holds")

/-- `refuseEncryptedWithoutKey`. -/
def refuseEncryptedWithoutKey (d : RepoDir) : Except String Unit :=
  if (d.lookup .hashIndexEnc).isSome then .error (encryptedWithoutKey "hash-index.db.enc")
  else if (d.lookup .bloomEnc).isSome then .error (encryptedWithoutKey "bloom.bin.enc")
  else .ok ()

/-- The plaintext working copies of an encrypted index. -/
def workingCopies (key : Option Cipher) (d : RepoDir) : Except String Unit × RepoDir :=
  match key with
  | none => (refuseEncryptedWithoutKey d, d)
  | some k =>
    match decryptFile k .bloomEnc .bloom "bloom filter" d with
    | (.error e, d) => (.error e, d)
    | (.ok (), d) => decryptFile k .hashIndexEnc .hashIndex "hash index" d

/-- Load the bloom filter, or make a new one; the flag tells that the file was missing. -/
def openBloom (key : Option Cipher) (nbits : UInt64) (d : RepoDir) :
    Except String (BloomFilter × Bool) × RepoDir :=
  match d.lookup .bloom with
  | none => (.ok (newBloomFilter nbits, true), d)
  | some data =>
    match loadBloomFilter data with
    | .error e => (.error s!"loading bloom filter: {e}", d)
    | .ok bf => (.ok (bf, false), if key.isSome then d.erase .bloom else d)

/-- The file name of a delta object. -/
def deltaObjectName (o : String × Bool) : String :=
  o.1 ++ if o.2 then ".delta.enc" else ".delta"

/-- `deltaObjectNames`: the pending delta objects, by name. -/
def deltaObjectNames (d : RepoDir) : List (String × Bool) :=
  let names := d.keys.filterMap fun
    | .delta stem encrypted => some (stem, encrypted)
    | _ => none
  names.mergeSort fun a b => deltaObjectName a ≤ deltaObjectName b

/-- `readDeltaObject`. -/
def readDeltaObject (key : Option Cipher) (d : RepoDir) (o : String × Bool) :
    Except String Bytes :=
  let blob := (d.lookup (.delta o.1 o.2)).getD []
  let name := deltaObjectName o
  if o.2 then
    match key with
    | none => .error
        (s!"index delta {name} is encrypted and this index was opened without a key — " ++
        "merging the repository's index needs the repo key (store.IndexKeyFor)")
    | some k =>
      match k.decryptWithAAD blob with
      | none => .error s!"decrypting index delta {name}"
      | some plain => .ok plain
  else .ok blob

/-- The entries of one pending delta object. -/
def deltaEntries (key : Option Cipher) (d : RepoDir) (o : String × Bool) :
    Except String (List DeltaEntry) :=
  match readDeltaObject key d o with
  | .error e => .error e
  | .ok blob =>
    match parseDelta blob with
    | .error e =>
      let name := deltaObjectName o
      .error s!"index delta {name}: {e}"
    | .ok es => .ok es

/-- The entries of delta objects, up to the first that does not read. -/
def collectDeltas (key : Option Cipher) (d : RepoDir) :
    List (String × Bool) → Except String (List DeltaEntry)
  | [] => .ok []
  | o :: os =>
    match deltaEntries key d o with
    | .error e => .error e
    | .ok es =>
      match collectDeltas key d os with
      | .error e => .error e
      | .ok rest => .ok (es ++ rest)

/-- The entries of all pending delta objects, in merge order. -/
def pendingDeltas (key : Option Cipher) (d : RepoDir) : Except String (List DeltaEntry) :=
  collectDeltas key d (deltaObjectNames d)

namespace DedupIndex

/-- `insertNoCapture`. -/
def insertNoCapture (x : DedupIndex) (id : ChunkID) (packNumber : UInt32) (storeOffset : UInt64)
    (chunkLength : UInt32) : DedupIndex :=
  { x with
    bloom := x.bloom.add id.weakHash
    index := x.index.insert id packNumber storeOffset chunkLength }

/-- `Delta.ApplyTo`. -/
def applyDelta (x : DedupIndex) (es : List DeltaEntry) : DedupIndex :=
  es.foldl (fun x e => x.insertNoCapture ⟨e.weakHash, e.strongHash⟩ e.packNumber e.storeOffset
    e.chunkLength) x

end DedupIndex

/-- `NewDedupIndex`, and `NewDedupIndexReadOnly` where `readOnly` is set. -/
def newDedupIndex (key : Option Cipher) (nbits : UInt64) (readOnly : Bool) (d : RepoDir) :
    Except String DedupIndex × RepoDir :=
  match workingCopies key d with
  | (.error e, d) => (.error e, d)
  | (.ok (), d) =>
    match openBloom key nbits d with
    | (.error e, d) => (.error e, d)
    | (.ok (bloom, missing), d) =>
      match newHashIndex d readOnly with
      | (.error e, d) => (.error s!"opening hash index: {e}", d)
      | (.ok index, d) =>
        let x : DedupIndex := ⟨bloom, index, key, missing && !readOnly, none⟩
        match pendingDeltas key d with
        | .error e => (.error e, d.erase .htab)
        | .ok es =>
          -- a bloom filter built from the deltas alone is complete
          let complete := !es.isEmpty && index.file.isEmpty
          (.ok { x.applyDelta es with bloomMissing := x.bloomMissing && !complete }, d)

namespace DedupIndex

/-! ## Lookups and inserts -/

/-- `Check`: the entry of a stored chunk, `none` for a new one. -/
def check (x : DedupIndex) (id : ChunkID) : Option IndexEntry :=
  if x.bloom.mayContain id.weakHash then x.index.lookup id.strongHash else none

/-- `LookupDirect`. -/
def lookupDirect (x : DedupIndex) (h : Hash) : Option IndexEntry := x.index.lookup h

/-- The size of the journal's write buffer. -/
def journalBuffer : ℕ := 2 ^ 16

/-- The journal of a path. -/
def journal (path : String) : FileName := .other path

/-- Append an entry to the journal's buffer, which may spill. -/
def DeltaCapture.append (c : DeltaCapture) (e : DeltaEntry) :
    DeltaCapture × List (FileOp FileName) :=
  let buffered := c.buffered ++ encodeDeltaEntry e
  let c := { c with payload := c.payload ++ encodeDeltaEntry e, count := c.count + 1 }
  if buffered.length ≤ journalBuffer then ({ c with buffered := buffered }, [])
  else ({ c with buffered := buffered.drop journalBuffer },
    [.append (journal c.path) (buffered.take journalBuffer)])

/-- `captureInsert`, with the file operations of a spill. -/
def captureInsert (x : DedupIndex) (e : DeltaEntry) : DedupIndex × List (FileOp FileName) :=
  match x.delta with
  | none => (x, [])
  | some c => ({ x with delta := some (DeltaCapture.append c e).1 }, (DeltaCapture.append c e).2)

/-- `Insert`. -/
def insert (x : DedupIndex) (id : ChunkID) (packNumber : UInt32) (storeOffset : UInt64)
    (chunkLength : UInt32) : DedupIndex × List (FileOp FileName) :=
  (x.insertNoCapture id packNumber storeOffset chunkLength).captureInsert
    ⟨id.strongHash, id.weakHash, packNumber, storeOffset, chunkLength⟩

/-- `CaptureDelta`: arm the journal, with a placeholder header. -/
def captureDelta (x : DedupIndex) (path : String) :
    Except String (DedupIndex × List (FileOp FileName)) :=
  match x.delta with
  | some c =>
    let armed := c.path
    .error s!"delta capture already armed at {armed}"
  | none => .ok ({ x with delta := some ⟨path, [], [], 0⟩ },
      [.create (journal path), .append (journal path) (List.replicate deltaHeaderSize 0)])

/-! ## Flush and Close -/

/-- `FlushHashIndex`. -/
def flushHashIndex (x : DedupIndex) : Except String DedupIndex :=
  match x.index.flushDelta with
  | .error e => .error e
  | .ok index => .ok { x with index := index }

lemma flushHashIndex_inv {x x' : DedupIndex} (h : x.flushHashIndex = .ok x') :
    ∃ index, x.index.flushDelta = .ok index ∧ x' = { x with index := index } := by
  unfold flushHashIndex at h
  split at h
  · cases h
  · rename_i index hflush
    exact ⟨index, hflush, (Except.ok.inj h).symm⟩

/-- `Flush`, as it changes the index in memory. -/
def flush (x : DedupIndex) : Except String DedupIndex :=
  match x.index.flush with
  | .error e => .error s!"flushing hash index: {e}"
  | .ok index => .ok { x with
      index := index
      delta := x.delta.map fun c => { c with buffered := [] } }

/-- `crypto.EncryptFile`. -/
def encryptFileOps (k : Cipher) (nonce data : Bytes) (dst : FileName) : List (FileOp FileName) :=
  replaceOps .atomicTmp dst (k.encryptWithAAD nonce data)

/-- `WriteDeltaObject`: the buffered entries, then the header. -/
def writeDeltaObjectOps (key : Option Cipher) (nonce : Bytes) (delta : Option DeltaCapture) :
    List (FileOp FileName) :=
  match delta with
  | none => []
  | some c =>
    let header := deltaHeader c.count (sum256 c.payload)
    [.append (journal c.path) c.buffered, .patch (journal c.path) 0 header] ++
      match key with
      | none => []
      | some k =>
        if c.count = 0 then []
        else encryptFileOps k nonce (header ++ c.payload) (journal (c.path ++ ".enc"))

/-- The file operations of `Flush`, with the nonces drawn. -/
def flushOps (x : DedupIndex) (nonces : ℕ → Bytes) : List (FileOp FileName) :=
  x.bloom.saveOps ++ (x.index.flushOps ++
    match x.index.flush with
    | .error _ => []
    | .ok index =>
      (match x.key with
        | none => []
        | some k => encryptFileOps k (nonces 0) x.bloom.bytes .bloomEnc ++ [.remove .bloom] ++
            encryptFileOps k (nonces 1) index.file .hashIndexEnc) ++
        writeDeltaObjectOps x.key (nonces 2) x.delta)

/-- `closeDelta(false)`: stamp the header again, and remove a journal that is empty or encrypted. -/
def closeDeltaOps (x : DedupIndex) (nonce : Bytes) : List (FileOp FileName) :=
  match x.delta with
  | none => []
  | some c =>
    writeDeltaObjectOps x.key nonce (some { c with buffered := [] }) ++
      if c.count = 0 ∨ x.key.isSome then [.remove (journal c.path)] else []

/-- `closeDelta(true)`. -/
def discardDeltaOps (x : DedupIndex) : List (FileOp FileName) :=
  match x.delta with
  | none => []
  | some c => [.remove (journal c.path), .remove (journal (c.path ++ ".enc"))]

/-- The file operations of `CloseDiscard`. -/
def closeDiscardOps (x : DedupIndex) : List (FileOp FileName) :=
  x.discardDeltaOps ++ x.index.closeDiscardOps ++
    if x.key.isSome then [.remove .bloom, .remove .hashIndex] else []

/-- The file operations of `Close`. -/
def closeOps (x : DedupIndex) (nonces : ℕ → Bytes) : List (FileOp FileName) :=
  x.flushOps nonces ++
    match x.index.flush with
    | .error _ => x.discardDeltaOps
    | .ok index => x.closeDeltaOps (nonces 3) ++ index.flushOps ++ index.closeOps ++
        if x.key.isSome then [.remove .hashIndex] else []

end DedupIndex

/-- `HashIndex.Count`. -/
def indexCount (x : HashIndex) : ℕ :=
  match x.htab with
  | none => x.entries.entries.length
  | some t => t.count + (x.entries.keys.filter fun h => (t.lookup h).isNone).length

/-- `BloomSuspect`. -/
def bloomSuspect (x : DedupIndex) : Bool := x.bloomMissing && 0 < indexCount x.index

/-! ## Pending deltas -/

variable {d d' : RepoDir} {key : Option Cipher} {readOnly : Bool}
  {x : DedupIndex}

/-- The pending objects are the files of the `deltas/` directory. -/
lemma mem_deltaObjectNames {o : String × Bool} :
    o ∈ deltaObjectNames d ↔ (d.lookup (.delta o.1 o.2)).isSome := by
  rw [deltaObjectNames, (List.mergeSort_perm _ _).mem_iff, List.mem_filterMap,
    AList.lookup_isSome, AList.mem_keys]
  constructor
  · rintro ⟨f, hf, hfo⟩
    split at hfo
    · cases hfo
      exact hf
    · cases hfo
  · intro ho
    exact ⟨_, ho, rfl⟩

/-- Two objects have two names. -/
lemma deltaObjectName_injective : Function.Injective deltaObjectName := by
  have hends : ∀ s t : String, s ++ ".delta" ≠ t ++ ".delta.enc" := by
    intro s t h
    have hlast := congrArg (fun u => u.toList.getLast?) h
    simp [String.toList_append] at hlast
  rintro ⟨s, a⟩ ⟨t, b⟩ h
  cases a <;> cases b
  · simpa [deltaObjectName] using h
  · exact absurd h (hends s t)
  · exact absurd h.symm (hends t s)
  · simpa [deltaObjectName] using h

lemma nodup_deltaObjectNames (d : RepoDir) : (deltaObjectNames d).Nodup := by
  refine (List.mergeSort_perm _ _).nodup_iff.2 (d.keys_nodup.filterMap fun f g o hf hg => ?_)
  split at hf
  · split at hg
    · cases hf
      cases hg
      rfl
    · cases hg
  · cases hf

lemma pairwise_deltaObjectNames (d : RepoDir) :
    (deltaObjectNames d).Pairwise fun a b => deltaObjectName a ≤ deltaObjectName b := by
  refine (List.pairwise_mergeSort (fun a b c hab hbc => ?_) (fun a b => ?_) _).imp fun h => ?_
  · exact decide_eq_true (String.le_trans (of_decide_eq_true hab) (of_decide_eq_true hbc))
  · simpa using String.le_total (deltaObjectName a) (deltaObjectName b)
  · exact of_decide_eq_true h

/-- The names depend on which objects there are only. -/
lemma deltaObjectNames_congr
    (h : ∀ stem enc, d'.lookup (.delta stem enc) = d.lookup (.delta stem enc)) :
    deltaObjectNames d' = deltaObjectNames d := by
  refine List.Perm.eq_of_pairwise (fun a b _ _ hab hba => ?_) (pairwise_deltaObjectNames d')
    (pairwise_deltaObjectNames d) ?_
  · exact deltaObjectName_injective (String.le_antisymm hab hba)
  · refine (List.perm_ext_iff_of_nodup (nodup_deltaObjectNames d') (nodup_deltaObjectNames d)).2
      fun o => ?_
    rw [mem_deltaObjectNames, mem_deltaObjectNames, h]

/-- What an object holds depends on its own file only. -/
lemma deltaEntries_congr {o : String × Bool}
    (h : d'.lookup (.delta o.1 o.2) = d.lookup (.delta o.1 o.2)) (key : Option Cipher) :
    deltaEntries key d' o = deltaEntries key d o := by
  simp only [deltaEntries, readDeltaObject, h]

/-- If every object reads, so do all of them together. -/
lemma collectDeltas_ok {key : Option Cipher} {d : RepoDir} {os : List (String × Bool)}
    (h : ∀ o ∈ os, ∃ es, deltaEntries key d o = .ok es) :
    ∃ es, collectDeltas key d os = .ok es ∧
      ∀ e, e ∈ es ↔ ∃ o ∈ os, ∃ es', deltaEntries key d o = .ok es' ∧ e ∈ es' := by
  induction os with
  | nil => exact ⟨[], rfl, by simp⟩
  | cons o os ih =>
    obtain ⟨es, hes⟩ := h o (.head _)
    obtain ⟨rest, hrest, hmem⟩ := ih fun o' ho' => h o' (.tail _ ho')
    refine ⟨es ++ rest, by simp only [collectDeltas, hes, hrest], fun e => ?_⟩
    rw [List.mem_append, hmem]
    constructor
    · rintro (he | ⟨o', ho', h'⟩)
      · exact ⟨o, List.mem_cons_self, es, hes, he⟩
      · exact ⟨o', .tail _ ho', h'⟩
    · rintro ⟨o', ho', es', hes', he⟩
      rcases List.mem_cons.1 ho' with rfl | ho'
      · rw [hes] at hes'
        cases hes'
        exact .inl he
      · exact .inr ⟨o', ho', es', hes', he⟩

/-- The pending entries depend on the objects only. -/
lemma pendingDeltas_congr (h : ∀ stem enc, d'.lookup (.delta stem enc) = d.lookup (.delta stem enc))
    (key : Option Cipher) : pendingDeltas key d' = pendingDeltas key d := by
  rw [pendingDeltas, pendingDeltas, deltaObjectNames_congr h]
  induction deltaObjectNames d with
  | nil => rfl
  | cons o os ih => rw [collectDeltas, collectDeltas, deltaEntries_congr (h _ _), ih]

/-- Nothing is pending without delta objects. -/
lemma pendingDeltas_nil (h : ∀ stem enc, d.lookup (.delta stem enc) = none) (key : Option Cipher) :
    pendingDeltas key d = .ok [] := by
  have hnames : deltaObjectNames d = [] := by
    refine List.eq_nil_iff_forall_not_mem.2 fun o ho => ?_
    rw [mem_deltaObjectNames, h] at ho
    cases ho
  rw [pendingDeltas, hnames]
  rfl

/-- If all objects together read, so does every one of them. -/
lemma deltaEntries_of_collectDeltas {os : List (String × Bool)} {es : List DeltaEntry}
    (h : collectDeltas key d os = .ok es) :
    ∀ o ∈ os, ∃ es', deltaEntries key d o = .ok es' := by
  induction os generalizing es with
  | nil => simp
  | cons o os ih =>
    unfold collectDeltas at h
    cases ho : deltaEntries key d o with
    | error e => rw [ho] at h; cases h
    | ok es' =>
      simp only [ho] at h
      cases hos : collectDeltas key d os with
      | error e => rw [hos] at h; cases h
      | ok rest =>
        intro o' ho'
        rcases List.mem_cons.1 ho' with rfl | ho'
        · exact ⟨es', ho⟩
        · exact ih hos o' ho'

/-- A pending delta object and an entry of it. -/
def PendingEntry (d : RepoDir) (e : DeltaEntry) : Prop :=
  ∃ o es, (d.lookup (.delta o.1 o.2)).isSome ∧ deltaEntries none d o = .ok es ∧ e ∈ es

/-- Directories with the same delta objects have the same pending entries. -/
lemma PendingEntry.congr {e : DeltaEntry}
    (h : ∀ stem enc, d'.lookup (.delta stem enc) = d.lookup (.delta stem enc))
    (he : PendingEntry d e) : PendingEntry d' e := by
  obtain ⟨o, es, ho, hes, he⟩ := he
  exact ⟨o, es, by rwa [h], by rwa [deltaEntries_congr (h _ _)], he⟩

namespace DedupIndex

@[simp] lemma insertNoCapture_index (x : DedupIndex) (id : ChunkID) (p : UInt32) (o : UInt64)
    (l : UInt32) : (x.insertNoCapture id p o l).index = x.index.insert id p o l := rfl

@[simp] lemma insertNoCapture_key (x : DedupIndex) (id : ChunkID) (p : UInt32) (o : UInt64)
    (l : UInt32) : (x.insertNoCapture id p o l).key = x.key := by
  cases x
  rfl

@[simp] lemma insertNoCapture_delta (x : DedupIndex) (id : ChunkID) (p : UInt32) (o : UInt64)
    (l : UInt32) : (x.insertNoCapture id p o l).delta = x.delta := by
  cases x
  rfl

lemma captureInsert_index (x : DedupIndex) (e : DeltaEntry) :
    (x.captureInsert e).1.index = x.index ∧ (x.captureInsert e).1.key = x.key := by
  unfold captureInsert
  split <;> exact ⟨rfl, rfl⟩

lemma insert_index (x : DedupIndex) (id : ChunkID) (p : UInt32) (o : UInt64) (l : UInt32) :
    (x.insert id p o l).1.index = x.index.insert id p o l ∧
      (x.insert id p o l).1.key = x.key := by
  obtain ⟨h1, h2⟩ := captureInsert_index (x.insertNoCapture id p o l)
    ⟨id.strongHash, id.weakHash, p, o, l⟩
  exact ⟨h1.trans (insertNoCapture_index x id p o l), h2.trans (insertNoCapture_key x id p o l)⟩

/-- An insert adds its hash. -/
lemma isSome_content_insert (x : HashIndex) (id : ChunkID) (p : UInt32) (o : UInt64) (l : UInt32)
    (h : Hash) : ((x.insert id p o l).content h).isSome ↔
      (x.content h).isSome ∨ id.strongHash = h := by
  rw [HashIndex.content_insert, Function.update_apply]
  by_cases heq : h = id.strongHash
  · simp [heq]
  · simp [heq, Ne.symm heq]

end DedupIndex

/-! ## Opening without a key -/

/-- What a keyless open needs of a directory: nothing encrypted, and files that read. -/
structure Openable (d : RepoDir) : Prop where
  hashIndexEnc : d.lookup .hashIndexEnc = none
  bloomEnc : d.lookup .bloomEnc = none
  bloom : ∀ data, d.lookup .bloom = some data → ∃ bf, loadBloomFilter data = .ok bf
  indexFile : IndexFile ((d.lookup .hashIndex).getD [])
  deltas : ∀ o : String × Bool, (d.lookup (.delta o.1 o.2)).isSome →
    ∃ es, deltaEntries none d o = .ok es
  deltas_ne_zero : ∀ e, PendingEntry d e → e.strongHash ≠ .zero

/-- The hashes that the files of a directory resolve. -/
def Resolvable (d : RepoDir) (h : Hash) : Prop :=
  (fileMap ((d.lookup .hashIndex).getD []) h).isSome ∨ ∃ e, PendingEntry d e ∧ e.strongHash = h

lemma refuse_ok :
    refuseEncryptedWithoutKey d = .ok () ↔
      d.lookup .hashIndexEnc = none ∧ d.lookup .bloomEnc = none := by
  unfold refuseEncryptedWithoutKey
  cases d.lookup .hashIndexEnc <;> cases d.lookup .bloomEnc <;> simp

/-- The delta objects after the hash index has been opened. -/
lemma lookup_delta_newHashIndex (d : RepoDir) (readOnly : Bool) (stem : String) (enc : Bool) :
    (newHashIndex d readOnly).2.lookup (.delta stem enc) = d.lookup (.delta stem enc) := by
  rw [lookup_newHashIndex (by exact fun h => h), AList.lookup_insert_ne (by simp)]

/-- What may change of a directory that can be opened. -/
lemma Openable.update (hd : Openable d)
    (hsame : ∀ f, f.Persistent → f ≠ .bloom → f ≠ .hashIndex → d'.lookup f = d.lookup f)
    (hbloom : ∀ data, d'.lookup .bloom = some data → ∃ bf, loadBloomFilter data = .ok bf)
    (hfile : IndexFile ((d'.lookup .hashIndex).getD [])) :
    Openable d' ∧ ∀ e, PendingEntry d' e ↔ PendingEntry d e := by
  have hdelta : ∀ stem enc, d'.lookup (.delta stem enc) = d.lookup (.delta stem enc) :=
    fun stem enc => hsame _ trivial (by simp) (by simp)
  have hpending : ∀ e, PendingEntry d' e ↔ PendingEntry d e :=
    fun e => ⟨fun h => h.congr fun stem enc => (hdelta stem enc).symm, fun h => h.congr hdelta⟩
  refine ⟨⟨?_, ?_, hbloom, hfile, fun o ho => ?_, fun e he => ?_⟩, hpending⟩
  · rw [hsame .hashIndexEnc trivial (by simp) (by simp), hd.hashIndexEnc]
  · rw [hsame .bloomEnc trivial (by simp) (by simp), hd.bloomEnc]
  · rw [deltaEntries_congr (hdelta _ _)]
    exact hd.deltas o (by rwa [hdelta] at ho)
  · exact hd.deltas_ne_zero e ((hpending e).1 he)

/-! ## A directory with an index file only -/

/-- An index directory that holds an index file and nothing else. -/
def indexDir (es : List IndexEntry) : RepoDir := (∅ : RepoDir).insert .hashIndex (encodeEntries es)

lemma lookup_indexDir (es : List IndexEntry) :
    (indexDir es).lookup .hashIndex = some (encodeEntries es) := by
  rw [indexDir, AList.lookup_insert]

lemma lookup_indexDir_ne (es : List IndexEntry) {f : FileName} (hf : f ≠ .hashIndex) :
    (indexDir es).lookup f = none := by
  rw [indexDir, AList.lookup_insert_ne hf, AList.lookup_empty]

/-- There are no pending deltas. -/
lemma not_pendingEntry_indexDir (es : List IndexEntry) (e : DeltaEntry) :
    ¬ PendingEntry (indexDir es) e := by
  rintro ⟨o, es', ho, -⟩
  cases ho

lemma indexDir_openable {es : List IndexEntry} (hne : ∀ e ∈ es, e.strongHash ≠ .zero)
    (hnodup : (es.map (·.strongHash)).Nodup) : Openable (indexDir es) := by
  refine ⟨lookup_indexDir_ne es (by simp), lookup_indexDir_ne es (by simp), ?_, ?_, ?_, ?_⟩
  · intro data hdata
    cases hdata
  · rw [lookup_indexDir, Option.getD_some]
    refine ⟨?_, ?_⟩ <;> rw [decodeEntries_encodeEntries]
    exacts [hne, hnodup]
  · intro o ho
    cases ho
  · exact fun e he => absurd he (not_pendingEntry_indexDir es e)

/-- It resolves the hashes of its entries. -/
lemma resolvable_indexDir (es : List IndexEntry) (h : Hash) :
    Resolvable (indexDir es) h ↔ h ∈ es.map (·.strongHash) := by
  unfold Resolvable
  rw [lookup_indexDir, Option.getD_some, fileMap, decodeEntries_encodeEntries, isSome_overlay]
  simp [not_pendingEntry_indexDir]

end DiskNexus.Index
