import DiskNexus.Index.Sessions
import DiskNexus.Index.Closing
import DiskNexus.Prune.Resolve

/-!
# A delta describes its session

A backup arms a journal when it has merged the pending deltas. Every insert is appended to the
journal's buffer, and `WriteDeltaObject` writes the buffer out and stamps the header. An open of the
old files with this delta gives what the session holds, but for hashes in a delta of another run
whose name comes later.

## Main results

`capture_describes`, `capture_shadowed`
-/

namespace DiskNexus.Index

open Binary Sha256 Files Store
open DedupIndex (journal)
open Prune (opened openedFile latestOf)

/-! ## The code -/

/-- `WriteDeltaObject`, as it changes the index in memory. -/
def DedupIndex.writeDeltaObject (x : DedupIndex) : DedupIndex :=
  { x with delta := x.delta.map fun c => { c with buffered := [] } }

/-- The calls that stamp the header of the journal. -/
inductive Stamps (x : DedupIndex) (d : RepoDir) : DedupIndex → RepoDir → Prop
  | write (nonce : Bytes) : Stamps x d x.writeDeltaObject
      (runOps d (DedupIndex.writeDeltaObjectOps x.key nonce x.delta))
  | flush {x' : DedupIndex} (nonces : ℕ → Bytes) (h : x.flush = .ok x') :
      Stamps x d x' (runOps d (x.flushOps nonces))

/-- The sessions on the files `d₀` whose journal was armed behind the open, with their inserts. -/
inductive Armed (key : Option Cipher) (nbits : UInt64) (d₀ : RepoDir) (path : String) :
    DedupIndex → RepoDir → List DeltaEntry → Prop
  | armed {x x' : DedupIndex} {d : RepoDir} {ops : List (FileOp FileName)}
      (h : newDedupIndex key nbits false d₀ = (.ok x, d))
      (harm : x.captureDelta path = .ok (x', ops)) :
      Armed key nbits d₀ path x' (runOps d ops) []
  | insert {x : DedupIndex} {d : RepoDir} {es : List DeltaEntry}
      (hx : Armed key nbits d₀ path x d es) (e : DeltaEntry) (hne : e.strongHash ≠ .zero) :
      Armed key nbits d₀ path
        (x.insert ⟨e.weakHash, e.strongHash⟩ e.packNumber e.storeOffset e.chunkLength).1
        (runOps d (x.insert ⟨e.weakHash, e.strongHash⟩ e.packNumber e.storeOffset e.chunkLength).2)
        (es ++ [e])
  | flushHashIndex {x x' : DedupIndex} {d : RepoDir} {es : List DeltaEntry}
      (hx : Armed key nbits d₀ path x d es) (h : x.flushHashIndex = .ok x') :
      Armed key nbits d₀ path x' (runOps d x.index.flushDeltaOps) es
  | stamp {x x' : DedupIndex} {d d' : RepoDir} {es : List DeltaEntry}
      (hx : Armed key nbits d₀ path x d es) (h : Stamps x d x' d') :
      Armed key nbits d₀ path x' d' es

/-- The delta objects that are merged before `o`. -/
def earlierNames (d : RepoDir) (o : String × Bool) : List (String × Bool) :=
  (deltaObjectNames d).filter fun p => !decide (deltaObjectName o ≤ deltaObjectName p)

/-- The delta objects that are merged after `o`. -/
def laterNames (d : RepoDir) (o : String × Bool) : List (String × Bool) :=
  (deltaObjectNames d).filter fun p => decide (deltaObjectName o ≤ deltaObjectName p)

/-- The file of a delta object: the journal, or its encryption. -/
def objectPath (path : String) (encrypted : Bool) : String :=
  if encrypted then path ++ ".enc" else path

/-! ## The journal -/

/-- The journal of a session that has inserted `es`: a header, what has been written, and the
buffer. -/
structure Journaled (path : String) (delta : Option DeltaCapture) (d : RepoDir)
    (es : List DeltaEntry) : Prop where
  capture : ∃ c, delta = some c ∧ c.path = path ∧ c.count = es.length ∧
    c.payload = es.flatMap encodeDeltaEntry ∧ ∃ header written,
      d.lookup (journal path) = some (header ++ written) ∧ header.length = deltaHeaderSize ∧
      written ++ c.buffered = c.payload

section Journal

variable {path : String} {delta : Option DeltaCapture} {d d' : RepoDir} {es : List DeltaEntry}
  {x : DedupIndex}

lemma Journaled.congr (h : Journaled path delta d es)
    (hsame : d'.lookup (journal path) = d.lookup (journal path)) : Journaled path delta d' es := by
  obtain ⟨c, hc, hpath, hcount, hpayload, header, written, hfile, hrest⟩ := h.capture
  exact ⟨c, hc, hpath, hcount, hpayload, header, written, by rwa [hsame], hrest⟩

/-- **An insert** is appended to the buffer, which may spill. -/
lemma Journaled.insert (h : Journaled path x.delta d es) (e : DeltaEntry) :
    Journaled path (x.captureInsert e).1.delta (runOps d (x.captureInsert e).2) (es ++ [e]) := by
  obtain ⟨c, hc, rfl, hcount, hpayload, header, written, hfile, hlen, hwritten⟩ := h.capture
  have hpayload' : c.payload ++ encodeDeltaEntry e = (es ++ [e]).flatMap encodeDeltaEntry := by
    rw [hpayload, List.flatMap_append, List.flatMap_singleton]
  have hcount' : c.count + 1 = (es ++ [e]).length := by rw [hcount, List.length_append]; rfl
  unfold DedupIndex.captureInsert
  simp only [hc, DedupIndex.DeltaCapture.append]
  split
  · refine ⟨_, rfl, rfl, hcount', hpayload', header, written, hfile, hlen, ?_⟩
    rw [← List.append_assoc, hwritten]
  · refine ⟨_, rfl, rfl, hcount', hpayload', header,
      written ++ (c.buffered ++ encodeDeltaEntry e).take DedupIndex.journalBuffer, ?_, hlen, ?_⟩
    · rw [← List.append_assoc]
      exact lookup_appendTo hfile _
    · rw [List.append_assoc, List.take_append_drop, ← List.append_assoc, hwritten]

/-- The journal of another path is another file. -/
lemma other_enc_ne (path : String) : FileName.other (path ++ ".enc") ≠ .other path := by
  intro h
  have hlen := congrArg String.length (FileName.other.inj h)
  simp at hlen

/-- **The stamped journal** is the delta of the entries. -/
lemma Journaled.stamped (h : Journaled path delta d es) (key : Option Cipher) (nonce : Bytes) :
    (runOps d (DedupIndex.writeDeltaObjectOps key nonce delta)).lookup (journal path) =
        some (marshalDelta es) ∧
      (∀ k, key = some k → es ≠ [] →
        (runOps d (DedupIndex.writeDeltaObjectOps key nonce delta)).lookup
          (journal (path ++ ".enc")) = some (k.encryptWithAAD nonce (marshalDelta es))) ∧
      Journaled path (delta.map fun c => { c with buffered := [] })
        (runOps d (DedupIndex.writeDeltaObjectOps key nonce delta)) es := by
  obtain ⟨c, rfl, rfl, hcount, hpayload, header, written, hfile, hlen, hwritten⟩ := h.capture
  have hobject : deltaHeader c.count (sum256 c.payload) ++ c.payload = marshalDelta es := by
    rw [marshalDelta, hcount, hpayload]
  set stamp : List (FileOp FileName) := [.append (journal c.path) c.buffered,
    .patch (journal c.path) 0 (deltaHeader c.count (sum256 c.payload))] with hstamp
  have hplain : (runOps d stamp).lookup (journal c.path) = some (marshalDelta es) := by
    have happend := lookup_appendTo hfile c.buffered
    rw [List.append_assoc, hwritten] at happend
    refine (lookup_patchIn happend 0 _).trans ?_
    rw [List.take_zero, List.nil_append, Nat.zero_add, length_deltaHeader, List.drop_left' hlen,
      hobject]
  have hfinal : (runOps d (DedupIndex.writeDeltaObjectOps key nonce (some c))).lookup
      (journal c.path) = some (marshalDelta es) := by
    unfold DedupIndex.writeDeltaObjectOps
    rw [runOps_append, lookup_runOps, hplain]
    cases key with
    | none => exact untouched_nil
    | some k =>
      simp only
      split
      · exact untouched_nil
      · exact encryptFileOps_untouched (by simp) (other_enc_ne _) _ _ _
  refine ⟨hfinal, ?_, _, rfl, rfl, hcount, hpayload, deltaHeader c.count (sum256 c.payload),
    c.payload, ?_, length_deltaHeader _ _, List.append_nil _⟩
  · rintro k rfl hne
    have hpos : c.count ≠ 0 := by rw [hcount]; exact fun h => hne (List.length_eq_zero_iff.1 h)
    unfold DedupIndex.writeDeltaObjectOps
    simp only [if_neg hpos]
    rw [runOps_append, ← hobject]
    exact lookup_runOps_replaceOps _ _ _ _
  · rw [hfinal, hobject]

end Journal

/-! ## Sessions -/

/-- The invariant of a session that has inserted `es`: what its open saw with them over it. -/
structure Captured (key : Option Cipher) (nbits : UInt64) (d₀ : RepoDir) (path : String)
    (x : DedupIndex) (d : RepoDir) (es : List DeltaEntry) : Prop where
  keyed : x.key = key
  good : x.index.Good
  mode : x.index.noHtab = false
  ne_zero : ∀ e ∈ es, e.strongHash ≠ .zero
  seen : ∃ file es₀, opened key d₀ = some (file, es₀) ∧
    x.index.content = overlay (openedMap file es₀) (es.map DeltaEntry.indexEntry) ∧
    x.bloom = (es.map DeltaEntry.weakHash).foldl BloomFilter.add
      (filterWith nbits (openedBloom key d₀) es₀)
  journaled : Journaled path x.delta d es

section Session

variable {key : Option Cipher} {nbits : UInt64} {d₀ d d' : RepoDir} {path : String}
  {x x' : DedupIndex} {es : List DeltaEntry}

lemma not_working_other (path : String) : ¬ (FileName.other path).Working := fun h => h

/-- A flush up to its delta object leaves the journals alone. -/
lemma flushOps_split {index : HashIndex} (h : x.index.flush = .ok index) (nonces : ℕ → Bytes) :
    ∃ ops, x.flushOps nonces =
        ops ++ DedupIndex.writeDeltaObjectOps x.key (nonces 2) x.delta ∧
      ∀ path, Untouched (FileName.other path) ops := by
  have hfiles : ∀ path, Untouched (FileName.other path) (x.bloom.saveOps ++ x.index.flushOps) :=
    fun path => (saveOps_untouched (by simp) _).append
      (HashIndex.flushOps_untouched (not_working_other path) (by simp) _)
  cases hkey : x.key with
  | none => exact ⟨_, by simp [DedupIndex.flushOps, h, hkey], hfiles⟩
  | some k =>
    refine ⟨x.bloom.saveOps ++ x.index.flushOps ++
      (DedupIndex.encryptFileOps k (nonces 0) x.bloom.bytes .bloomEnc ++ ([.remove .bloom] ++
        DedupIndex.encryptFileOps k (nonces 1) index.file .hashIndexEnc)),
      by simp [DedupIndex.flushOps, h, hkey], fun path => (hfiles path).append ?_⟩
    exact (encryptFileOps_untouched (by simp) (by simp) _ _ _).append
      (.append (by simp) (encryptFileOps_untouched (by simp) (by simp) _ _ _))

/-- **A stamp** keeps the invariant, and makes the journal the delta of the inserts. -/
lemma Captured.stamp (h : Captured key nbits d₀ path x d es) (hstamp : Stamps x d x' d') :
    Captured key nbits d₀ path x' d' es ∧
      d'.lookup (journal path) = some (marshalDelta es) ∧
      ∀ k, key = some k → es ≠ [] → ∃ nonce,
        d'.lookup (journal (path ++ ".enc")) = some (k.encryptWithAAD nonce (marshalDelta es)) := by
  cases hstamp with
  | write nonce =>
    obtain ⟨hplain, henc, hjournal⟩ := h.journaled.stamped x.key nonce
    rw [h.keyed] at henc
    exact ⟨⟨h.keyed, h.good, h.mode, h.ne_zero, h.seen, hjournal⟩, hplain,
      fun k hk hne => ⟨nonce, by rw [h.keyed]; exact henc k hk hne⟩⟩
  | flush nonces hflush =>
    obtain ⟨index, hindex, hgood, hcontent, -, hmode⟩ := HashIndex.flush_ok h.good
    obtain ⟨ops, hops, huntouched⟩ := flushOps_split hindex nonces
    have hsame := lookup_runOps (huntouched path) d
    obtain ⟨hplain, henc, hjournal⟩ := (h.journaled.congr hsame).stamped x.key (nonces 2)
    rw [h.keyed] at henc
    rw [← runOps_append, ← hops] at hplain hjournal
    simp only [DedupIndex.flush, hindex, Except.ok.injEq] at hflush
    subst hflush
    obtain ⟨file, es0, hopened, hmap, hbloom⟩ := h.seen
    refine ⟨⟨h.keyed, hgood, hmode.trans h.mode, h.ne_zero,
      ⟨file, es0, hopened, hcontent.trans hmap, hbloom⟩, hjournal⟩, hplain,
      fun k hk hne => ⟨nonces 2, ?_⟩⟩
    rw [hops, runOps_append, h.keyed]
    exact henc k hk hne

/-- Every armed session is in the invariant. -/
lemma Armed.captured (hwf : ∀ file es0, opened key d₀ = some (file, es0) → WellFormed file es0)
    (h : Armed key nbits d₀ path x d es) : Captured key nbits d₀ path x d es := by
  induction h with
  | @armed x x' d ops h harm =>
    obtain ⟨file, es0, hopened, -, hx⟩ := newDedupIndex_sees h hwf
    unfold DedupIndex.captureDelta at harm
    rw [hx.delta] at harm
    cases harm
    refine ⟨hx.key, hx.good, hx.mode, by simp, ⟨file, es0, hopened, hx.content, hx.bloom⟩,
      _, rfl, rfl, rfl, rfl, List.replicate deltaHeaderSize 0, [], ?_, by simp, rfl⟩
    simp [FileOp.act, appendTo]
  | @insert x d es _ e hne ih =>
    obtain ⟨file, es0, hopened, hmap, hbloom⟩ := ih.seen
    obtain ⟨hindex, hkey⟩ :=
      x.insert_index ⟨e.weakHash, e.strongHash⟩ e.packNumber e.storeOffset e.chunkLength
    refine ⟨hkey.trans ih.keyed, ?_, ?_, ?_, ⟨file, es0, hopened, ?_, ?_⟩, ?_⟩
    · rw [hindex]
      exact ih.good.insert hne _ _ _
    · rw [hindex]
      exact ih.mode
    · intro e' he'
      rcases List.mem_append.1 he' with he' | he'
      · exact ih.ne_zero e' he'
      · rw [List.mem_singleton.1 he']
        exact hne
    · rw [hindex, HashIndex.content_insert, hmap, List.map_append, overlay_append]
      rfl
    · rw [DedupIndex.insert_bloom, hbloom, List.map_append, List.foldl_append]
      rfl
    · have hdelta : (x.insertNoCapture ⟨e.weakHash, e.strongHash⟩ e.packNumber e.storeOffset
          e.chunkLength).delta = x.delta := DedupIndex.insertNoCapture_delta _ _ _ _ _
      exact Journaled.insert (by rw [hdelta]; exact ih.journaled) e
  | @flushHashIndex x x' d es _ h ih =>
    obtain ⟨index, hflush, rfl⟩ := DedupIndex.flushHashIndex_inv h
    obtain ⟨file, es0, hopened, hmap, hbloom⟩ := ih.seen
    obtain ⟨index', hok, hgood, hcontent, hmode, -⟩ := HashIndex.flushDelta_ok ih.good ih.mode
    rw [hflush] at hok
    cases hok
    refine ⟨ih.keyed, hgood, hmode.trans ih.mode, ih.ne_zero,
      ⟨file, es0, hopened, hcontent.trans hmap, hbloom⟩,
      ih.journaled.congr ?_⟩
    exact lookup_runOps (HashIndex.flushDeltaOps_untouched (not_working_other path) _) d
  | stamp _ h ih => exact (ih.stamp h).1

end Session

/-! ## The merge with the delta -/

section Merge

variable {key : Option Cipher} {nbits : UInt64} {d₀ d d' : RepoDir} {path : String}
  {x x' : DedupIndex} {es : List DeltaEntry}

/-- **One more delta object** is merged in its place. -/
lemma deltaObjectNames_insert {o : String × Bool} (h : d.lookup (.delta o.1 o.2) = none)
    (data : Bytes) :
    deltaObjectNames d = earlierNames d o ++ laterNames d o ∧
      deltaObjectNames (d.insert (.delta o.1 o.2) data) =
        earlierNames d o ++ o :: laterNames d o := by
  have hsub1 : (earlierNames d o).Sublist (deltaObjectNames d) := List.filter_sublist
  have hsub2 : (laterNames d o).Sublist (deltaObjectNames d) := List.filter_sublist
  have hbefore : ∀ p ∈ earlierNames d o, deltaObjectName p ≤ deltaObjectName o := by
    intro p hp
    have := (List.mem_filter.1 hp).2
    simp only [Bool.not_eq_true', decide_eq_false_iff_not] at this
    exact (String.le_total _ _).resolve_right this
  have hafter : ∀ p ∈ laterNames d o, deltaObjectName o ≤ deltaObjectName p := by
    intro p hp
    simpa using (List.mem_filter.1 hp).2
  have hperm : (earlierNames d o ++ laterNames d o).Perm (deltaObjectNames d) :=
    List.perm_append_comm.trans (List.filter_append_perm _ _)
  have hnew : o ∉ deltaObjectNames d := by
    rw [mem_deltaObjectNames, h]
    simp
  have hanti : ∀ a b : String × Bool, deltaObjectName a ≤ deltaObjectName b →
      deltaObjectName b ≤ deltaObjectName a → a = b :=
    fun a b hab hba => deltaObjectName_injective (String.le_antisymm hab hba)
  have hsorted := pairwise_deltaObjectNames d
  refine ⟨List.Perm.eq_of_pairwise (fun a b _ _ => hanti a b) hsorted ?_ hperm.symm,
    List.Perm.eq_of_pairwise (fun a b _ _ => hanti a b) (pairwise_deltaObjectNames _) ?_ ?_⟩
  · refine List.pairwise_append.2 ⟨hsorted.sublist hsub1, hsorted.sublist hsub2,
      fun a ha b hb => ?_⟩
    exact String.le_trans (hbefore a ha) (hafter b hb)
  · refine List.pairwise_append.2 ⟨hsorted.sublist hsub1,
      List.pairwise_cons.2 ⟨hafter, hsorted.sublist hsub2⟩, fun a ha b hb => ?_⟩
    rcases List.mem_cons.1 hb with rfl | hb
    · exact hbefore a ha
    · exact String.le_trans (hbefore a ha) (hafter b hb)
  · have hmiddle : (earlierNames d o ++ o :: laterNames d o).Perm (o :: deltaObjectNames d) :=
      List.perm_middle.trans (hperm.cons o)
    refine List.Perm.trans ?_ hmiddle.symm
    refine (List.perm_ext_iff_of_nodup (nodup_deltaObjectNames _)
      (List.nodup_cons.2 ⟨hnew, nodup_deltaObjectNames d⟩)).2 fun p => ?_
    rw [mem_deltaObjectNames, List.mem_cons, mem_deltaObjectNames]
    by_cases hp : p = o
    · subst hp
      simp
    · have hne : FileName.delta p.1 p.2 ≠ .delta o.1 o.2 := by
        intro heq
        obtain ⟨h1, h2⟩ := FileName.delta.inj heq
        exact hp (Prod.ext h1 h2)
      rw [AList.lookup_insert_ne hne]
      simp [hp]

/-- Delta objects one after the other. -/
lemma collectDeltas_append {os1 os2 : List (String × Bool)} {es : List DeltaEntry} :
    collectDeltas key d (os1 ++ os2) = .ok es ↔
      ∃ es1 es2, collectDeltas key d os1 = .ok es1 ∧ collectDeltas key d os2 = .ok es2 ∧
        es = es1 ++ es2 := by
  induction os1 generalizing es with
  | nil => simp [collectDeltas]
  | cons o os1 ih =>
    simp only [List.cons_append, collectDeltas]
    cases ho : deltaEntries key d o with
    | error e => simp
    | ok eo =>
      constructor
      · intro h
        cases hrest : collectDeltas key d (os1 ++ os2) with
        | error e => rw [hrest] at h; cases h
        | ok rest =>
          rw [hrest] at h
          cases h
          obtain ⟨es1, es2, h1, h2, rfl⟩ := ih.1 hrest
          exact ⟨eo ++ es1, es2, by simp [h1], h2, (List.append_assoc _ _ _).symm⟩
      · rintro ⟨es1, es2, h1, h2, rfl⟩
        cases hone : collectDeltas key d os1 with
        | error e => rw [hone] at h1; cases h1
        | ok rest =>
          rw [hone] at h1
          cases h1
          simp [ih.2 ⟨rest, es2, hone, h2, rfl⟩]

lemma collectDeltas_congr {os : List (String × Bool)}
    (h : ∀ o ∈ os, d'.lookup (.delta o.1 o.2) = d.lookup (.delta o.1 o.2)) :
    collectDeltas key d' os = collectDeltas key d os := by
  induction os with
  | nil => rfl
  | cons o os ih =>
    rw [collectDeltas, collectDeltas, deltaEntries_congr (h o (.head _)),
      ih fun p hp => h p (.tail _ hp)]

/-- Entries over a map: the last one of a hash, or what the map holds. -/
lemma overlay_eq_or (m : Hash → Option IndexEntry) (es : List DeltaEntry) (h : Hash) :
    overlay m (es.map DeltaEntry.indexEntry) h = (latestOf es h).or (m h) := by
  rw [latestOf, overlay_eq_getLast, overlay_eq_getLast (fun _ => none), Option.or_none]

/-- **The merge with the delta of a session** gives its filter and what it looks up, except where a
delta that is merged later holds the hash. -/
lemma Captured.reopen (h : Captured key nbits d₀ path x d es)
    (hwf : ∀ file es0, opened key d₀ = some (file, es0) → WellFormed file es0)
    {o : String × Bool} (hfresh : d₀.lookup (.delta o.1 o.2) = none) {data : Bytes}
    (hread : deltaEntries key (d₀.insert (.delta o.1 o.2) data) o = .ok es) :
    ∃ later y d', collectDeltas key d₀ (laterNames d₀ o) = .ok later ∧
      newDedupIndex key nbits false (d₀.insert (.delta o.1 o.2) data) = (.ok y, d') ∧
      y.bloom = x.bloom ∧ ∀ k, y.lookupDirect k = (latestOf later k).or (x.lookupDirect k) := by
  obtain ⟨file, es0, hopened, hmap, hbloom⟩ := h.seen
  obtain ⟨hfile, hes0⟩ := opened_eq_some.1 hopened
  obtain ⟨hnames, hnames'⟩ := deltaObjectNames_insert hfresh data
  set d1 := d₀.insert (.delta o.1 o.2) data with hd1
  have hrest : ∀ f : FileName, f ≠ .delta o.1 o.2 → d1.lookup f = d₀.lookup f :=
    fun f hf => AList.lookup_insert_ne hf
  rw [pendingDeltas, hnames] at hes0
  obtain ⟨earlier, later, hearlier, hlater, rfl⟩ := collectDeltas_append.1 hes0
  have hothers : ∀ os : List (String × Bool), os.Sublist (deltaObjectNames d₀) →
      collectDeltas key d1 os = collectDeltas key d₀ os := by
    intro os hos
    refine collectDeltas_congr fun p hp => hrest _ fun heq => ?_
    have hmem := mem_deltaObjectNames.1 (hos.subset hp)
    rw [heq, hfresh] at hmem
    cases hmem
  have hpending : pendingDeltas key d1 = .ok (earlier ++ (es ++ later)) := by
    rw [pendingDeltas, hnames']
    refine collectDeltas_append.2 ⟨earlier, es ++ later, ?_, ?_, rfl⟩
    · rw [hothers (earlierNames d₀ o) List.filter_sublist, hearlier]
    · simp only [collectDeltas, hread, hothers (laterNames d₀ o) List.filter_sublist, hlater]
  have hopened1 : opened key d1 = some (file, earlier ++ (es ++ later)) := by
    refine opened_eq_some.2 ⟨?_, hpending⟩
    rw [← hfile]
    unfold openedFile Prune.workingCopy
    simp only [hrest _ (show FileName.bloom ≠ _ by simp),
      hrest _ (show FileName.bloomEnc ≠ _ by simp), hrest _ (show FileName.hashIndex ≠ _ by simp),
      hrest _ (show FileName.hashIndexEnc ≠ _ by simp)]
  have hwf0 := hwf _ _ hopened
  have hwf1 : WellFormed file (earlier ++ (es ++ later)) := by
    refine ⟨hwf0.file, fun e he => ?_⟩
    simp only [List.mem_append] at he
    rcases he with he | he | he
    · exact hwf0.deltas e (List.mem_append_left _ he)
    · exact h.ne_zero e he
    · exact hwf0.deltas e (List.mem_append_right _ he)
  obtain ⟨y, d', hopen, -, hy⟩ := newDedupIndex_succeeds nbits false hopened1 hwf1
  refine ⟨later, y, d', hlater, hopen, ?_, fun k => ?_⟩
  · have hseen : openedBloom key d1 = openedBloom key d₀ := by
      unfold openedBloom Prune.workingCopy
      simp only [hrest _ (show FileName.bloom ≠ _ by simp),
        hrest _ (show FileName.bloomEnc ≠ _ by simp)]
    rw [hy.bloom, hbloom, hseen, filterWith, filterWith, ← List.foldl_append, ← List.map_append]
    refine BloomFilter.foldl_add_perm _ (List.Perm.map _ ?_)
    rw [List.append_assoc]
    exact List.perm_append_comm.append_left earlier
  · have hsome : y.index.htab.isSome := by rw [hy.good.mode, hy.mode]; rfl
    have hsome' : x.index.htab.isSome := by rw [h.good.mode, h.mode]; rfl
    rw [DedupIndex.lookupDirect, DedupIndex.lookupDirect, HashIndex.lookup_eq_content hsome,
      HashIndex.lookup_eq_content hsome', hy.content, hmap, openedMap, openedMap]
    simp only [List.map_append, overlay_append, overlay_eq_or]
    cases latestOf later k <;> simp

/-- A delta object in the directory of an index. -/
lemma deltaEntries_marshalDelta (hsmall : es.length * deltaEntrySize < 2 ^ 64) {o : String × Bool}
    {data : Bytes} (hplain : o.2 = false → data = marshalDelta es)
    (henc : o.2 = true → ∃ k, key = some k ∧ k.decryptWithAAD data = some (marshalDelta es)) :
    deltaEntries key (d₀.insert (.delta o.1 o.2) data) o = .ok es := by
  have hread : readDeltaObject key (d₀.insert (.delta o.1 o.2) data) o = .ok (marshalDelta es) := by
    unfold readDeltaObject
    cases ho : o.2 with
    | false => simp [hplain ho]
    | true =>
      obtain ⟨k, rfl, hdec⟩ := henc ho
      simp [hdec]
  unfold deltaEntries
  simp only [hread, parseDelta_marshalDelta hsmall]

/-- **A delta describes its session.** Whenever the header is stamped, the journal is the delta of
the entries inserted since it was armed, in order and without those of merged deltas. An open of the
files from before the session, with this delta under any free name among the others, has the filter
of the session and looks up what the session looks up, except for the hashes of a delta whose name
comes later.

**Proof sketch.** The journal holds a header, what has been written and the buffer (`Journaled`), so
a stamp leaves the marshalled entries. An open merges the deltas in the order of their names; the
session has merged the others and then inserted its own. -/
theorem capture_describes (hlaw : ∀ k, key = some k → ∀ nonce data,
      k.decryptWithAAD (k.encryptWithAAD nonce data) = some data)
    (hwf : ∀ file es₀, opened key d₀ = some (file, es₀) → WellFormed file es₀)
    (hx : Armed key nbits d₀ path x d es) (hsmall : es.length * deltaEntrySize < 2 ^ 64)
    (hstamp : Stamps x d x' d') :
    d'.lookup (journal path) = some (marshalDelta es) ∧
      ∀ stem enc, d₀.lookup (.delta stem enc) = none → (enc = true → key.isSome ∧ es ≠ []) →
        ∃ data later y d₁, d'.lookup (journal (objectPath path enc)) = some data ∧
          collectDeltas key d₀ (laterNames d₀ (stem, enc)) = .ok later ∧
          newDedupIndex key nbits false (d₀.insert (.delta stem enc) data) = (.ok y, d₁) ∧
          y.bloom = x'.bloom ∧ ∀ k,
            y.lookupDirect k = (latestOf later k).or (x'.lookupDirect k) := by
  obtain ⟨hcaptured, hplain, henc⟩ := (hx.captured hwf).stamp hstamp
  refine ⟨hplain, fun stem enc hfresh hneeds => ?_⟩
  cases enc with
  | false =>
    have hread : deltaEntries key (d₀.insert (.delta stem false) (marshalDelta es)) (stem, false) =
        .ok es :=
      @deltaEntries_marshalDelta key d₀ es hsmall (stem, false) (marshalDelta es) (fun _ => rfl)
        (by simp)
    obtain ⟨later, y, d₁, hlater, hopen, hbloom, hlookup⟩ :=
      hcaptured.reopen (o := (stem, false)) hwf hfresh hread
    exact ⟨_, later, y, d₁, hplain, hlater, hopen, hbloom, hlookup⟩
  | true =>
    obtain ⟨hsome, hne⟩ := hneeds rfl
    obtain ⟨k, hk⟩ := Option.isSome_iff_exists.1 hsome
    obtain ⟨nonce, hfile⟩ := henc k hk hne
    have hread : deltaEntries key
        (d₀.insert (.delta stem true) (k.encryptWithAAD nonce (marshalDelta es))) (stem, true) =
        .ok es :=
      @deltaEntries_marshalDelta key d₀ es hsmall (stem, true) _ (by simp)
        fun _ => ⟨k, hk, hlaw k hk nonce _⟩
    obtain ⟨later, y, d₁, hlater, hopen, hbloom, hlookup⟩ :=
      hcaptured.reopen (o := (stem, true)) hwf hfresh hread
    exact ⟨_, later, y, d₁, hfile, hlater, hopen, hbloom, hlookup⟩

end Merge

/-! ## A chunk that two runs have stored -/

/-- The chunk as another run has stored it. -/
def foreignEntry : DeltaEntry := ⟨oneEntry.strongHash, 7, 1, 0, 5⟩

/-- The chunk as this run stores it. -/
def ownEntry : DeltaEntry := ⟨oneEntry.strongHash, 7, 2, 0, 5⟩

/-- An index directory with the delta of the other run. -/
def oneForeign : RepoDir := (∅ : RepoDir).insert (.delta "b" false) (marshalDelta [foreignEntry])

lemma deltaEntries_oneForeign : deltaEntries none oneForeign ("b", false) = .ok [foreignEntry] :=
  @deltaEntries_marshalDelta none ∅ [foreignEntry] (by decide) ("b", false) _ (fun _ => rfl)
    (by simp)

lemma opened_oneForeign : opened none oneForeign = some ([], [foreignEntry]) := by
  have hnone : ∀ f : FileName, f ≠ .delta "b" false → oneForeign.lookup f = none := by
    intro f hf
    rw [oneForeign, AList.lookup_insert_ne hf, AList.lookup_empty]
  have hnames : deltaObjectNames oneForeign = [("b", false)] := by decide +kernel
  refine opened_eq_some.2 ⟨?_, ?_⟩
  · simp [openedFile, hnone, Prune.bloomLoads]
  · rw [pendingDeltas, hnames]
    simp [collectDeltas, deltaEntries_oneForeign]

lemma wellFormed_oneForeign {file : Bytes} {es0 : List DeltaEntry}
    (h : opened none oneForeign = some (file, es0)) : WellFormed file es0 := by
  obtain ⟨rfl, rfl⟩ : [] = file ∧ [foreignEntry] = es0 := by simpa [opened_oneForeign] using h
  exact ⟨⟨fun e he => (by cases he), List.nodup_nil⟩, by decide⟩

/-- The session of this run. -/
lemma ownSession_armed : ∃ x d, Armed none 64 oneForeign "own" x d [ownEntry] := by
  obtain ⟨x, d, hopen, -, hx⟩ := newDedupIndex_succeeds 64 false opened_oneForeign
    (wellFormed_oneForeign opened_oneForeign)
  obtain ⟨x', ops, harm⟩ : ∃ x' ops, x.captureDelta "own" = .ok (x', ops) := by
    rw [DedupIndex.captureDelta, hx.delta]
    exact ⟨_, _, rfl⟩
  exact ⟨_, _, .insert (.armed hopen harm) ownEntry (by decide)⟩

/-- Under a later name the delta gives what its session looks up. -/
theorem capture_describes_own : ∃ x d x' d', Armed none 64 oneForeign "own" x d [ownEntry] ∧
    Stamps x d x' d' ∧ d'.lookup (journal "own") = some (marshalDelta [ownEntry]) ∧
    ∃ data y d₁, d'.lookup (journal "own") = some data ∧
      newDedupIndex none 64 false (oneForeign.insert (.delta "c" false) data) = (.ok y, d₁) ∧
      y.bloom = x'.bloom ∧ ∀ k, y.lookupDirect k = x'.lookupDirect k := by
  obtain ⟨x, d, hx⟩ := ownSession_armed
  obtain ⟨hplain, hreopen⟩ := capture_describes (by simp) (fun _ _ => wellFormed_oneForeign) hx
    (by decide) (.write [])
  obtain ⟨data, later, y, d₁, hdata, hlater, hopen, hbloom, hlookup⟩ :=
    hreopen "c" false (by decide +kernel) (by simp)
  have hnames : laterNames oneForeign ("c", false) = [] := by decide +kernel
  rw [hnames] at hlater
  cases hlater
  exact ⟨x, d, _, _, hx, .write [], hplain, data, y, d₁, hdata, hopen, hbloom, fun k => by
    rw [hlookup]
    rfl⟩

/-- **A delta that is merged later**: an open with the delta of the session under an earlier name
looks up the entry of the other run. -/
theorem capture_shadowed : ∃ x d x' d', Armed none 64 oneForeign "own" x d [ownEntry] ∧
    Stamps x d x' d' ∧ ∃ data y d₁, d'.lookup (journal "own") = some data ∧
      newDedupIndex none 64 false (oneForeign.insert (.delta "a" false) data) = (.ok y, d₁) ∧
      x'.lookupDirect oneEntry.strongHash = some ownEntry.indexEntry ∧
      y.lookupDirect oneEntry.strongHash = some foreignEntry.indexEntry := by
  obtain ⟨x, d, hx⟩ := ownSession_armed
  obtain ⟨hcaptured, hplain, -⟩ :=
    (hx.captured fun _ _ => wellFormed_oneForeign).stamp (.write [])
  obtain ⟨later, y, d₁, hlater, hopen, -, hlookup⟩ := hcaptured.reopen
    (fun _ _ => wellFormed_oneForeign) (show oneForeign.lookup (.delta "a" false) = none by
      decide +kernel)
    (@deltaEntries_marshalDelta none oneForeign [ownEntry] (by decide) ("a", false) _ (fun _ => rfl)
      (by simp))
  have hnames : laterNames oneForeign ("a", false) = [("b", false)] := by decide +kernel
  rw [hnames] at hlater
  obtain rfl :
    [foreignEntry] = later := by simpa [collectDeltas, deltaEntries_oneForeign] using hlater
  refine ⟨x, d, _, _, hx, .write [], _, y, d₁, hplain, hopen, ?_, ?_⟩
  · obtain ⟨file, es0, -, hmap, -⟩ := hcaptured.seen
    have hsome : x.writeDeltaObject.index.htab.isSome := by
      rw [hcaptured.good.mode, hcaptured.mode]
      rfl
    rw [DedupIndex.lookupDirect, HashIndex.lookup_eq_content hsome, hmap, overlay_eq_or]
    rfl
  · rw [hlookup]
    rfl

end DiskNexus.Index
