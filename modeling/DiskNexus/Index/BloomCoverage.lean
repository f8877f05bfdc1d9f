import DiskNexus.Index.Sessions

/-!
# The bloom filter covers the index

`Check` takes a chunk for a new one if the bloom filter does not contain its weak hash. A fold
rewrites the index file pass by pass and saves the filter at its end. One that dies leaves entries
that the saved filter does not cover, but also the deltas that they come from, and every open takes
the weak hashes of the pending deltas into its filter.
-/

namespace DiskNexus.Index

open Binary Sha256 Files

/-! ## Directories that can be opened and folded -/

/-- An unencrypted index directory with a sorted index file and a filter and deltas that load. -/
structure Plain (d : RepoDir) : Prop where
  file : ∃ base, sortedFile d = encodeEntries base ∧ PrefixSorted base ∧
    (base.map (·.strongHash)).Nodup ∧ ∀ e ∈ base, e.strongHash ≠ .zero
  hashIndexEnc : d.lookup .hashIndexEnc = none
  bloomEnc : d.lookup .bloomEnc = none
  bloom : ∀ data, d.lookup .bloom = some data → ∃ bf, loadBloomFilter data = .ok bf
  plain : ∀ stem, d.lookup (.delta stem true) = none
  deltas : ∀ stem data, d.lookup (.delta stem false) = some data → ∃ es, WellFormedDelta data es

/-- A choice for each member of a list. -/
lemma exists_forall₂ {α β : Type} {R : α → β → Prop} {l : List α} (h : ∀ a ∈ l, ∃ b, R a b) :
    ∃ bs, List.Forall₂ R l bs := by
  induction l with
  | nil => exact ⟨[], .nil⟩
  | cons a l ih =>
    obtain ⟨b, hb⟩ := h a (.head _)
    obtain ⟨bs, hbs⟩ := ih fun a' ha' => h a' (.tail _ ha')
    exact ⟨b :: bs, .cons hb hbs⟩

variable {base es : List IndexEntry} {d : RepoDir} {v : UInt64} {stem : String}
  {m : Hash → Option IndexEntry} {ess : List (List DeltaEntry)}

namespace Plain

variable {d d' : RepoDir}

/-- Such a directory can be folded. -/
lemma foldable (h : Plain d) : ∃ base ess, Foldable d base ess := by
  obtain ⟨base, hfile, hsorted, hnodup, hne⟩ := h.file
  obtain ⟨ess, hess⟩ : ∃ ess, List.Forall₂ (fun o es => WellFormedDelta (deltaFile d o) es)
      (deltaFiles d) ess := by
    refine exists_forall₂ fun o ho => ?_
    obtain ⟨hmem, hplain⟩ := List.mem_filter.1 ho
    obtain ⟨stem, enc⟩ := o
    obtain rfl : enc = false := by simpa using hplain
    obtain ⟨data, hdata⟩ := Option.isSome_iff_exists.1 (mem_deltaObjectNames.1 hmem)
    rw [deltaFile, hdata]
    exact h.deltas stem data hdata
  exact ⟨base, ess, hfile, hsorted, hnodup, hne, h.hashIndexEnc, h.bloomEnc, h.bloom, h.plain, hess⟩

/-- It can be opened. -/
lemma openable (h : Plain d) : Openable d := by
  obtain ⟨base, ess, hf⟩ := h.foldable
  exact hf.openable

/-- Another index file. -/
lemma update (h : Plain d)
    (hrest : ∀ f, f.Persistent → f ≠ .hashIndex → f ≠ .bloom → d'.lookup f = d.lookup f)
    (hbloom : ∀ data, d'.lookup .bloom = some data → ∃ bf, loadBloomFilter data = .ok bf)
    (hfile : sortedFile d' = encodeEntries base) (hsorted : PrefixSorted base)
    (hindex : IndexFile (sortedFile d')) : Plain d' := by
  refine ⟨⟨base, hfile, hsorted, ?_, ?_⟩, ?_, ?_, hbloom, fun stem => ?_, fun stem data hdata => ?_⟩
  · have := hindex.nodup
    rwa [hfile, decodeEntries_encodeEntries] at this
  · have := hindex.ne_zero
    rwa [hfile, decodeEntries_encodeEntries] at this
  · rw [hrest .hashIndexEnc trivial (by simp) (by simp), h.hashIndexEnc]
  · rw [hrest .bloomEnc trivial (by simp) (by simp), h.bloomEnc]
  · rw [hrest (.delta stem true) trivial (by simp) (by simp), h.plain]
  · rw [hrest (.delta stem false) trivial (by simp) (by simp)] at hdata
    exact h.deltas stem data hdata

end Plain

/-! ## What the saved filter covers -/

/-- The saved filter contains a weak hash. -/
def InBloom (d : RepoDir) (v : UInt64) : Prop :=
  ∃ data bf, d.lookup .bloom = some data ∧ loadBloomFilter data = .ok bf ∧ bf.mayContain v

lemma InBloom.congr {d' : RepoDir} (h : InBloom d v) (hsame : d'.lookup .bloom = d.lookup .bloom) :
    InBloom d' v := by
  obtain ⟨data, bf, hdata, hbf, hv⟩ := h
  exact ⟨data, bf, by rwa [hsame], hbf, hv⟩

/-- The filter of an open contains what the saved one contains. -/
lemma InBloom.bloomOf (h : InBloom d v) (nbits : UInt64) :
    (bloomOf nbits d).mayContain v := by
  obtain ⟨data, bf, hdata, hbf, hv⟩ := h
  unfold Index.bloomOf
  rw [hdata]
  simp only [hbf]
  exact hv

lemma inBloom_bytes {bf : BloomFilter} (h : d.lookup .bloom = some bf.bytes)
    (hv : bf.mayContain v) : InBloom d v :=
  ⟨_, bf, h, loadBloomFilter_bytes bf, hv⟩

/-- A hash of a pending delta. -/
def Pending (d : RepoDir) (h : Hash) : Prop := ∃ e, PendingEntry d e ∧ e.strongHash = h

lemma Pending.congr {d' : RepoDir} {h : Hash} (hp : Pending d h)
    (hsame : ∀ stem enc, d'.lookup (.delta stem enc) = d.lookup (.delta stem enc)) :
    Pending d' h := by
  obtain ⟨e, he, heq⟩ := hp
  exact ⟨e, he.congr hsame, heq⟩

section History

variable (weak : Hash → UInt64)

/-- The events of a history in which every hash has its one weak hash, and every change of the index
file but that of a fold comes with the filter. -/
def Event.Regular : Event → Prop
  | .insert id _ _ _ => id.strongHash ≠ .zero ∧ id.weakHash = weak id.strongHash
  | .deliver _ data => ∃ es, WellFormedDelta data es ∧ ∀ e ∈ es, e.weakHash = weak e.strongHash
  | .readAllEntries => False
  | _ => True

/-- The invariant of a directory. -/
structure DirCovers (d : RepoDir) (folded : List String) : Prop where
  plain : Plain d
  weakHash : ∀ e, PendingEntry d e → e.weakHash = weak e.strongHash
  file : ∀ h, (fileMap (sortedFile d) h).isSome → InBloom d (weak h) ∨ Pending d h
  folded : ∀ stem ∈ folded, ∀ es, deltaEntries none d (stem, false) = .ok es →
    ∀ e ∈ es, InBloom d (weak e.strongHash)

/-- The invariant of a session: its filter covers its index and the saved filter. -/
structure SessionCovers (x : DedupIndex) (d : RepoDir) : Prop where
  session : Session x d
  content : ∀ h, (x.index.content h).isSome → x.bloom.mayContain (weak h)
  bloom : ∀ v, InBloom d v → x.bloom.mayContain v

/-- The invariant of a history. -/
structure Covers (w : World) : Prop where
  dir : DirCovers weak w.dir w.folded
  session : ∀ x, w.session = some x → SessionCovers weak x w.dir

variable {weak} {d d' : RepoDir} {folded : List String} {x : DedupIndex} {w w' : World}

/-! ## Another index file -/

/-- The file of a row of entries resolves what the row stands for. -/
lemma Row.isSome_of_fileMap (h : Row es m) {k : Hash}
    (hk : (Index.fileMap (encodeEntries es) k).isSome) : (m k).isSome := by
  obtain ⟨e, he⟩ := Option.isSome_iff_exists.1 hk
  rw [Index.fileMap, decodeEntries_encodeEntries, overlay_eq_some_iff h.nodup] at he
  rcases he with ⟨hmem, rfl⟩ | ⟨-, hnone⟩
  · rw [(h.mem e).1 hmem]
    rfl
  · cases hnone

/-- **A rewritten file** that resolves no more than before. -/
lemma DirCovers.rewrite (h : DirCovers weak d folded) (hfile : sortedFile d' = encodeEntries es)
    (hrow : Row es m) (hm : ∀ k, (m k).isSome → (fileMap (sortedFile d) k).isSome ∨ Pending d k)
    (hrest : ∀ f, f.Persistent → f ≠ .hashIndex → f ≠ .bloom → d'.lookup f = d.lookup f)
    (hbloom : ∀ data, d'.lookup .bloom = some data → ∃ bf, loadBloomFilter data = .ok bf) :
    Plain d' ∧ ∀ k, (fileMap (sortedFile d') k).isSome →
      (fileMap (sortedFile d) k).isSome ∨ Pending d k := by
  have hne : ∀ k, (m k).isSome → k ≠ .zero := by
    intro k hk
    rcases hm k hk with hk | ⟨e, he, rfl⟩
    · obtain ⟨e, he⟩ := Option.isSome_iff_exists.1 hk
      obtain ⟨hmem, rfl⟩ := (fileMap_eq_some_iff h.plain.openable.indexFile).1 he
      exact h.plain.openable.indexFile.ne_zero e hmem
    · exact h.plain.openable.deltas_ne_zero e he
  have hindex : IndexFile (sortedFile d') := by
    constructor <;> rw [hfile, decodeEntries_encodeEntries]
    · intro e he
      refine hne _ ?_
      rw [(hrow.mem e).1 he]
      rfl
    · exact hrow.nodup
  refine ⟨h.plain.update hrest hbloom hfile hrow.sorted hindex, fun k hk => hm k ?_⟩
  rw [hfile] at hk
  exact hrow.isSome_of_fileMap hk

/-- Such a file beside the same filter and the same deltas. -/
lemma DirCovers.rewriteFile (h : DirCovers weak d folded) (hfile : sortedFile d' = encodeEntries es)
    (hrow : Row es m) (hm : ∀ k, (m k).isSome → (fileMap (sortedFile d) k).isSome ∨ Pending d k)
    (hsame : ∀ f, f.Persistent → f ≠ .hashIndex → d'.lookup f = d.lookup f) :
    DirCovers weak d' folded := by
  have hbloom : d'.lookup .bloom = d.lookup .bloom := hsame .bloom trivial (by simp)
  have hdelta : ∀ stem enc, d'.lookup (.delta stem enc) = d.lookup (.delta stem enc) :=
    fun stem enc => hsame (.delta stem enc) trivial (by simp)
  obtain ⟨hplain, hmap⟩ := h.rewrite hfile hrow hm (fun f hp h1 _ => hsame f hp h1)
    (by rw [hbloom]; exact h.plain.bloom)
  refine ⟨hplain, fun e he => ?_, fun k hk => ?_, fun stem hstem es hes e he => ?_⟩
  · exact h.weakHash e (he.congr fun stem enc => (hdelta stem enc).symm)
  · rcases hmap k hk with hk | hp
    · exact (h.file k hk).imp (fun hin => hin.congr hbloom) fun hp => hp.congr hdelta
    · exact .inr (hp.congr hdelta)
  · rw [deltaEntries_congr (hdelta _ _)] at hes
    exact (h.folded stem hstem es hes e he).congr hbloom

lemma DirCovers.of_same (h : DirCovers weak d folded) (hfile : sortedFile d' = sortedFile d)
    (hrest : ∀ f, f.Persistent → f ≠ .hashIndex → d'.lookup f = d.lookup f) :
    DirCovers weak d' folded := by
  obtain ⟨base, hbase, hsorted, hnodup, -⟩ := h.plain.file
  refine h.rewriteFile (hfile.trans hbase) (row_of_sorted hsorted hnodup) (fun k hk => .inl ?_)
    hrest
  rwa [fileMap, hbase, decodeEntries_encodeEntries]

/-! ## Steps that do not change what an open reads -/

lemma SessionCovers.of_same {x' : DedupIndex} (h : SessionCovers weak x d) (hs : Session x' d')
    (hindex : x'.index.content = x.index.content) (hbloom : x'.bloom = x.bloom)
    (hsaved : d'.lookup .bloom = d.lookup .bloom) : SessionCovers weak x' d' := by
  refine ⟨hs, fun k hk => ?_, fun v hv => ?_⟩
  · rw [hbloom]
    exact h.content k (by rwa [hindex] at hk)
  · rw [hbloom]
    exact h.bloom v (hv.congr hsaved.symm)

/-- The index file of a directory that has the one in use. -/
lemma Session.sortedFile_eq (hs : Session x d) : sortedFile d = x.index.file := by
  rw [sortedFile, hs.file, Option.getD_some]

/-- A call that changes neither the file nor the index. -/
lemma Covers.call (h : Covers weak w) (hx : w.session = some x) {x' : DedupIndex}
    (hs : Session x' d') (hcontent : x'.index.content = x.index.content)
    (hfile : x'.index.file = x.index.file) (hbloom : x'.bloom = x.bloom)
    (hsame : ∀ f, f.Persistent → d'.lookup f = w.dir.lookup f) (inserted : List Hash) :
    Covers weak ⟨d', some x', inserted, w.folded⟩ := by
  have hc := h.session x hx
  refine ⟨h.dir.of_same ?_ fun f hf _ => hsame f hf, ?_⟩
  · rw [hs.sortedFile_eq, hfile, hc.session.sortedFile_eq]
  · rintro _ ⟨⟩
    exact hc.of_same hs hcontent hbloom (hsame .bloom trivial)

/-! ## Opening -/

/-- **Opening** a directory in the invariant. -/
lemma Covers.openIndex (h : Covers weak w) {nbits : UInt64} {readOnly : Bool}
    (hw' : w.openIndex nbits readOnly = some w') : Covers weak w' ∧ w'.session.isSome := by
  unfold World.openIndex at hw'
  split at hw'
  · cases hw'
  obtain ⟨es, x, -, hes, hx, hopened⟩ :=
    newDedupIndex_keyless h.dir.plain.openable nbits readOnly
  have hs := h.dir.plain.openable.session hx
  obtain ⟨hfile, hsame⟩ := @lookup_opened w.dir _ readOnly rfl
  rw [hx] at hw'
  cases hw'
  refine ⟨⟨h.dir.of_same ?_ hsame, ?_⟩, rfl⟩
  · simp only [sortedFile, hfile, Option.getD_some]
  rintro _ ⟨⟩
  obtain ⟨-, hkept, hnew⟩ := (bloomOf nbits w.dir).foldl_add (es.map DeltaEntry.weakHash)
  refine ⟨hs, fun k hk => ?_, fun v hv => ?_⟩
  · rw [hopened.bloom]
    rw [hopened.content, isSome_openedMap] at hk
    have hpending : Pending w.dir k → ((es.map DeltaEntry.weakHash).foldl BloomFilter.add
        (bloomOf nbits w.dir)).mayContain (weak k) := by
      rintro ⟨e, he, rfl⟩
      rw [← h.dir.weakHash e he]
      exact hnew _ (List.mem_map.2 ⟨e, (hes e).2 he, rfl⟩)
    rcases hk with hk | hk
    · -- the file: what the saved filter lacks is in a pending delta
      rcases h.dir.file k hk with hin | hp
      · exact hkept _ (hin.bloomOf nbits)
      · exact hpending hp
    · obtain ⟨e, he, rfl⟩ := hk
      exact hpending ⟨e, (hes e).1 he, rfl⟩
  · rw [hopened.bloom]
    have hv' : InBloom w.dir v := hv.congr (hsame .bloom trivial (by simp)).symm
    exact hkept _ (hv'.bloomOf nbits)

/-! ## Inserting -/

/-- **Inserting** a chunk puts its weak hash into the filter. -/
lemma Covers.insert (h : Covers weak w) {id : ChunkID} (hid : id.strongHash ≠ .zero)
    (hweak : id.weakHash = weak id.strongHash) {p : UInt32} {o : UInt64} {l : UInt32}
    (hw' : w.step (.insert id p o l) = some w') : Covers weak w' := by
  obtain ⟨x, hx, rfl⟩ := World.step_insert hw'
  have hc := h.session x hx
  have hs := hc.session.insert hid p o l
  have hsame : ∀ f : FileName, f.Persistent →
      (runOps w.dir (x.insert id p o l).2).lookup f = w.dir.lookup f :=
    fun f hf => lookup_runOps (captureInsert_untouched hf _ _) w.dir
  refine ⟨h.dir.of_same ?_ fun f hf _ => hsame f hf, ?_⟩
  · simp only [sortedFile, hsame .hashIndex trivial]
  rintro _ ⟨⟩
  refine ⟨hs, fun k hk => ?_, fun v hv => ?_⟩
  · rw [(x.insert_index id p o l).1, DedupIndex.isSome_content_insert] at hk
    rw [DedupIndex.insert_bloom, hweak]
    rcases hk with hk | rfl
    · exact BloomFilter.mayContain_add_of (hc.content k hk) _
    · exact BloomFilter.mayContain_add _ _
  · rw [DedupIndex.insert_bloom]
    exact BloomFilter.mayContain_add_of (hc.bloom v (hv.congr (hsame .bloom trivial).symm)) _

/-! ## Flushing and closing -/

/-- The file that a flush leaves is sorted. -/
lemma sorted_of_flush {index : HashIndex} (hs : Session x d) (hd : Plain d)
    (hflush : x.index.flush = .ok index) :
    ∃ base, index.file = encodeEntries base ∧ PrefixSorted base := by
  rcases HashIndex.flush_inv hflush with ⟨-, rfl⟩ | ⟨-, t, rfl⟩
  · obtain ⟨base, hbase, hsorted, -⟩ := hd.file
    exact ⟨base, hs.sortedFile_eq.symm.trans hbase, hsorted⟩
  · exact ⟨_, rfl, prefixSorted_sortEntries _⟩

/-- **A complete `Flush` or `Close`** saves the filter beside what it covers. -/
lemma Covers.shutdown (h : Covers weak w) (hx : w.session = some x) (call : Shutdown)
    (nonces : ℕ → Bytes) :
    DirCovers weak (runOps w.dir (call.ops x nonces)) w.folded := by
  have hc := h.session x hx
  have hs := hc.session
  obtain ⟨index, hflush, -, -, hmap, -⟩ := HashIndex.flush_ok hs.good
  obtain ⟨hbloom, hfile, hsame⟩ := lookup_shutdown hs.key hs.file hflush call nonces
  obtain ⟨base, hbase, hsorted⟩ := sorted_of_flush hs h.dir.plain hflush
  have hopen := hs.openable_shutdown call nonces
  set d' := runOps w.dir (call.ops x nonces)
  have hsorted' : sortedFile d' = index.file := by rw [sortedFile, hfile, Option.getD_some]
  have hdelta : ∀ stem enc, d'.lookup (.delta stem enc) = w.dir.lookup (.delta stem enc) :=
    fun stem enc => hsame (.delta stem enc) trivial (by simp) (by simp)
  have hin : ∀ v, InBloom w.dir v → InBloom d' v :=
    fun v hv => inBloom_bytes hbloom (hc.bloom v hv)
  refine ⟨h.dir.plain.update (fun f hf h1 h2 => hsame f hf h2 h1) hopen.bloom
    (hsorted'.trans hbase) hsorted hopen.indexFile, fun e he => ?_, fun k hk => ?_,
    fun stem hstem es hes e he => ?_⟩
  · exact h.dir.weakHash e (he.congr fun stem enc => (hdelta stem enc).symm)
  · rw [hsorted', hmap] at hk
    exact .inl (inBloom_bytes hbloom (hc.content k hk))
  · rw [deltaEntries_congr (hdelta _ _)] at hes
    exact hin _ (h.dir.folded stem hstem es hes e he)

lemma Covers.closeIndex (h : Covers weak w) {nonces : ℕ → Bytes}
    (hw' : w.closeIndex nonces = some w') : Covers weak w' := by
  obtain ⟨x, index, hx, -, rfl⟩ := World.closeIndex_some hw'
  exact ⟨h.shutdown hx .close nonces, by rintro _ ⟨⟩⟩

lemma Covers.flush (h : Covers weak w) {nonces : ℕ → Bytes}
    (hw' : w.step (.flush nonces) = some w') : Covers weak w' := by
  obtain ⟨x, x', hx, hflush, rfl⟩ := World.step_flush hw'
  have hc := h.session x hx
  have hs := hc.session
  refine ⟨h.shutdown hx .flush nonces, ?_⟩
  rintro _ ⟨⟩
  obtain ⟨index, hindex, -, hcontent, -⟩ := HashIndex.flush_ok hs.good
  obtain ⟨hbloom, -⟩ := lookup_shutdown hs.key hs.file hindex .flush nonces
  have hs' := hs.flush nonces hflush
  simp only [DedupIndex.flush, hindex, Except.ok.injEq] at hflush
  subst hflush
  refine ⟨hs', fun k hk => ?_, fun v hv => ?_⟩
  · exact hc.content k (by rwa [← hcontent])
  · obtain ⟨data, bf, hdata, hbf, hv⟩ := hv
    rw [show (runOps w.dir (x.flushOps nonces)).lookup .bloom = some x.bloom.bytes from hbloom]
      at hdata
    cases hdata
    rw [loadBloomFilter_bytes] at hbf
    cases hbf
    exact hv

/-! ## Deltas that arrive, and deltas that are removed -/

lemma delta_ne {o : String × Bool} (ho : o ≠ (stem, false)) :
    FileName.delta o.1 o.2 ≠ .delta stem false := by
  intro heq
  obtain ⟨h1, h2⟩ := FileName.delta.inj heq
  exact ho (Prod.ext h1 h2)

/-- A delta that reads is there. -/
lemma isSome_of_deltaEntries {es : List DeltaEntry}
    (h : deltaEntries none d (stem, false) = .ok es) : (d.lookup (.delta stem false)).isSome := by
  cases hdata : d.lookup (.delta stem false) with
  | some data => rfl
  | none =>
    -- an empty object has no header
    have hread : readDeltaObject none d (stem, false) = .ok [] := by
      simp [readDeltaObject, hdata]
    unfold deltaEntries at h
    rw [hread] at h
    cases hparse : parseDelta [] with
    | error e => simp [hparse] at h
    | ok es' => exact absurd (parseDelta_ok hparse).1 (by decide)

/-- The pending entries after a delta has arrived. -/
lemma pendingEntry_deliver {stem : String} {data : Bytes} {es : List DeltaEntry}
    (hwf : WellFormedDelta data es) (hnew : d.lookup (.delta stem false) = none) (e : DeltaEntry) :
    PendingEntry (d.insert (.delta stem false) data) e ↔ PendingEntry d e ∨ e ∈ es := by
  set d' := d.insert (.delta stem false) data with hd'
  have hown : deltaEntries none d' (stem, false) = .ok es := by
    refine WellFormedDelta.deltaEntries rfl ?_
    rw [deltaFile, hd', AList.lookup_insert]
    exact hwf
  have hother : ∀ o : String × Bool, o ≠ (stem, false) →
      d'.lookup (.delta o.1 o.2) = d.lookup (.delta o.1 o.2) :=
    fun o ho => AList.lookup_insert_ne (delta_ne ho)
  constructor
  · rintro ⟨o, es', hsome, hes', he⟩
    by_cases ho : o = (stem, false)
    · subst ho
      rw [hown] at hes'
      cases hes'
      exact .inr he
    · rw [hother o ho] at hsome
      rw [deltaEntries_congr (hother o ho)] at hes'
      exact .inl ⟨o, es', hsome, hes', he⟩
  · rintro (⟨o, es', hsome, hes', he⟩ | he)
    · have ho : o ≠ (stem, false) := by
        rintro rfl
        rw [hnew] at hsome
        cases hsome
      refine ⟨o, es', by rwa [hother o ho], ?_, he⟩
      rwa [deltaEntries_congr (hother o ho)]
    · exact ⟨(stem, false), es, by simp [hd'], hown, he⟩

/-- A directory in which one plain delta has changed. -/
lemma Plain.change_delta {d' : RepoDir} (h : Plain d)
    (hrest : ∀ f : FileName, f ≠ .delta stem false → d'.lookup f = d.lookup f)
    (hown : ∀ data, d'.lookup (.delta stem false) = some data → ∃ es, WellFormedDelta data es) :
    Plain d' := by
  have hfile : sortedFile d' = sortedFile d := by rw [sortedFile, hrest _ (by simp)]; rfl
  obtain ⟨base, hbase⟩ := h.file
  refine ⟨⟨base, by rwa [hfile]⟩, ?_, ?_, ?_, fun stem' => ?_, fun stem' data' hdata => ?_⟩
  · rw [hrest _ (by simp), h.hashIndexEnc]
  · rw [hrest _ (by simp), h.bloomEnc]
  · rw [hrest _ (by simp)]
    exact h.bloom
  · rw [hrest _ (by simp), h.plain]
  · by_cases heq : stem' = stem
    · subst heq
      exact hown data' hdata
    · rw [hrest _ (by simpa using heq)] at hdata
      exact h.deltas stem' data' hdata

/-- A delta changes, and what it had is pending still or covered. -/
lemma Covers.change_delta (h : Covers weak w) {folded' : List String}
    (hrest : ∀ f : FileName, f ≠ .delta stem false → d'.lookup f = w.dir.lookup f)
    (hown : ∀ data, d'.lookup (.delta stem false) = some data → ∃ es, WellFormedDelta data es)
    (hweak : ∀ e, PendingEntry d' e → e.weakHash = weak e.strongHash)
    (hpending : ∀ k, Pending w.dir k → InBloom w.dir (weak k) ∨ Pending d' k)
    (hfolded : ∀ stem' ∈ folded', stem' ∈ w.folded)
    (hread : ∀ es, deltaEntries none d' (stem, false) = .ok es → stem ∉ folded') :
    Covers weak ⟨d', w.session, w.inserted, folded'⟩ := by
  have hbloom : d'.lookup .bloom = w.dir.lookup .bloom := hrest _ (by simp)
  have hplain := h.dir.plain.change_delta hrest hown
  have hfile : sortedFile d' = sortedFile w.dir := by rw [sortedFile, hrest _ (by simp)]; rfl
  refine ⟨⟨hplain, hweak, fun k hk => ?_, fun stem' hstem es hes e he => ?_⟩, fun x hx => ?_⟩
  · rw [hfile] at hk
    rcases h.dir.file k hk with hin | hp
    · exact .inl (hin.congr hbloom)
    · exact (hpending k hp).imp_left fun hin => hin.congr hbloom
  · have hne : stem' ≠ stem := by
      rintro rfl
      exact hread es hes hstem
    rw [deltaEntries_congr (hrest _ (by simpa using hne))] at hes
    exact (h.dir.folded stem' (hfolded stem' hstem) es hes e he).congr hbloom
  · have hc := h.session x hx
    have hs := hc.session
    refine hc.of_same ⟨hs.key, hs.good, hplain.openable, ?_⟩ rfl rfl hbloom
    exact (hrest _ (by simp)).trans hs.file

/-- **A delta arrives.** -/
lemma Covers.deliver (h : Covers weak w) {data : Bytes} {es : List DeltaEntry}
    (hwf : WellFormedDelta data es) (hweak : ∀ e ∈ es, e.weakHash = weak e.strongHash)
    (hw' : w.step (.deliver stem data) = some w') : Covers weak w' := by
  simp only [World.step] at hw'
  split at hw'
  · cases hw'
  rename_i hsome
  cases hw'
  have hpending := @pendingEntry_deliver w.dir stem data es hwf (by simpa using hsome)
  refine h.change_delta (fun f hf => AList.lookup_insert_ne hf) (fun data' hdata => ?_)
    (fun e he => ((hpending e).1 he).elim (h.dir.weakHash e) (hweak e)) ?_
    (fun stem' hstem => (List.mem_filter.1 hstem).1) (by simp)
  · rw [AList.lookup_insert] at hdata
    cases hdata
    exact ⟨es, hwf⟩
  · rintro k ⟨e, he, heq⟩
    exact .inr ⟨e, (hpending e).2 (.inl he), heq⟩

/-- **A delta is removed** after a fold: the saved filter covers it. -/
lemma Covers.removeDelta (h : Covers weak w) (hw' : w.step (.removeDelta stem) = some w') :
    Covers weak w' := by
  simp only [World.step] at hw'
  split at hw'
  swap
  · cases hw'
  rename_i hstem
  cases hw'
  set d' := w.dir.erase (.delta stem false) with hd'
  have hrest : ∀ f : FileName, f ≠ .delta stem false → d'.lookup f = w.dir.lookup f :=
    fun f hf => AList.lookup_erase_ne hf
  have hgone : d'.lookup (.delta stem false) = none := AList.lookup_erase _ _
  have hother : ∀ o : String × Bool, o ≠ (stem, false) →
      d'.lookup (.delta o.1 o.2) = w.dir.lookup (.delta o.1 o.2) :=
    fun o ho => hrest _ (delta_ne ho)
  refine h.change_delta hrest (by simp [hgone]) ?_ ?_ (fun _ hmem => hmem) fun es hes => ?_
  · rintro e ⟨o, es, hsome, hes, he⟩
    have ho : o ≠ (stem, false) := by
      rintro rfl
      rw [hgone] at hsome
      cases hsome
    rw [hother o ho] at hsome
    rw [deltaEntries_congr (hother o ho)] at hes
    exact h.dir.weakHash e ⟨o, es, hsome, hes, he⟩
  · rintro _ ⟨e, ⟨o, es, hsome, hes, he⟩, rfl⟩
    by_cases ho : o = (stem, false)
    · subst ho
      exact .inl (h.dir.folded stem hstem es hes e he)
    · refine .inr ⟨e, ⟨o, es, by rwa [hother o ho], ?_, he⟩, rfl⟩
      rwa [deltaEntries_congr (hother o ho)]
  · have := isSome_of_deltaEntries hes
    rw [hgone] at this
    cases this

/-! ## Folding and filtering -/

lemma Foldable.mem_flatten (h : Foldable d base ess) (e : DeltaEntry) :
    e ∈ ess.flatten ↔ PendingEntry d e := by
  obtain ⟨es, -, hes, hmem, -⟩ := newDedupIndex_keyless h.openable 64 false
  rw [h.pendingDeltas] at hes
  cases hes
  exact hmem e

/-- What the file resolves with entries of the deltas over it. -/
lemma Foldable.isSome_overlay (h : Foldable d base ess) {done : List DeltaEntry}
    (hdone : ∀ e ∈ done, PendingEntry d e) {k : Hash}
    (hk : (overlay (overlay (fun _ => none) base) (done.map DeltaEntry.indexEntry) k).isSome) :
    (fileMap (sortedFile d) k).isSome ∨ Pending d k := by
  rw [Index.isSome_overlay] at hk
  rcases hk with hk | hk
  · left
    rwa [fileMap, h.file, decodeEntries_encodeEntries]
  · obtain ⟨e, he, rfl⟩ := List.mem_map.1 hk
    obtain ⟨e', he', rfl⟩ := List.mem_map.1 he
    exact .inr ⟨e', hdone e' he', rfl⟩

/-- **A completed fold** saves a filter that covers file and deltas. -/
lemma DirCovers.fold (h : DirCovers weak d folded) (nbits : UInt64) (batchBudget : ℤ) :
    ∃ total d', foldDeltasStreamedWithBudget nbits batchBudget d = (.ok total, d') ∧
      DirCovers weak d' ((deltaFiles d).map Prod.fst) := by
  obtain ⟨base, ess, hf⟩ := h.plain.foldable
  obtain ⟨total, d', merged, hfold, hfile, hrow, hbloom, hrest⟩ := hf.fold nbits batchBudget
  obtain ⟨-, hkept, hnew⟩ :=
    (bloomOf nbits d).foldl_add (ess.flatten.map DeltaEntry.weakHash)
  set bf := (ess.flatten.map DeltaEntry.weakHash).foldl BloomFilter.add (bloomOf nbits d)
  have hsame : ∀ f : FileName, f.Persistent → f ≠ .hashIndex → f ≠ .bloom →
      d'.lookup f = d.lookup f := by
    intro f hp h1 h2
    refine hrest f h1 ?_ h2
    rintro rfl
    exact hp
  have hdelta : ∀ stem enc, d'.lookup (.delta stem enc) = d.lookup (.delta stem enc) :=
    fun stem enc => hsame (.delta stem enc) trivial (by simp) (by simp)
  obtain ⟨hplain, hmap⟩ := h.rewrite hfile hrow
    (fun k hk => hf.isSome_overlay (fun e he => (hf.mem_flatten e).1 he) hk) hsame (by
      intro data hdata
      rw [hbloom] at hdata
      cases hdata
      exact ⟨bf, loadBloomFilter_bytes bf⟩)
  have hpending : ∀ e, PendingEntry d e → InBloom d' (weak e.strongHash) := by
    intro e he
    rw [← h.weakHash e he]
    exact inBloom_bytes hbloom (hnew _ (List.mem_map.2 ⟨e, (hf.mem_flatten e).2 he, rfl⟩))
  refine ⟨total, d', hfold, hplain, fun e he => ?_, fun k hk => ?_, fun stem _ es hes e he => ?_⟩
  · exact h.weakHash e (he.congr fun stem enc => (hdelta stem enc).symm)
  · left
    have hcover : Pending d k → InBloom d' (weak k) := by
      rintro ⟨e, he, rfl⟩
      exact hpending e he
    rcases hmap k hk with hk | hp
    · rcases h.file k hk with hin | hp
      · exact inBloom_bytes hbloom (hkept _ (hin.bloomOf nbits))
      · exact hcover hp
    · exact hcover hp
  · rw [deltaEntries_congr (hdelta _ _)] at hes
    exact hpending e ⟨(stem, false), es, isSome_of_deltaEntries hes, hes, he⟩

/-- The records of the deltas. -/
lemma flatMap_streamDeltaRecords {os : List (String × Bool)}
    (h : List.Forall₂ (fun o es => WellFormedDelta (deltaFile d o) es) os ess) :
    (os.flatMap fun o => (streamDeltaRecords (deltaFile d o)).1) = ess.flatten := by
  induction h with
  | nil => rfl
  | cons ho _ ih => rw [List.flatMap_cons, ho.stream.2, ih, List.flatten_cons]

/-- **A fold that dies** leaves the deltas of the entries that the saved filter does not cover. -/
lemma DirCovers.foldCut (h : DirCovers weak d folded) (nbits : UInt64) (batchBudget : ℤ)
    (n : ℕ) (lastPass : Bool) :
    DirCovers weak (foldCut nbits batchBudget n lastPass d) folded := by
  obtain ⟨base, ess, hf⟩ := h.plain.foldable
  set budget := if batchBudget ≤ 0 then defaultFoldBatchBudget else batchBudget with hbudget
  obtain ⟨s1, hentries, h1⟩ := (hf.start nbits).foldEntries budget (ess.flatten.take n)
  rw [List.nil_append] at h1
  obtain ⟨s2, hpass, h2, -⟩ := h1.flushPass
  obtain ⟨s, hcut, hs⟩ : ∃ s : FoldState,
      Index.foldCut nbits batchBudget n lastPass d = s.dir ∧
      Folding d (bloomOf nbits d) (overlay (fun _ => none) base) (ess.flatten.take n)
        (ess.flatten.take n) s := by
    cases lastPass
    · refine ⟨s1, ?_, h1⟩
      simp only [Index.foldCut, openBloom_keyless h.plain.bloom, validateDeltas_ok hf.deltas,
        ← hbudget, flatMap_streamDeltaRecords hf.deltas, hentries]
      rfl
    · refine ⟨s2, ?_, h2⟩
      simp only [Index.foldCut, openBloom_keyless h.plain.bloom, validateDeltas_ok hf.deltas,
        ← hbudget, flatMap_streamDeltaRecords hf.deltas, hentries, hpass]
      rfl
  obtain ⟨es, m, hfile, hrow, hover⟩ := hs.file
  rw [hcut]
  refine h.rewriteFile hfile hrow (fun k hk => ?_) fun f hp hne => ?_
  · have htake : ∀ e ∈ ess.flatten.take n, PendingEntry d e :=
      fun e he => (hf.mem_flatten e).1 (List.mem_of_mem_take he)
    refine hf.isSome_overlay htake ?_
    rw [← hover, isSome_overlay]
    exact .inl hk
  · refine hs.rest f hne ?_
    rintro rfl
    exact hp

/-- **Filtering** the index file. -/
lemma DirCovers.filter (h : DirCovers weak d folded) (keep : UInt32 → Bool) :
    DirCovers weak (filterSortedIndex keep d).2 folded := by
  unfold filterSortedIndex
  cases hdata : d.lookup .hashIndex with
  | none => exact h
  | some data =>
    obtain ⟨base, hbase, hsorted, hnodup, hne⟩ := h.plain.file
    rw [sortedFile, hdata, Option.getD_some] at hbase
    have hlen : data.length % entrySize = 0 := by
      rw [hbase, length_encodeEntries, Nat.mul_mod_right]
    simp only [hlen, ne_eq, not_true_eq_false, if_false]
    set es := (decodeEntries data).filter fun e => keep e.packNumber with hes
    set d' := runOps d (replaceOps .hashIndexTmp .hashIndex (encodeEntries es)) with hd'
    have hfile : sortedFile d' = encodeEntries es := by
      rw [sortedFile, hd', lookup_runOps_replaceOps, Option.getD_some]
    have hsub : es.Sublist base := by
      rw [hes, hbase, decodeEntries_encodeEntries]
      exact List.filter_sublist
    have hrow := row_of_sorted (hsorted.sublist hsub) (hnodup.sublist (hsub.map _))
    refine h.rewriteFile hfile hrow (fun k hk => .inl ?_) fun f hp hf => ?_
    · rw [isSome_overlay] at hk
      rw [sortedFile, hdata, Option.getD_some, hbase, fileMap, decodeEntries_encodeEntries,
        isSome_overlay]
      exact hk.imp id fun hk => (hsub.map _).subset hk
    · refine lookup_runOps (untouched_replaceOps ?_ hf.symm _) d
      rintro rfl
      exact hp

/-! ## Histories -/

/-- **One event** of a history keeps the invariant. -/
lemma Covers.step (h : Covers weak w) {e : Event} (he : e.Regular weak)
    (hw' : w.step e = some w') : Covers weak w' := by
  cases e with
  | deliver stem data =>
    obtain ⟨es, hwf, hweak⟩ := he
    exact h.deliver hwf hweak hw'
  | openIndex nbits readOnly => exact (h.openIndex hw').1
  | lookup k =>
    cases hw'
    exact h
  | insert id p o l => exact h.insert he.1 he.2 hw'
  | captureDelta path =>
    obtain ⟨x, x', ops, hx, harm, rfl⟩ := World.step_captureDelta hw'
    obtain ⟨hindex, -, huntouched⟩ := captureDelta_inv harm
    refine h.call hx ((h.session x hx).session.captureDelta harm) (by rw [hindex]) (by rw [hindex])
      (DedupIndex.captureDelta_bloom harm) (fun f hf => ?_) _
    exact lookup_runOps (huntouched f hf) w.dir
  | flushHashIndex =>
    obtain ⟨x, x', hx, hflush, rfl⟩ := World.step_flushHashIndex hw'
    have hs := (h.session x hx).session
    have hsame : ∀ f : FileName, ¬ f.Working →
        (runOps w.dir x.index.flushDeltaOps).lookup f = w.dir.lookup f :=
      fun f hf => lookup_runOps (HashIndex.flushDeltaOps_untouched hf _) w.dir
    have hs' := hs.flushHashIndex hflush hsame
    obtain ⟨index, hindex, rfl⟩ := DedupIndex.flushHashIndex_inv hflush
    obtain ⟨-, hfile, hcontent⟩ := HashIndex.flushDelta_inv hs.good hindex
    exact h.call hx hs' hcontent hfile rfl (fun f hf => hsame f hf.not_working) _
  | readAllEntries => exact he.elim
  | flush nonces => exact h.flush hw'
  | close nonces => exact h.closeIndex hw'
  | closeDiscard =>
    obtain ⟨x, hx, rfl⟩ := World.step_closeDiscard hw'
    have hsame := (h.session x hx).session.lookup_closeDiscard
    refine ⟨h.dir.of_same ?_ fun f hf _ => hsame f hf, by rintro _ ⟨⟩⟩
    simp only [sortedFile, hsame .hashIndex trivial]
  | exportArchive collected nbits nonces =>
    change w.exportArchive collected nbits nonces = some w' at hw'
    unfold World.exportArchive at hw'
    cases collected with
    | error e =>
      cases hw'
      exact h
    | ok hashes =>
      simp only at hw'
      split at hw'
      · cases hw'
      · rename_i w1 hopen
        obtain ⟨h1, hsome⟩ := h.openIndex hopen
        rw [if_pos hsome] at hw'
        exact h1.closeIndex hw'
  | fold nbits batchBudget =>
    simp only [World.step] at hw'
    split at hw'
    · cases hw'
    · rename_i hidle
      obtain ⟨total, d', hfold, hd'⟩ := h.dir.fold nbits batchBudget
      rw [hfold] at hw'
      cases hw'
      exact ⟨hd', fun x hx => absurd (Option.isSome_iff_exists.2 ⟨x, hx⟩) hidle⟩
  | foldCut nbits batchBudget n lastPass =>
    simp only [World.step] at hw'
    split at hw'
    · cases hw'
    · rename_i hidle
      cases hw'
      exact ⟨h.dir.foldCut nbits batchBudget n lastPass,
        fun x hx => absurd (Option.isSome_iff_exists.2 ⟨x, hx⟩) hidle⟩
  | removeDelta stem => exact h.removeDelta hw'
  | filterSortedIndex keep =>
    simp only [World.step] at hw'
    split at hw'
    · cases hw'
    · rename_i hidle
      cases hw'
      exact ⟨h.dir.filter keep, fun x hx => absurd (Option.isSome_iff_exists.2 ⟨x, hx⟩) hidle⟩

/-- An empty directory. -/
lemma covers_empty : Covers weak (World.idle ∅) := by
  have hnone : ∀ f : FileName, (∅ : RepoDir).lookup f = none := fun f => AList.lookup_empty f
  have hfile : sortedFile ∅ = encodeEntries [] := by rw [sortedFile, hnone]; rfl
  refine ⟨⟨⟨⟨[], hfile, .nil, .nil, by simp⟩, hnone _, hnone _, ?_, fun _ => hnone _, ?_⟩, ?_, ?_,
    ?_⟩, by rintro _ ⟨⟩⟩
  · intro data hdata
    rw [World.idle, hnone] at hdata
    cases hdata
  · intro stem data hdata
    cases hdata
  · rintro e ⟨o, es, hsome, -⟩
    cases hsome
  · intro k hk
    cases hk
  · intro stem hstem
    cases hstem

/-- **The filter and the index of a session agree.** -/
lemma SessionCovers.check (h : SessionCovers weak x d) (hmode : x.index.noHtab = false) (k : Hash) :
    x.check ⟨weak k, k⟩ = x.lookupDirect k := by
  unfold DedupIndex.check DedupIndex.lookupDirect
  split_ifs with hno
  · rfl
  · have hsome : x.index.htab.isSome := by rw [h.session.good.mode, hmode]; rfl
    rw [HashIndex.lookup_eq_content hsome, eq_comm, ← Option.not_isSome_iff_eq_none]
    exact fun hk => hno (h.content k hk)

/-- **No false negatives.** After any history that starts with an empty directory, in any session
that `NewDedupIndex` has opened, `Check` takes a chunk for a new one exactly if the index does not
resolve its strong hash.

**Proof sketch.** Between sessions, what the index file resolves is in the saved filter or in a
pending delta (`DirCovers`), so the filter of a session covers what its index resolves
(`SessionCovers`), and `Flush` and `Close` save both. A delta is removed only once a completed fold
has saved a filter that covers it. -/
theorem check_new_iff (weak : Hash → UInt64) {es : List Event} (hes : ∀ e ∈ es, e.Regular weak)
    {w : World} (hw : (World.idle ∅).exec es = some w) {x : DedupIndex} (hx : w.session = some x)
    (hmode : x.index.noHtab = false) (k : Hash) :
    x.check ⟨weak k, k⟩ = none ↔ x.lookupDirect k = none := by
  have hcovers : Covers weak w :=
    World.exec_inv (fun w w' e he h hw' => Covers.step h he hw') hes covers_empty hw
  rw [(hcovers.session x hx).check hmode k]

end History

/-- A delta arrives, is folded and removed, and the index is opened. -/
def foldedHistory : List Event :=
  [.deliver "a" (marshalDelta twinEntries), .fold 64 0, .removeDelta "a", .openIndex 64 false]

/-- After this history `Check` and `LookupDirect` agree. -/
theorem check_new_iff_folded : ∃ w x, (World.idle ∅).exec foldedHistory = some w ∧
    w.session = some x ∧ ∀ k, x.check ⟨0, k⟩ = none ↔ x.lookupDirect k = none := by
  have hwf : WellFormedDelta (marshalDelta twinEntries) twinEntries :=
    ⟨parseDelta_marshalDelta (by decide), by decide +kernel, by decide⟩
  have hregular : ∀ e ∈ foldedHistory, e.Regular fun _ => 0 := by
    simp only [foldedHistory, List.forall_mem_cons]
    exact ⟨⟨twinEntries, hwf, by decide⟩, trivial, trivial, trivial, by simp⟩
  -- the directory after each event
  have hdeliver : (World.idle ∅).step (.deliver "a" (marshalDelta twinEntries)) =
      some ⟨twins, none, [], []⟩ := rfl
  have h1 : Covers (fun _ => 0) ⟨twins, none, [], []⟩ :=
    covers_empty.step (hregular _ (by simp [foldedHistory])) hdeliver
  obtain ⟨total, d', hfold, hd'⟩ := h1.dir.fold 64 0
  have hfiles : deltaFiles twins = [("a", false)] := by decide +kernel
  have hstep : (⟨twins, none, [], []⟩ : World).step (.fold 64 0) = some ⟨d', none, [], ["a"]⟩ := by
    simp only [World.step, Option.isSome_none, Bool.false_eq_true, if_false, hfold, hfiles,
      List.map_cons, List.map_nil]
  have hremove : (⟨d', none, [], ["a"]⟩ : World).step (.removeDelta "a") =
      some ⟨d'.erase (.delta "a" false), none, [], ["a"]⟩ := by
    simp [World.step]
  rw [hfiles] at hd'
  have h2 : Covers (fun _ => 0) ⟨d', none, [], ["a"]⟩ := ⟨hd', by rintro _ ⟨⟩⟩
  obtain ⟨_, x, -, -, hx, hopened⟩ :=
    newDedupIndex_keyless (h2.removeDelta hremove).dir.plain.openable 64 false
  have hexec : (World.idle ∅).exec foldedHistory =
      some ⟨(newHashIndex (d'.erase (.delta "a" false)) false).2, some x, [], ["a"]⟩ := by
    simp only [foldedHistory, World.exec, hdeliver, hstep, hremove]
    simp only [World.step, World.openIndex, hx]
  exact ⟨_, x, hexec, rfl, check_new_iff (fun _ => 0) hregular hexec rfl hopened.mode⟩

end DiskNexus.Index
