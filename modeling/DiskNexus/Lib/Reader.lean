import DiskNexus.Lib.Binary

/-!
# Readers of byte strings

A reader takes a value off the front of a byte string, or fails. A field is *read* by a reader if it
takes exactly that field, whatever follows it, and fails on every proper part of it. The rules below
put such fields one after the other.

## Main results

`Reads.bind`, `Reads.each`
-/

namespace Reading

open Binary

variable {α β ε : Type}

/-- How a read of a given number of bytes fails: with nothing left, or with too little. -/
inductive ReadError
  | eof
  | unexpectedEOF
  deriving DecidableEq

/-- The text of a failed read. -/
def ReadError.text : ReadError → String
  | .eof => "EOF"
  | .unexpectedEOF => "unexpected EOF"

/-- Readers: a value and the bytes behind it, or an error. -/
abbrev Reader (ε α : Type) := StateT Bytes (Except ε) α

/-- Take `n` bytes. -/
def readFull (n : ℕ) : Reader ReadError Bytes := fun bs =>
  if n ≤ bs.length then .ok (bs.take n, bs.drop n)
  else if bs = [] then .error .eof
  else .error .unexpectedEOF

/-- Take the number of a `w`-byte little-endian field. -/
def readUint (w : ℕ) : Reader ReadError ℕ := do
  let bs ← readFull w
  pure (ofLE bs)

/-- A reader with its errors put into another form. -/
def relabel (text : ReadError → ε) (rd : Reader ReadError α) : Reader ε α := fun bs =>
  (rd bs).mapError text

/-- Read `n` values in turn, the first one as number `i`. -/
def readEach (rd : ℕ → Reader ε α) : ℕ → ℕ → Reader ε (List α)
  | _, 0 => pure []
  | i, n + 1 => do
    let a ← rd i
    let as ← readEach rd (i + 1) n
    pure (a :: as)

/-- The reader takes `a` off `bs`, whatever follows, and fails on each cut of it. -/
structure Reads (rd : Reader ε α) (a : α) (bs : Bytes) : Prop where
  whole : ∀ rest, rd (bs ++ rest) = .ok (a, rest)
  cut : ∀ k < bs.length, ∃ e, rd (bs.take k) = .error e

variable {rd : Reader ε α} {f : α → Reader ε β} {bs : Bytes} {a : α}

/-! ## Sequencing -/

lemma bind_ok {rest : Bytes} (h : rd bs = .ok (a, rest)) : (rd >>= f) bs = f a rest := by
  change (rd bs >>= fun p => f p.1 p.2) = _
  rw [h]
  rfl

lemma bind_error {e : ε} (h : rd bs = .error e) : (rd >>= f) bs = .error e := by
  change (rd bs >>= fun p => f p.1 p.2) = _
  rw [h]
  rfl

/-- A cut of two parts lies in the first one, or leaves it whole. -/
lemma take_append_cases (bs bs' : Bytes) (k : ℕ) (hk : k < (bs ++ bs').length) :
    (k < bs.length ∧ (bs ++ bs').take k = bs.take k) ∨
      ∃ j, k = bs.length + j ∧ j < bs'.length ∧ (bs ++ bs').take k = bs ++ bs'.take j := by
  rw [List.length_append] at hk
  by_cases hlt : k < bs.length
  · exact .inl ⟨hlt, List.take_append_of_le_length (by omega)⟩
  · refine .inr ⟨k - bs.length, by omega, by omega, ?_⟩
    rw [List.take_append, List.take_of_length_le (by omega)]

lemma Reads.pure (a : α) : Reads (Pure.pure a : Reader ε α) a [] where
  whole _ := rfl
  cut k hk := absurd hk (Nat.not_lt_zero k)

/-- **Two fields in sequence.** -/
lemma Reads.bind {b : β} {bs' : Bytes} (h : Reads rd a bs) (h' : Reads (f a) b bs') :
    Reads (rd >>= f) b (bs ++ bs') where
  whole rest := by
    rw [List.append_assoc, bind_ok (h.whole _), h'.whole]
  cut k hk := by
    obtain ⟨hlt, heq⟩ | ⟨j, -, hj, heq⟩ := take_append_cases bs bs' k hk
    · obtain ⟨e, he⟩ := h.cut k hlt
      exact ⟨e, by rw [heq, bind_error he]⟩
    · obtain ⟨e, he⟩ := h'.cut j hj
      exact ⟨e, by rw [heq, bind_ok (h.whole _), he]⟩

/-- A field whose value is computed on. -/
lemma Reads.map (h : Reads rd a bs) (f : α → β) :
    Reads (do let x ← rd; Pure.pure (f x)) (f a) bs := by
  have := h.bind (f := fun x => (Pure.pure (f x) : Reader ε β)) (Reads.pure (f a))
  rwa [List.append_nil] at this

lemma Reads.relabel {rd : Reader ReadError α} (h : Reads rd a bs) (text : ReadError → ε) :
    Reads (relabel text rd) a bs where
  whole rest := by rw [Reading.relabel, h.whole]; rfl
  cut k hk := by
    obtain ⟨e, he⟩ := h.cut k hk
    exact ⟨text e, by rw [Reading.relabel, he]; rfl⟩

/-- **A counted list of fields.** -/
lemma Reads.each {rd : ℕ → Reader ε α} {enc : α → Bytes} {as : List α}
    (h : ∀ a ∈ as, ∀ i, Reads (rd i) a (enc a)) (i : ℕ) :
    Reads (readEach rd i as.length) as (as.flatMap enc) := by
  induction as generalizing i with
  | nil => exact Reads.pure []
  | cons a as ih =>
    have htail := ih (fun x hx => h x (.tail _ hx)) (i + 1)
    exact (h a (.head _) i).bind (htail.map fun as => a :: as)

/-! ## Fields -/

lemma readFull_append (bs rest : Bytes) : readFull bs.length (bs ++ rest) = .ok (bs, rest) := by
  rw [readFull, if_pos (by rw [List.length_append]; omega), List.take_left, List.drop_left]

/-- What a cut field gives: nothing at all, or too little. -/
lemma readFull_short {n : ℕ} (h : bs.length < n) :
    readFull n bs = .error (if bs.length = 0 then .eof else .unexpectedEOF) := by
  rw [readFull, if_neg (by omega)]
  simp only [List.length_eq_zero_iff]
  split <;> rfl

lemma reads_readFull (bs : Bytes) : Reads (readFull bs.length) bs bs where
  whole := readFull_append bs
  cut k hk := ⟨_, readFull_short (by rw [List.length_take]; omega)⟩

lemma readUint_append {w n : ℕ} (h : n < 256 ^ w) (rest : Bytes) :
    readUint w (le w n ++ rest) = .ok (n, rest) := by
  have hfull : readFull w (le w n ++ rest) = .ok (le w n, rest) := by
    have := readFull_append (le w n) rest
    rwa [length_le] at this
  rw [readUint, bind_ok hfull, ofLE_le h]
  rfl

lemma readUint_short {w : ℕ} (h : bs.length < w) :
    readUint w bs = .error (if bs.length = 0 then .eof else .unexpectedEOF) :=
  bind_error (readFull_short h)

lemma reads_readUint {w n : ℕ} (h : n < 256 ^ w) : Reads (readUint w) n (le w n) where
  whole := readUint_append h
  cut k hk := ⟨_, readUint_short (by rw [List.length_take]; rw [length_le] at hk ⊢; omega)⟩

end Reading
