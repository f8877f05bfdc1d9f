import DiskNexus.Lib.Binary

/-!
# Chunk frames

A stored chunk is a frame: the payload length and the raw length as four-byte little-endian
fields, then the payload, which is the compressed and, under a key, encrypted chunk.

## Main results

`retrieveAt_eq_retrieveFromFrame`, `retrieveFromFrame_encodeFrame`
-/

namespace DiskNexus.Store

open Binary

/-- AES-256-GCM under one key and one domain tag, with the nonce as an argument. -/
structure Cipher where
  encryptWithAAD : Bytes → Bytes → Bytes
  decryptWithAAD : Bytes → Option Bytes

/-- The zstd encoder and decoder of a store, and its key if the repository is encrypted. -/
structure Codec where
  compress : Bytes → Bytes
  decompress : Bytes → Option Bytes
  key : Option Cipher

/-- The decoders invert the encoders. -/
structure Codec.Lawful (c : Codec) : Prop where
  decompress_compress : ∀ data, c.decompress (c.compress data) = some data
  decrypt_encrypt : ∀ k, c.key = some k → ∀ nonce data,
    k.decryptWithAAD (k.encryptWithAAD nonce data) = some data

/-- The payload of a chunk. -/
def Codec.encode (c : Codec) (nonce data : Bytes) : Bytes :=
  match c.key with
  | none => c.compress data
  | some k => k.encryptWithAAD nonce (c.compress data)

/-- The two ways a payload can fail to decode. -/
inductive DecodeError
  | decrypt
  | decompress
  deriving DecidableEq, Repr

/-- Decrypt if the repository has a key, then decompress. -/
def Codec.decode (c : Codec) (payload : Bytes) : Except DecodeError Bytes :=
  match c.key with
  | none => (c.decompress payload).elim (.error .decompress) .ok
  | some k =>
    match k.decryptWithAAD payload with
    | none => .error .decrypt
    | some compressed => (c.decompress compressed).elim (.error .decompress) .ok

/-- Decoding inverts encoding. -/
lemma Codec.Lawful.decode_encode {c : Codec} (hc : c.Lawful) (nonce data : Bytes) :
    c.decode (c.encode nonce data) = .ok data := by
  unfold Codec.decode Codec.encode
  cases hk : c.key with
  | none => simp [hc.decompress_compress]
  | some k => simp [hc.decrypt_encrypt k hk, hc.decompress_compress]

/-- A frame: payload length, raw length, payload. -/
def encodeFrame (payload : Bytes) (rawLen : ℕ) : Bytes :=
  le 4 payload.length ++ le 4 rawLen ++ payload

lemma length_encodeFrame (payload : Bytes) (rawLen : ℕ) :
    (encodeFrame payload rawLen).length = 8 + payload.length := by
  simp only [encodeFrame, List.length_append, length_le]

/-- The bound on a frame's stated payload length. -/
def maxChunkFrameLen : ℕ := 64 * 2 ^ 20

/-- The payload length a frame states. -/
def statedLen (frame : Bytes) : ℕ := ofLE (frame.take 4)

/-- `ChunkStore.RetrieveFromFrame`. -/
def retrieveFromFrame (c : Codec) (frame : Bytes) : Except String Bytes :=
  if frame.length < 8 then .error "frame too short"
  else if statedLen frame + 8 > frame.length then .error "frame payload length exceeds frame size"
  else
    match c.decode ((frame.drop 8).take (statedLen frame)) with
    | .ok data => .ok data
    | .error .decrypt => .error "decrypting chunk from frame"
    | .error .decompress => .error "decompressing chunk from frame"

/-- The part of `ChunkStore.Retrieve` that reads one frame of an open pack file. -/
def retrieveAt (c : Codec) (file : Bytes) (offset : ℕ) : Except String Bytes :=
  let header := (file.drop offset).take 8
  if header.length < 8 then .error s!"reading chunk header at offset {offset}"
  else if statedLen header > maxChunkFrameLen then
    .error "chunk frame exceeds the 67108864-byte bound: corrupt pack"
  else
    let payload := (file.drop (offset + 8)).take (statedLen header)
    if payload.length < statedLen header then .error "reading chunk data"
    else
      match c.decode payload with
      | .ok data => .ok data
      | .error .decrypt => .error "decrypting chunk"
      | .error .decompress => .error "decompressing chunk"

/-- The part of `ChunkStore.RetrieveRaw` that reads one frame. -/
def retrieveRawAt (file : Bytes) (offset : ℕ) : Except String Bytes :=
  let header := (file.drop offset).take 8
  if header.length < 8 then .error s!"reading chunk header at offset {offset}"
  else if statedLen header > maxChunkFrameLen then
    .error "chunk frame exceeds the 67108864-byte bound: corrupt pack"
  else
    let payload := (file.drop (offset + 8)).take (statedLen header)
    if payload.length < statedLen header then .error "reading chunk data"
    else .ok (header ++ payload)

/-- A frame whose payload length fits its field states it. -/
lemma statedLen_encodeFrame {payload : Bytes} (rawLen : ℕ) (h : payload.length < 2 ^ 32) :
    statedLen (encodeFrame payload rawLen) = payload.length := by
  have htake : (encodeFrame payload rawLen).take 4 = le 4 payload.length := by
    simp [encodeFrame]
  rw [statedLen, htake, ofLE_le (by simpa using h)]

/-- **A frame in a pack file** reads the same at its offset as from memory. -/
theorem retrieveAt_eq_retrieveFromFrame {c : Codec} {before frame after data : Bytes}
    (hread : retrieveFromFrame c frame = .ok data) (hbound : statedLen frame ≤ maxChunkFrameLen) :
    retrieveAt c (before ++ frame ++ after) before.length = .ok data := by
  unfold retrieveFromFrame at hread
  by_cases hshort : frame.length < 8
  · simp [hshort] at hread
  by_cases hlen : statedLen frame + 8 > frame.length
  · simp [hshort, hlen] at hread
  rw [if_neg hshort, if_neg hlen] at hread
  have hheader : ((before ++ frame ++ after).drop before.length).take 8 = frame.take 8 := by
    rw [List.append_assoc, List.drop_left, List.take_append_of_le_length (by omega)]
  have hstated : statedLen (frame.take 8) = statedLen frame := by
    simp [statedLen, List.take_take]
  have hpayload : ((before ++ frame ++ after).drop (before.length + 8)).take (statedLen frame) =
      (frame.drop 8).take (statedLen frame) := by
    rw [List.append_assoc, ← List.drop_drop, List.drop_left,
      List.drop_append_of_le_length (by omega), List.take_append_of_le_length]
    rw [List.length_drop]
    omega
  unfold retrieveAt
  simp only [hheader, hstated, hpayload]
  rw [if_neg (by simp; omega), if_neg (by omega), if_neg (by simp; omega)]
  cases hdec : c.decode ((frame.drop 8).take (statedLen frame)) with
  | ok d => simpa [hdec] using hread
  | error e => cases e <;> simp [hdec] at hread

/-- A raw frame is complete, and reads from the file as from memory. -/
lemma retrieveRawAt_ok {c : Codec} {file frame data : Bytes} {offset : ℕ}
    (h : retrieveRawAt file offset = .ok frame) :
    statedLen frame ≤ maxChunkFrameLen ∧ frame.length = 8 + statedLen frame ∧
      (retrieveAt c file offset = .ok data ↔ retrieveFromFrame c frame = .ok data) := by
  unfold retrieveRawAt at h
  simp only at h
  split at h
  · cases h
  split at h
  · cases h
  split at h
  · cases h
  cases h
  set header := (file.drop offset).take 8 with hh
  set payload := (file.drop (offset + 8)).take (statedLen header) with hp
  have hlen8 : header.length = 8 := by
    have : header.length ≤ 8 := by rw [hh]; exact List.length_take_le _ _
    omega
  have hlenp : payload.length = statedLen header := by
    have : payload.length ≤ statedLen header := by rw [hp]; exact List.length_take_le _ _
    omega
  have hstated : statedLen (header ++ payload) = statedLen header := by
    rw [statedLen, statedLen, List.take_append_of_le_length (by omega)]
  have hdrop : ((header ++ payload).drop 8).take (statedLen header) = payload := by
    rw [List.drop_left' hlen8, ← hlenp, List.take_length]
  refine ⟨by rw [hstated]; omega, by rw [hstated, List.length_append, hlen8, hlenp], ?_⟩
  unfold retrieveAt retrieveFromFrame
  simp only [← hh, ← hp, hstated, hdrop, List.length_append, hlen8, hlenp]
  rw [if_neg (by omega), if_neg (by omega), if_neg (by omega), if_neg (by omega), if_neg (by omega)]
  cases c.decode payload with
  | ok d => simp
  | error e => cases e <;> simp

/-- A complete frame is read where it lies. -/
lemma retrieveRawAt_append {before frame after : Bytes}
    (hbound : statedLen frame ≤ maxChunkFrameLen)
    (hlen : frame.length = 8 + statedLen frame) :
    retrieveRawAt (before ++ frame ++ after) before.length = .ok frame := by
  have hheader : ((before ++ frame ++ after).drop before.length).take 8 = frame.take 8 := by
    rw [List.append_assoc, List.drop_left, List.take_append_of_le_length (by omega)]
  have hstated : statedLen (frame.take 8) = statedLen frame := by
    simp [statedLen, List.take_take]
  have hpayload : ((before ++ frame ++ after).drop (before.length + 8)).take (statedLen frame) =
      frame.drop 8 := by
    rw [List.append_assoc, ← List.drop_drop, List.drop_left,
      List.drop_append_of_le_length (by omega), List.take_left' (by simp; omega)]
  unfold retrieveRawAt
  simp only [hheader, hstated, hpayload]
  rw [if_neg (by simp; omega), if_neg (by omega), if_neg (by simp; omega), List.take_append_drop]

/-- A frame of a chunk's payload reads back as the chunk. -/
theorem retrieveFromFrame_encodeFrame {c : Codec} {payload data : Bytes} (rawLen : ℕ)
    (h : payload.length < 2 ^ 32) (hdec : c.decode payload = .ok data) :
    retrieveFromFrame c (encodeFrame payload rawLen) = .ok data := by
  have hdrop : (encodeFrame payload rawLen).drop 8 = payload :=
    List.drop_left' (by simp)
  unfold retrieveFromFrame
  rw [statedLen_encodeFrame rawLen h, length_encodeFrame, hdrop, List.take_length, hdec]
  rw [if_neg (by omega), if_neg (by omega)]

end DiskNexus.Store
