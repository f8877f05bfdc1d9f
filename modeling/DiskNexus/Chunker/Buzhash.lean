import DiskNexus.Lib.Binary
import Mathlib.Data.List.Rotate

/-!
# The rolling hash

The chunker slides a window of 48 bytes over the stream and keeps its Buzhash, which one new byte
updates in constant time. The table is fixed, so that all agents cut at the same places.
-/

namespace DiskNexus.Chunking

open Binary

/-- `WindowSize`. -/
def windowSize : ℕ := 48

/-- `buzhashTable`. -/
def buzhashTable : Array UInt64 :=
  #[
    0x3baa3b06e53006d5, 0x26a2cff39a35dacf, 0xad634c50a322baa0, 0x14d4f1852ea88ee2,
    0xe98fef8ffe3a7731, 0x8bffc5b6a529dee3, 0xd8bf0e62ffaa7680, 0x7f59a97ce6a938ed,
    0xf398be12401d09bd, 0x111567b5799af9d0, 0x220678257cce18ad, 0x56c06bb7628fe94f,
    0xe6887c37f0487d1a, 0x95578a2755144caa, 0x42b3736ee6666688, 0x0138c89c1275c1b3,
    0xbebe1d7c5f498f46, 0x5e971bbc40d59ede, 0x7584315f4761c786, 0x363f451a97976c88,
    0xdec3d8d5c061694c, 0x7abcac0d68d1b4e1, 0x4efc30461aa5f255, 0x0bc1d498a2ac9199,
    0xa9018fa09eb24ce7, 0xba7b037b10d0d0d4, 0x9f52044c476ecebc, 0x8ec70fd439175642,
    0x86c254c538bd2d3a, 0x5fdc4bfe9d4ca720, 0x9dc50039342e989c, 0xb50991189133701f,
    0x08fe79eb0bfca1a0, 0xe8a405f758379852, 0x50b9e20e8ccdb2b9, 0x656ef30459d31589,
    0x812cbc1fe7b3a289, 0x7ccf558c9cdd966e, 0x831f903692a915dd, 0x7ba94244bf15cfde,
    0x876ce924caec688b, 0x64bb925a15052997, 0xe8e98978a9dbf0f3, 0x3c234bc3ff7f049d,
    0x65b6c056c0a17748, 0xc91071fb19a7fd0a, 0xab891af63b3eb680, 0x79539bdf6cfb955b,
    0x0983284fa53cc963, 0xfeda7162b74762e8, 0x36b9d53c3c718556, 0x3798b034e38faac3,
    0x11e4795e4a7e5fbe, 0xcf3bf04f31e1f0ba, 0x59fdc1ac06bc396f, 0xebaad587cad64edd,
    0xd351d42da4a400a4, 0x7d8eadb5ce71763a, 0xe0f714a278189b43, 0x156c4a974ce12df9,
    0x41824b39e5c72b3e, 0xf57aa9f4c789b164, 0x3448448d4bfce4ba, 0x1705e2f9e84cb888,
    0x67362829f6db729d, 0x9e68c15800876ab6, 0x60260fb15c39a8de, 0xd9845b9e002fdb7d,
    0xc36a590e415edb05, 0x3dffa480a9a795d3, 0x12dd71ad8c04b8d7, 0x4747ff26e8254978,
    0x39b70e17bcfec518, 0x829b36df0d6eb9dd, 0x3dd2a0c0df4dcfed, 0xc83d0399d21541a1,
    0x9e78c35a06f11870, 0x4dac508e48982745, 0x863dcd644765cb77, 0x8858e54e86508b84,
    0x7866a11713a75078, 0x91be666de56c6ca2, 0x0af6fcd55b46f8e8, 0x09b9a93bf8a0deb7,
    0x0ffc2c265c6580c2, 0x9bb290c59f9af4b0, 0xadf3e3a40911fbc9, 0x954505d63ec8d9dd,
    0xbc0d99977f753017, 0x5a820a9e5de62c4f, 0x8d6b63f042837871, 0xbc49592448773e82,
    0xdd9b184e16459f44, 0x9576abae5b53ac90, 0x49f86a561e0d5482, 0x77dfbb12dd29ab53,
    0x95a4cb375f0b9905, 0xcb78bb2324fa9a95, 0x7798a3f689feb3ec, 0x410afd4f975f0bcb,
    0xe745ad6fb90b0520, 0xdcf52b8fa59d6914, 0x80eb54862053cdc3, 0xcd640d5aada1656f,
    0x9a3f005014d9fff9, 0xbf4b8a4a28d8f54e, 0xfa621fe195dceaf3, 0x986740462fd0b47a,
    0xb5f6026aa5c6c80f, 0x9d0d1df4bec57b15, 0xafaa7f4f05953549, 0xe3416c39eaaf6387,
    0xf8f2ea52b343ea6e, 0x5f71e6e0b1ef9ff9, 0x99b6a6491d8cbb29, 0xbe2d0e8bbcdc995a,
    0x977e45bd0b878142, 0x77a38465dbcf5b24, 0xf3c3303c57fd4443, 0xead8f7cf37140dd6,
    0x068d2c32494fae96, 0xeb8247ebdd6bd48c, 0xc68667a6d384e1d6, 0x01e870a06ae76238,
    0x92320db97a7dacd3, 0x8dbc63155c761e0f, 0xcad42c9db3ae8634, 0x9fb0d5a99cb7c805,
    0xf616598a0da20a1c, 0xff9ed17c7a80ee82, 0xe42887eab9e16c62, 0x5b0ab5214b194250,
    0x460b5818c2aafd1c, 0xbaa3b642b5526ad1, 0x3b33b6532eea4f02, 0xc7853507c864d712,
    0x59be639f17db35dc, 0xb7bc7efc3fbd038c, 0x0868afeb19311354, 0x62e4654e9f6ed6ea,
    0x625a08e3d7145480, 0xa7042f7d68970b63, 0x8eebe6d6b417ce53, 0x1fd7f9a8d184a01a,
    0x291a21d8827077dd, 0x97e51d7eaba73e23, 0x1b074fc28ab5fb2b, 0x0cffce83da5f971c,
    0x137386528de80fbf, 0x8b0fe0f1714f0222, 0xe0dd0613ed01890c, 0x2636793352ff02ca,
    0xe9347c9fe5fe97f1, 0x86bfb8a76ed3b38d, 0x002ba8e54cd1d5f4, 0x757f4d0e19e4e2bb,
    0xd803f2c3cbd0d715, 0x75303caf43552368, 0x5ea30e04b02efa68, 0xf566330f3d986ef0,
    0xbc2e84eb29c2dcf3, 0xe301d9f97009bff1, 0x232dc6160f7daa6d, 0x215189c44118d698,
    0x455f9d5889bbd7d1, 0x66c7920e08bc5af0, 0x3da6f713ec639dea, 0x16c381e259ced4f9,
    0x313a501aa6a22b41, 0xf75ad9d2e0e9e95d, 0x6228044889be9c74, 0xaf5f7ce94acb7000,
    0x7dae331730a6f826, 0xc1d1673dc55ccf5a, 0xb047cdd51ce60505, 0x2b7b32bd86964a3a,
    0xbd91860084990f0d, 0xde4684af27bbffc8, 0xe9d13502591a7861, 0xbe4c234abdd1b91e,
    0xdae0396b596c15e2, 0xbe1534ea67e6953c, 0xa52deeebe239fc64, 0xb22a8d5fd5025775,
    0x4d7f772c2a81112b, 0xf3662c2e5f4ecc94, 0xd49e6f21b3d51468, 0xb3d2b7bfd0778b73,
    0xa8dfa72eb385e7cf, 0xca2993cdd4cd9e1b, 0x11d1f8893d1ae232, 0xb796856ff760c7f3,
    0x7436c06d19609493, 0x889b5c36e5fbe463, 0xa5549f24267e0b5d, 0x0f025d1b7df54570,
    0x2a9aeb8235d1937a, 0x9e532e9975b3dadd, 0x16c43e2c7c6d4fca, 0xf0205c72205b048a,
    0x0a70179af06187fd, 0x64d1c25a7275ccd8, 0x582ad2deea92fef7, 0x947e20ab8f3b3539,
    0x12c14dc698352d76, 0xc1883099576dac83, 0x632c622ca3657300, 0xf15f918dbc2b44bf,
    0x196d667b878f060c, 0xff125ab093c7eb1f, 0x8113f44fbbd71444, 0xbefe10b7cd72074f,
    0xd9f1cf67fbfbcc87, 0xc28a6c3862fef64f, 0xbfa2502b129f1f8c, 0xc367e0832675da0d,
    0xb13db00ec13661ca, 0x8394b74aa78490f5, 0x0b54515b86a54f16, 0xd570deee316304aa,
    0xef891aa5ed4b1798, 0x015767cd17e31512, 0xf7796e2ca2a42264, 0x170db4ee45c37011,
    0xbb6c78a0005609a5, 0xb2dcd901179f3fdd, 0x4dc12fead69c4dc8, 0x58027bf32c2c558d,
    0xa31777288865c137, 0x8a6440e8ca167031, 0x25174b3bc4fced67, 0xaaecdd6ee35a4a3e,
    0xd17dbd31a42bf0de, 0xa73d95333c77b68f, 0x87e205655fa3db4d, 0x36ad4a91d10c573e,
    0xab269f2d05e7f57d, 0xa8d187d641362fb6, 0x6a0888ee6fb9d9c6, 0x66b17d668588fcac,
    0xb38de093279ecdc7, 0x76372fb952d412d8, 0x61252ccac560ab99, 0xecc11b28c56d5fa6,
    0x250bed225a2186f9, 0xba44cbdf96e584c5, 0xdb0bd46a114429d5, 0x08b70448e34649ef,
    0x5c2adda84cc637ce, 0xb6709386e078d8e9, 0x4bb6f2af4257352c, 0xe2e07cdfb87796a8,
    0x4042012e3e860666, 0xf97865d6b9886b72, 0x4ea5aa73962aff1f, 0x9a4226129919d41b]

/-- The table at a byte. -/
def tableAt (b : UInt8) : UInt64 := buzhashTable.getD b.toNat 0

/-- `rotateLeft`. A rotation by zero shifts right by 64, which is zero in the source and the value
itself here; either way the result is the value. -/
def rotateLeft (val : UInt64) (n : ℕ) : UInt64 :=
  let s : UInt64 := UInt64.ofNat (n % 64)
  (val <<< s) ||| (val >>> (64 - s))

/-- The rolling hash: a ring of bytes, the place of the oldest, and the hash. -/
structure Buzhash where
  window : Vector UInt8 windowSize
  windowPos : Fin windowSize
  hash : UInt64

namespace Buzhash

/-- `zeroWindowHash`, the hash of a window of zeros. -/
def zeroWindowHash : UInt64 :=
  (List.range windowSize).foldl (fun h i => h ^^^ rotateLeft (tableAt 0) (windowSize - 1 - i)) 0

/-- The rolling hash of a new chunker. -/
def new : Buzhash := ⟨Vector.replicate windowSize 0, ⟨0, by decide⟩, zeroWindowHash⟩

/-- `updateHash`. -/
def update (z : Buzhash) (b : UInt8) : Buzhash where
  window := z.window.set z.windowPos b
  windowPos := ⟨(z.windowPos + 1) % windowSize, Nat.mod_lt _ (by decide)⟩
  hash := rotateLeft z.hash 1 ^^^ rotateLeft (tableAt z.window[z.windowPos]) windowSize ^^^
    tableAt b

end Buzhash

/-! ## The hash of a window -/

/-- The bits of a rotated word. -/
lemma testBit_rotateLeft (x : UInt64) (n : ℕ) {i : ℕ} (hi : i < 64) :
    (rotateLeft x n).toNat.testBit i = x.toNat.testBit ((i + 64 - n % 64) % 64) := by
  have hs : (UInt64.ofNat (n % 64)).toNat = n % 64 :=
    UInt64.toNat_ofNat_of_lt' (by simp [UInt64.size]; omega)
  have hsub : (64 - UInt64.ofNat (n % 64)).toNat = 64 - n % 64 := by
    have hle : UInt64.ofNat (n % 64) ≤ 64 := by
      rw [UInt64.le_iff_toNat_le, hs]
      exact (Nat.mod_lt _ (by decide)).le
    rw [UInt64.toNat_sub_of_le _ _ hle, hs]
    rfl
  simp only [rotateLeft, UInt64.toNat_or, UInt64.toNat_shiftLeft, UInt64.toNat_shiftRight, hs, hsub,
    Nat.testBit_or, Nat.testBit_mod_two_pow, Nat.testBit_shiftLeft, Nat.testBit_shiftRight, hi]
  rcases Nat.lt_or_ge i (n % 64) with hlt | hge
  · have hindex : (i + 64 - n % 64) % 64 = 64 - n % 64 + i := by omega
    have hshift : (64 - n % 64) % 64 = 64 - n % 64 := by omega
    simp [hindex, hshift]
    omega
  · rcases Nat.eq_zero_or_pos (n % 64) with hzero | hpos
    · simp [hzero, Nat.mod_eq_of_lt hi]
    · have hindex : (i + 64 - n % 64) % 64 = i - n % 64 := by omega
      have hshift : (64 - n % 64) % 64 = 64 - n % 64 := by omega
      have hbig : x.toNat.testBit (64 - n % 64 + i) = false :=
        Nat.testBit_lt_two_pow (x.toNat_lt.trans_le (Nat.pow_le_pow_right (by decide) (by omega)))
      rw [hindex, hshift, hbig]
      simp [hge]

lemma eq_of_testBit {x y : UInt64} (h : ∀ i < 64, x.toNat.testBit i = y.toNat.testBit i) : x = y :=
  UInt64.toBitVec_inj.1 (BitVec.eq_of_getLsbD_eq h)

lemma rotateLeft_zero (x : UInt64) : rotateLeft x 0 = x := by
  refine eq_of_testBit fun i hi => ?_
  rw [testBit_rotateLeft x 0 hi]
  congr 1
  omega

lemma rotateLeft_rotateLeft (x : UInt64) (n : ℕ) :
    rotateLeft (rotateLeft x n) 1 = rotateLeft x (n + 1) := by
  refine eq_of_testBit fun i hi => ?_
  rw [testBit_rotateLeft _ 1 hi, testBit_rotateLeft x n (by omega), testBit_rotateLeft x _ hi]
  congr 1
  omega

lemma rotateLeft_xor (x y : UInt64) :
    rotateLeft (x ^^^ y) 1 = rotateLeft x 1 ^^^ rotateLeft y 1 := by
  refine eq_of_testBit fun i hi => ?_
  simp [testBit_rotateLeft _ _ hi]

/-- The Buzhash of bytes: each is rotated by the number behind it. -/
def buzhash : Bytes → UInt64
  | [] => 0
  | b :: bytes => rotateLeft (tableAt b) bytes.length ^^^ buzhash bytes

lemma buzhash_snoc (bytes : Bytes) (b : UInt8) :
    buzhash (bytes ++ [b]) = rotateLeft (buzhash bytes) 1 ^^^ tableAt b := by
  induction bytes with
  | nil => simp [buzhash, rotateLeft_zero, show rotateLeft 0 1 = 0 from rfl]
  | cons a bytes ih =>
    rw [List.cons_append, buzhash, buzhash, ih, rotateLeft_xor, rotateLeft_rotateLeft,
      List.length_append, List.length_singleton, UInt64.xor_assoc]

/-- The last bytes of a stream behind a window of zeros. -/
def lastWindow (bytes : Bytes) : Bytes := (List.replicate windowSize 0 ++ bytes).drop bytes.length

lemma lastWindow_snoc (bytes : Bytes) (b : UInt8) :
    lastWindow (bytes ++ [b]) = (lastWindow bytes).tail ++ [b] := by
  rw [lastWindow, lastWindow, ← List.append_assoc, List.length_append, List.length_singleton,
    List.drop_append_of_le_length (by simp [windowSize]), List.tail_drop]

namespace Buzhash

/-- The window from its oldest byte on. -/
def contents (z : Buzhash) : Bytes := z.window.toList.rotate z.windowPos

/-- The state after some bytes. -/
structure Holds (z : Buzhash) (bytes : Bytes) : Prop where
  contents : z.contents = lastWindow bytes
  hash : z.hash = buzhash (lastWindow bytes)

lemma contents_eq (z : Buzhash) : z.contents = z.window[z.windowPos] :: z.contents.tail := by
  have hpos : (z.windowPos : ℕ) < z.window.toList.length := by simp
  rw [contents, List.rotate_eq_drop_append_take hpos.le, List.drop_eq_getElem_cons hpos]
  simp

lemma contents_update (z : Buzhash) (b : UInt8) :
    (z.update b).contents = z.contents.tail ++ [b] := by
  have hpos : (z.windowPos : ℕ) < z.window.toList.length := by simp
  have hmod :
    (z.update b).contents = (z.window.toList.set z.windowPos b).rotate (z.windowPos + 1) := by
    rw [← List.rotate_mod]
    simp [contents, update, Vector.toList_set]
  rw [hmod, contents, List.rotate_eq_drop_append_take (by simp),
    List.rotate_eq_drop_append_take hpos.le, List.drop_eq_getElem_cons hpos,
    List.drop_set_of_lt (Nat.lt_succ_self _), List.take_add_one, List.take_set_of_le le_rfl]
  simp

lemma Holds.new : new.Holds [] := ⟨by decide +kernel, by decide +kernel⟩

/-- **The rolling hash is the hash of the last window**: the oldest byte has gone round once. -/
lemma Holds.update {z : Buzhash} {bytes : Bytes} (h : z.Holds bytes) (b : UInt8) :
    (z.update b).Holds (bytes ++ [b]) := by
  refine ⟨by rw [contents_update, h.contents, lastWindow_snoc], ?_⟩
  have hcons := z.contents_eq
  have hlen : z.contents.tail.length + 1 = windowSize := by
    simpa [Buzhash.contents] using (congrArg List.length hcons).symm
  have hhash : z.hash = rotateLeft (tableAt z.window[z.windowPos]) z.contents.tail.length ^^^
      buzhash z.contents.tail := by
    rw [h.hash, ← h.contents, hcons, buzhash, List.tail_cons]
  rw [lastWindow_snoc, ← h.contents, buzhash_snoc, Buzhash.update, hhash, rotateLeft_xor,
    rotateLeft_rotateLeft, hlen, UInt64.xor_comm (rotateLeft _ windowSize),
    UInt64.xor_assoc (rotateLeft _ 1), UInt64.xor_self, UInt64.xor_zero]

end Buzhash

end DiskNexus.Chunking
