import AdaptiveSync.Messages

/-!
# Hashes

The rolling checksum `adler32`, computed alike by `DeltaSyncHandler::adler32` and
`client/src/hashing.rs`, and the server's two SHA-256 functions: `sha256_raw` followed by
`to_hex` in `file_manager.cpp`, and `DeltaSyncHandler::sha256_hex`. The last two run the
same compression and differ in how they print its state (`toHex_sha256Raw`).

The client's SHA-256 is the `sha2` crate. The protocol only ever compares digests, so the
models of both programs take the hash function as a parameter.
-/

namespace AdaptiveSync

/-! ### Adler-32 -/

/-- One byte of `adler32`. -/
def adler32Step (ab : UInt32 × UInt32) (byte : UInt8) : UInt32 × UInt32 :=
  let a := (ab.1 + byte.toUInt32) % 65521
  (a, (ab.2 + a) % 65521)

/-- `adler32`. -/
def adler32 (data : Bytes) : UInt32 :=
  let (a, b) := data.foldl adler32Step (1, 0)
  (b <<< 16) ||| a

/-! ### SHA-256 -/

namespace Sha256

/-- `SHA256_K`. -/
def K : List UInt32 := [
  0x428a2f98, 0x71374491, 0xb5c0fbcf, 0xe9b5dba5,
  0x3956c25b, 0x59f111f1, 0x923f82a4, 0xab1c5ed5,
  0xd807aa98, 0x12835b01, 0x243185be, 0x550c7dc3,
  0x72be5d74, 0x80deb1fe, 0x9bdc06a7, 0xc19bf174,
  0xe49b69c1, 0xefbe4786, 0x0fc19dc6, 0x240ca1cc,
  0x2de92c6f, 0x4a7484aa, 0x5cb0a9dc, 0x76f988da,
  0x983e5152, 0xa831c66d, 0xb00327c8, 0xbf597fc7,
  0xc6e00bf3, 0xd5a79147, 0x06ca6351, 0x14292967,
  0x27b70a85, 0x2e1b2138, 0x4d2c6dfc, 0x53380d13,
  0x650a7354, 0x766a0abb, 0x81c2c92e, 0x92722c85,
  0xa2bfe8a1, 0xa81a664b, 0xc24b8b70, 0xc76c51a3,
  0xd192e819, 0xd6990624, 0xf40e3585, 0x106aa070,
  0x19a4c116, 0x1e376c08, 0x2748774c, 0x34b0bcb5,
  0x391c0cb3, 0x4ed8aa4a, 0x5b9cca4f, 0x682e6ff3,
  0x748f82ee, 0x78a5636f, 0x84c87814, 0x8cc70208,
  0x90befffa, 0xa4506ceb, 0xbef9a3f7, 0xc67178f2]

/-- The eight working words. -/
structure State where
  a : UInt32
  b : UInt32
  c : UInt32
  d : UInt32
  e : UInt32
  f : UInt32
  g : UInt32
  h : UInt32
  deriving DecidableEq

/-- The words `h0` to `h7` before the first block. -/
def init : State :=
  ⟨0x6a09e667, 0xbb67ae85, 0x3c6ef372, 0xa54ff53a,
    0x510e527f, 0x9b05688c, 0x1f83d9ab, 0x5be0cd19⟩

/-- `rotr`. -/
def rotr (x n : UInt32) : UInt32 := (x >>> n) ||| (x <<< (32 - n))

/-- The padded buffer: zeros, the data copied to its front, `0x80` behind it, and the bit
length in the last eight bytes, written from the back. -/
def pad (data : Bytes) : Bytes :=
  let len := data.length
  let bitLen : UInt64 := UInt64.ofNat len * 8
  let paddedLen := ((len + 8) / 64 + 1) * 64
  let padded : Bytes := data ++ (List.replicate paddedLen 0).drop len
  let padded := padded.set len 0x80
  (List.range 8).foldl
    (fun p i => p.set (paddedLen - 1 - i) (bitLen >>> (UInt64.ofNat i * 8)).toUInt8) padded

/-- The big-endian word at byte `4 * i` of a block. -/
def word (block : Bytes) (i : ℕ) : UInt32 :=
  ((block.getD (4 * i) 0).toUInt32 <<< 24) ||| ((block.getD (4 * i + 1) 0).toUInt32 <<< 16)
    ||| ((block.getD (4 * i + 2) 0).toUInt32 <<< 8) ||| (block.getD (4 * i + 3) 0).toUInt32

/-- The message schedule `w` of a block. -/
def schedule (block : Bytes) : List UInt32 :=
  (List.range' 16 48).foldl
    (fun w i =>
      let w15 := w.getD (i - 15) 0
      let w2 := w.getD (i - 2) 0
      let s0 := rotr w15 7 ^^^ rotr w15 18 ^^^ (w15 >>> 3)
      let s1 := rotr w2 17 ^^^ rotr w2 19 ^^^ (w2 >>> 10)
      w ++ [w.getD (i - 16) 0 + s0 + w.getD (i - 7) 0 + s1])
    ((List.range 16).map (word block))

/-- One round. -/
def round (w : List UInt32) (s : State) (i : ℕ) : State :=
  let S1 := rotr s.e 6 ^^^ rotr s.e 11 ^^^ rotr s.e 25
  let ch := (s.e &&& s.f) ^^^ (~~~s.e &&& s.g)
  let temp1 := s.h + S1 + ch + K.getD i 0 + w.getD i 0
  let S0 := rotr s.a 2 ^^^ rotr s.a 13 ^^^ rotr s.a 22
  let maj := (s.a &&& s.b) ^^^ (s.a &&& s.c) ^^^ (s.b &&& s.c)
  let temp2 := S0 + maj
  ⟨temp1 + temp2, s.a, s.b, s.c, s.d + temp1, s.e, s.f, s.g⟩

/-- One block: sixty-four rounds, added to the words before it. -/
def compress (s : State) (block : Bytes) : State :=
  let r := (List.range 64).foldl (round (schedule block)) s
  ⟨s.a + r.a, s.b + r.b, s.c + r.c, s.d + r.d, s.e + r.e, s.f + r.f, s.g + r.g, s.h + r.h⟩

/-- The words after the last block. -/
def digest (data : Bytes) : State :=
  let padded := pad data
  (List.range (padded.length / 64)).foldl
    (fun s k => compress s ((padded.drop (64 * k)).take 64)) init

/-- The words in order. -/
def State.words (s : State) : List UInt32 := [s.a, s.b, s.c, s.d, s.e, s.f, s.g, s.h]

end Sha256

/-- The digits of both printers. -/
def hexChar (n : ℕ) : Char := "0123456789abcdef".toList.getD n '0'

/-- `sha256_raw`. -/
def sha256Raw (data : Bytes) : Bytes :=
  (Sha256.digest data).words.flatMap fun (v : UInt32) =>
    [(v >>> 24).toUInt8, (v >>> 16).toUInt8, (v >>> 8).toUInt8, v.toUInt8]

/-- `to_hex`. -/
def toHex (data : Bytes) : String :=
  String.ofList (data.flatMap fun (byte : UInt8) =>
    [hexChar (byte >>> 4).toNat, hexChar (byte &&& 0x0F).toNat])

/-- `DeltaSyncHandler::sha256_hex`. -/
def sha256Hex (data : Bytes) : String :=
  String.ofList ((Sha256.digest data).words.flatMap fun (v : UInt32) =>
    ([28, 24, 20, 16, 12, 8, 4, 0] : List UInt32).map fun k =>
      hexChar ((v >>> k) &&& 0xF).toNat)

/-- A digest has sixty-four digits. -/
theorem length_sha256Hex (d : Bytes) : (sha256Hex d).toList.length = 64 := by
  simp [sha256Hex, Sha256.State.words]

theorem sha256Hex_ne (d : Bytes) : sha256Hex d ≠ "" := by
  intro h
  have hlen := length_sha256Hex d
  rw [h] at hlen
  exact absurd hlen (by decide)

/-- The two hex digits of byte `k / 8` of a word are the word's digits at `k + 4` and
`k`. -/
theorem hexChar_byte (v : UInt32) {k : UInt32} (hk : k.toNat + 4 < 32) :
    [hexChar ((v >>> k).toUInt8 >>> 4).toNat, hexChar ((v >>> k).toUInt8 &&& 0x0F).toNat] =
      [hexChar ((v >>> (k + 4)) &&& 0xF).toNat, hexChar ((v >>> k) &&& 0xF).toNat] := by
  have hk4 : (k + 4).toNat = k.toNat + 4 := by
    rw [UInt32.toNat_add]
    exact Nat.mod_eq_of_lt (by simp; omega)
  have hand8 : ∀ x : UInt8, (x &&& 0x0F).toNat = x.toNat % 16 := fun x => by
    rw [UInt8.toNat_and]; exact Nat.and_two_pow_sub_one_eq_mod x.toNat 4
  have hand32 : ∀ x : UInt32, (x &&& 0xF).toNat = x.toNat % 16 := fun x => by
    rw [UInt32.toNat_and]; exact Nat.and_two_pow_sub_one_eq_mod x.toNat 4
  -- shifting the byte once more is shifting the word by four more
  have hhigh : ((v >>> k).toUInt8 >>> 4).toNat = ((v >>> (k + 4)) &&& 0xF).toNat := by
    calc ((v >>> k).toUInt8 >>> 4).toNat
        = (v.toNat >>> k.toNat % 256) >>> 4 := by
          rw [UInt8.toNat_shiftRight, UInt32.toNat_toUInt8, UInt32.toNat_shiftRight,
            Nat.mod_eq_of_lt (show k.toNat < 32 by omega)]
          rfl
      _ = (v.toNat >>> k.toNat) >>> 4 % 16 := by
          simp only [Nat.shiftRight_eq_div_pow]
          omega
      _ = ((v >>> (k + 4)) &&& 0xF).toNat := by
          rw [hand32, UInt32.toNat_shiftRight, hk4, Nat.mod_eq_of_lt hk, Nat.shiftRight_add]
  have hlow : ((v >>> k).toUInt8 &&& 0x0F).toNat = ((v >>> k) &&& 0xF).toNat := by
    rw [hand8, hand32, UInt32.toNat_toUInt8]
    omega
  rw [hhigh, hlow]

/-- The server's two SHA-256 functions print the same digest. -/
theorem toHex_sha256Raw (data : Bytes) : toHex (sha256Raw data) = sha256Hex data := by
  unfold toHex sha256Raw sha256Hex
  rw [List.flatMap_assoc]
  congr 1
  refine List.flatMap_congr fun v _ => ?_
  -- the four bytes of a word, high byte first, are its eight digits
  have h24 := hexChar_byte v (k := 24) (by decide)
  have h16 := hexChar_byte v (k := 16) (by decide)
  have h8 := hexChar_byte v (k := 8) (by decide)
  have h0 := hexChar_byte v (k := 0) (by decide)
  rw [show v >>> 0 = v from UInt32.shiftRight_zero] at h0
  simp only [List.flatMap_cons, List.flatMap_nil, h24, h16, h8, h0]
  rfl

end AdaptiveSync
