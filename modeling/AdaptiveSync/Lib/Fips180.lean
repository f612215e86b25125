import AdaptiveSync.Lib.BigEndian
import Mathlib.Data.List.Induction

/-!
# SHA-256

The hash function of FIPS 180-4, on bit strings of any length and in the order of the
standard: bit strings (§3.1), functions and constants (§4), padding and parsing (§5), and
the computation (§6.2).

Programs hash bytes. The last section says what padding and parsing are on the bits of a
byte string: `pad_ofBytes` and `messageWord_ofBytes`.
-/

namespace Fips180

open BigEndian

/-! ### Bit strings and words -/

/-- Words have thirty-two bits, and are added modulo `2 ^ 32`. -/
abbrev Word := BitVec 32

/-- The bits of a word of any size, most significant first. -/
def bits {w : ℕ} (x : BitVec w) : List Bool := (List.range w).map x.getMsbD

/-- The number a bit string stands for. -/
def ofBits (l : List Bool) : ℕ := l.foldl (fun n b => n * 2 + b.toNat) 0

/-- The digits of a word. -/
def hexWord (x : Word) : List Char :=
  (List.range 8).map fun i => Nat.digitChar (x.extractLsb' (28 - 4 * i) 4).toNat

/-! ### Functions and constants -/

def Ch (x y z : Word) : Word := (x &&& y) ^^^ (~~~x &&& z)

def Maj (x y z : Word) : Word := (x &&& y) ^^^ (x &&& z) ^^^ (y &&& z)

/-- `Σ₀`. -/
def bigSigma0 (x : Word) : Word := x.rotateRight 2 ^^^ x.rotateRight 13 ^^^ x.rotateRight 22

/-- `Σ₁`. -/
def bigSigma1 (x : Word) : Word := x.rotateRight 6 ^^^ x.rotateRight 11 ^^^ x.rotateRight 25

/-- `σ₀`. -/
def sigma0 (x : Word) : Word := x.rotateRight 7 ^^^ x.rotateRight 18 ^^^ x >>> 3

/-- `σ₁`. -/
def sigma1 (x : Word) : Word := x.rotateRight 17 ^^^ x.rotateRight 19 ^^^ x >>> 10

/-- The first bits of the fractional parts of the cube roots of the first primes. -/
def K : List Word := [
  0x428a2f98, 0x71374491, 0xb5c0fbcf, 0xe9b5dba5, 0x3956c25b, 0x59f111f1, 0x923f82a4, 0xab1c5ed5,
  0xd807aa98, 0x12835b01, 0x243185be, 0x550c7dc3, 0x72be5d74, 0x80deb1fe, 0x9bdc06a7, 0xc19bf174,
  0xe49b69c1, 0xefbe4786, 0x0fc19dc6, 0x240ca1cc, 0x2de92c6f, 0x4a7484aa, 0x5cb0a9dc, 0x76f988da,
  0x983e5152, 0xa831c66d, 0xb00327c8, 0xbf597fc7, 0xc6e00bf3, 0xd5a79147, 0x06ca6351, 0x14292967,
  0x27b70a85, 0x2e1b2138, 0x4d2c6dfc, 0x53380d13, 0x650a7354, 0x766a0abb, 0x81c2c92e, 0x92722c85,
  0xa2bfe8a1, 0xa81a664b, 0xc24b8b70, 0xc76c51a3, 0xd192e819, 0xd6990624, 0xf40e3585, 0x106aa070,
  0x19a4c116, 0x1e376c08, 0x2748774c, 0x34b0bcb5, 0x391c0cb3, 0x4ed8aa4a, 0x5b9cca4f, 0x682e6ff3,
  0x748f82ee, 0x78a5636f, 0x84c87814, 0x8cc70208, 0x90befffa, 0xa4506ceb, 0xbef9a3f7, 0xc67178f2]

/-- Eight words: a hash value, or the working variables. -/
structure Words where
  a : Word
  b : Word
  c : Word
  d : Word
  e : Word
  f : Word
  g : Word
  h : Word

def Words.toList (s : Words) : List Word := [s.a, s.b, s.c, s.d, s.e, s.f, s.g, s.h]

/-- The initial hash value. -/
def H0 : Words :=
  ⟨0x6a09e667, 0xbb67ae85, 0x3c6ef372, 0xa54ff53a, 0x510e527f, 0x9b05688c, 0x1f83d9ab, 0x5be0cd19⟩

/-! ### Padding and parsing -/

/-- The number of zero bits: the least `k` with `l + 1 + k ≡ 448` modulo `512`. -/
def zeros (l : ℕ) : ℕ := (448 + 512 - (l + 1) % 512) % 512

/-- The message, a one bit, zero bits, and the length of the message in sixty-four bits. -/
def pad (M : List Bool) : List Bool :=
  M ++ true :: List.replicate (zeros M.length) false ++ bits (BitVec.ofNat 64 M.length)

/-- Word `t` of block `i` of a padded message. -/
def messageWord (padded : List Bool) (i t : ℕ) : Word :=
  BitVec.ofNat 32 (ofBits ((padded.drop (512 * i + 32 * t)).take 32))

/-! ### The computation -/

/-- The message schedule of a block with the words `m`. -/
def W (m : ℕ → Word) (t : ℕ) : Word :=
  if t < 16 then m t
  else sigma1 (W m (t - 2)) + W m (t - 7) + sigma0 (W m (t - 15)) + W m (t - 16)
termination_by t

/-- Round `t`. -/
def round (w : ℕ → Word) (s : Words) (t : ℕ) : Words :=
  let T1 := s.h + bigSigma1 s.e + Ch s.e s.f s.g + K.getD t 0 + w t
  let T2 := bigSigma0 s.a + Maj s.a s.b s.c
  ⟨T1 + T2, s.a, s.b, s.c, s.d + T1, s.e, s.f, s.g⟩

/-- The hash value after a block with the words `m`. -/
def hashBlock (H : Words) (m : ℕ → Word) : Words :=
  let s := (List.range 64).foldl (round (W m)) H
  ⟨s.a + H.a, s.b + H.b, s.c + H.c, s.d + H.d, s.e + H.e, s.f + H.f, s.g + H.g, s.h + H.h⟩

/-- **SHA-256.** -/
def sha256 (M : List Bool) : Words :=
  (List.range ((pad M).length / 512)).foldl (fun H i => hashBlock H (messageWord (pad M) i)) H0

/-- The digits of a hash value. -/
def Words.hex (s : Words) : String := String.ofList (s.toList.flatMap hexWord)

/-! ### Byte strings -/

/-- The bits of a byte string. -/
def ofBytes (d : List UInt8) : List Bool := d.flatMap fun b => bits b.toBitVec

@[simp] theorem length_bits {w : ℕ} (x : BitVec w) : (bits x).length = w := by simp [bits]

/-- A number is written as its high part followed by its low part. -/
theorem bits_ofNat_add (w k v : ℕ) :
    bits (BitVec.ofNat (w + k) v) =
      bits (BitVec.ofNat w (v / 2 ^ k)) ++ bits (BitVec.ofNat k v) := by
  simp only [bits, List.range_add, List.map_append, List.map_map]
  congr 1
  · refine List.map_congr_left fun i hi => ?_
    rw [List.mem_range] at hi
    simp only [BitVec.getMsbD, BitVec.getLsbD_ofNat, Nat.testBit_div_two_pow]
    have hlow : w - 1 - i + k = w + k - 1 - i := by omega
    simp [hlow, hi, show i < w + k by omega, show w + k - 1 - i < w + k by omega,
      show w - 1 - i < w by omega]
  · refine List.map_congr_left fun i hi => ?_
    rw [List.mem_range] at hi
    simp only [Function.comp, BitVec.getMsbD, BitVec.getLsbD_ofNat]
    have hlow : w + k - 1 - (w + i) = k - 1 - i := by omega
    simp [hlow, hi, show k - 1 - i < w + k by omega, show k - 1 - i < k by omega]

theorem ofBytes_append (d d' : List UInt8) : ofBytes (d ++ d') = ofBytes d ++ ofBytes d' :=
  List.flatMap_append

theorem ofBytes_cons (b : UInt8) (d : List UInt8) :
    ofBytes (b :: d) = bits b.toBitVec ++ ofBytes d :=
  rfl

@[simp] theorem length_ofBytes (d : List UInt8) : (ofBytes d).length = 8 * d.length := by
  induction d with
  | nil => rfl
  | cons b d ih =>
    rw [ofBytes_cons, List.length_append, length_bits, ih, List.length_cons]
    omega

theorem drop_ofBytes (n : ℕ) (d : List UInt8) : (ofBytes d).drop (8 * n) = ofBytes (d.drop n) := by
  by_cases hn : n ≤ d.length
  · conv_lhs => rw [← List.take_append_drop n d, ofBytes_append]
    rw [List.drop_left' (by rw [length_ofBytes, List.length_take, min_eq_left hn])]
  · rw [List.drop_eq_nil_of_le (by rw [length_ofBytes]; omega),
      List.drop_eq_nil_of_le (by omega)]
    rfl

theorem take_ofBytes (n : ℕ) (d : List UInt8) : (ofBytes d).take (8 * n) = ofBytes (d.take n) := by
  by_cases hn : n ≤ d.length
  · conv_lhs => rw [← List.take_append_drop n d, ofBytes_append]
    rw [List.take_left' (by rw [length_ofBytes, List.length_take, min_eq_left hn])]
  · rw [List.take_of_length_le (by rw [length_ofBytes]; omega), List.take_of_length_le (by omega)]

/-- The bytes of a number have its bits. -/
theorem bits_ofNat_eq_be (n v : ℕ) : bits (BitVec.ofNat (8 * n) v) = ofBytes (be n v) := by
  induction n generalizing v with
  | zero => rfl
  | succ n ih =>
    have hsplit := bits_ofNat_add (8 * n) 8 v
    rw [ih] at hsplit
    rw [be, ofBytes_append]
    exact hsplit

theorem ofBytes_replicate_zero (n : ℕ) :
    ofBytes (List.replicate n 0) = List.replicate (8 * n) false := by
  induction n with
  | zero => rfl
  | succ n ih =>
    rw [List.replicate_succ, ofBytes_cons, ih, Nat.mul_succ, Nat.add_comm, List.replicate_add]
    rfl

theorem ofBits_append_singleton (l : List Bool) (b : Bool) :
    ofBits (l ++ [b]) = ofBits l * 2 + b.toNat := by
  simp [ofBits]

/-- Reading back the bits of a number gives its low bits. -/
theorem ofBits_bits_ofNat (w v : ℕ) : ofBits (bits (BitVec.ofNat w v)) = v % 2 ^ w := by
  induction w generalizing v with
  | zero => simp [bits, ofBits, Nat.mod_one]
  | succ w ih =>
    have hlast : bits (BitVec.ofNat 1 v) = [v.testBit 0] := by
      change [(BitVec.ofNat 1 v).getLsbD 0] = _
      rw [BitVec.getLsbD_ofNat]
      rfl
    have hbit : (v.testBit 0).toNat = v % 2 := by
      rw [Nat.testBit_zero]
      obtain h | h := Nat.mod_two_eq_zero_or_one v <;> simp [h]
    calc ofBits (bits (BitVec.ofNat (w + 1) v))
        = v / 2 ^ 1 % 2 ^ w * 2 + v % 2 := by
          rw [bits_ofNat_add, hlast, ofBits_append_singleton, ih, hbit]
      _ = v % 2 ^ (w + 1) := by
          rw [pow_one, pow_succ', Nat.mod_mul]
          ring

theorem ofBits_append (l l' : List Bool) :
    ofBits (l ++ l') = ofBits l * 2 ^ l'.length + ofBits l' := by
  induction l' using List.reverseRecOn with
  | nil => simp [ofBits]
  | append_singleton l' b ih =>
    calc ofBits (l ++ (l' ++ [b]))
        = (ofBits l * 2 ^ l'.length + ofBits l') * 2 + b.toNat := by
          rw [← List.append_assoc, ofBits_append_singleton, ih]
      _ = ofBits l * 2 ^ (l'.length + 1) + (ofBits l' * 2 + b.toNat) := by ring
      _ = ofBits l * 2 ^ (l' ++ [b]).length + ofBits (l' ++ [b]) := by
          rw [ofBits_append_singleton, List.length_append, List.length_singleton]

/-- The bits of a byte string stand for the number of its bytes. -/
theorem ofBits_ofBytes (d : List UInt8) : ofBits (ofBytes d) = ofBe d := by
  induction d using List.reverseRecOn with
  | nil => rfl
  | append_singleton d b ih =>
    have hbyte : ofBits (ofBytes [b]) = b.toNat := by
      have hmod := ofBits_bits_ofNat 8 b.toNat
      rw [Nat.mod_eq_of_lt b.toNat_lt] at hmod
      rw [ofBytes_cons, show ofBytes [] = [] from rfl, List.append_nil, ← hmod]
      simp
    calc ofBits (ofBytes (d ++ [b]))
        = ofBe d * 2 ^ (8 * [b].length) + b.toNat := by
          rw [ofBytes_append, ofBits_append, hbyte, ih, length_ofBytes]
      _ = ofBe (d ++ [b]) := (ofBe_append_singleton d b).symm

/-- Padding on bytes: `0x80`, zero bytes up to eight bytes before the end of a block, and the
length. -/
theorem pad_ofBytes {d : List UInt8} {z : ℕ} (hz : z < 64) (hend : (d.length + 9 + z) % 64 = 0) :
    pad (ofBytes d) = ofBytes (d ++ 0x80 :: List.replicate z 0 ++ be 8 (8 * d.length)) := by
  have hzeros : zeros (8 * d.length) = 7 + 8 * z := by
    unfold zeros
    omega
  have hmark : bits (0x80 : UInt8).toBitVec = true :: List.replicate 7 false := by decide
  calc pad (ofBytes d)
      = ofBytes d ++ true :: (List.replicate 7 false ++ List.replicate (8 * z) false) ++
          bits (BitVec.ofNat 64 (8 * d.length)) := by
        rw [pad, length_ofBytes, hzeros, List.replicate_add]
    _ = ofBytes (d ++ 0x80 :: List.replicate z 0 ++ be 8 (8 * d.length)) := by
        rw [ofBytes_append, ofBytes_append, ofBytes_cons, ofBytes_replicate_zero, hmark,
          ← bits_ofNat_eq_be]
        rfl

/-- Parsing on bytes. -/
theorem messageWord_ofBytes (P : List UInt8) (i t : ℕ) :
    messageWord (ofBytes P) i t = BitVec.ofNat 32 (ofBe ((P.drop (64 * i + 4 * t)).take 4)) := by
  have hdrop : 512 * i + 32 * t = 8 * (64 * i + 4 * t) := by ring
  rw [messageWord, hdrop, drop_ofBytes, ← ofBits_ofBytes, ← take_ofBytes]

end Fips180
