import AdaptiveSync.Hash
import AdaptiveSync.Lib.Fips180
import Mathlib.Data.List.GetD

/-!
# The server's SHA-256 is SHA-256

`sha256_raw` and `DeltaSyncHandler::sha256_hex` work on a padded buffer of bytes and on
machine words. Each part is matched with the part of the standard it implements: the buffer
(`ofBytes_pad`), the words of a block (`toBitVec_word`), the schedule (`toBitVec_schedule`),
a round (`toWords_round`) and a block (`toWords_compress`). Together they give
`toWords_digest`, and with the printers `sha256Hex_eq_fips`.
-/

namespace AdaptiveSync

open BigEndian

namespace Sha256

/-! ### The padded buffer -/

/-- Writing the last cells from the back writes them in the reverse order. -/
theorem foldl_set_back (g : ℕ → UInt8) (n : ℕ) :
    ∀ xs : Bytes, (List.range n).foldl (fun p i => p.set (xs.length + n - 1 - i) (g i))
      (xs ++ List.replicate n 0) = xs ++ ((List.range n).map g).reverse := by
  induction n with
  | zero => intro xs; simp
  | succ n ih =>
    intro xs
    have hrest := ih (xs ++ [0])
    rw [List.length_append, List.length_singleton, List.append_assoc, List.singleton_append,
      ← List.replicate_succ, Nat.add_right_comm, Nat.add_assoc] at hrest
    rw [List.range_succ, List.foldl_append, hrest, List.map_append, List.reverse_append]
    simp

/-- The bytes of a number, from the back. -/
theorem be_eq_reverse (n : ℕ) :
    ∀ v, be n v = ((List.range n).map fun i => UInt8.ofNat (v / 256 ^ i)).reverse := by
  induction n with
  | zero => intro v; rfl
  | succ n ih =>
    intro v
    rw [be, ih, List.range_succ_eq_map, List.map_cons, List.reverse_cons, List.map_map]
    congr 3
    · funext i
      rw [Function.comp, pow_succ', Nat.div_div_eq_div_mul]
    · simp

/-- The bytes of the length. -/
theorem lengthByte (len : ℕ) {i : ℕ} (hi : i < 8) :
    ((UInt64.ofNat len * 8) >>> (UInt64.ofNat i * 8)).toUInt8 =
      UInt8.ofNat (8 * len / 256 ^ i) := by
  have hshift : (UInt64.ofNat i * 8).toNat % 64 = 8 * i := by
    rw [UInt64.toNat_mul, UInt64.toNat_ofNat']
    simp
    omega
  apply UInt8.toNat_inj.mp
  rw [UInt64.toNat_toUInt8, UInt64.toNat_shiftRight, hshift, UInt8.toNat_ofNat', UInt64.toNat_mul,
    UInt64.toNat_ofNat', Nat.shiftRight_eq_div_pow, pow_mul]
  have height : (8 : UInt64).toNat = 8 := rfl
  rw [height]
  -- reducing modulo `2 ^ 64` leaves eight bytes, and this is one of them
  obtain rfl | rfl | rfl | rfl | rfl | rfl | rfl | rfl : i = 0 ∨ i = 1 ∨ i = 2 ∨ i = 3 ∨ i = 4 ∨
      i = 5 ∨ i = 6 ∨ i = 7 := by omega
  all_goals omega

/-- The padded buffer is the padding of the standard. -/
theorem ofBytes_pad (data : Bytes) :
    Fips180.ofBytes (pad data) = Fips180.pad (Fips180.ofBytes data) := by
  obtain ⟨z, hz, hlen⟩ : ∃ z < 64, ((data.length + 8) / 64 + 1) * 64 = data.length + 9 + z :=
    ⟨63 - (data.length + 8) % 64, by omega, by omega⟩
  have hzeros : (List.replicate (data.length + 9 + z) (0 : UInt8)).drop data.length =
      0 :: List.replicate z 0 ++ List.replicate 8 0 := by
    rw [List.drop_replicate, show data.length + 9 + z - data.length = 1 + z + 8 by omega,
      List.replicate_add, List.replicate_add]
    rfl
  have hbytes : (List.range 8).map
      (fun i => ((UInt64.ofNat data.length * 8) >>> (UInt64.ofNat i * 8)).toUInt8) =
        (List.range 8).map fun i => UInt8.ofNat (8 * data.length / 256 ^ i) :=
    List.map_congr_left fun i hi => lengthByte data.length (List.mem_range.mp hi)
  have hback := foldl_set_back
    (fun i => ((UInt64.ofNat data.length * 8) >>> (UInt64.ofNat i * 8)).toUInt8) 8
    (data ++ 0x80 :: List.replicate z 0)
  have hend : (data ++ 0x80 :: List.replicate z 0).length + 8 = data.length + 9 + z := by
    rw [List.length_append, List.length_cons, List.length_replicate]
    omega
  have hmark : (data ++ (0 :: List.replicate z 0 ++ List.replicate 8 0)).set data.length 0x80 =
      data ++ 0x80 :: List.replicate z 0 ++ List.replicate 8 0 := by simp
  rw [hbytes, ← be_eq_reverse, hend, ← hmark, ← hzeros, ← hlen] at hback
  calc Fips180.ofBytes (pad data)
      = Fips180.ofBytes (data ++ 0x80 :: List.replicate z 0 ++ be 8 (8 * data.length)) :=
        congrArg Fips180.ofBytes hback
    _ = Fips180.pad (Fips180.ofBytes data) := (Fips180.pad_ofBytes hz (by omega)).symm

/-! ### Words -/

theorem toBitVec_rotr (x n : UInt32) (h0 : 0 < n.toNat) (hn : n.toNat < 32) :
    (rotr x n).toBitVec = x.toBitVec.rotateRight n.toNat := by
  have hn' : n.toBitVec.toNat < 32 := hn
  have hsub : (32 - n).toNat % 32 = 32 - n.toNat := by
    rw [UInt32.toNat_sub_of_le _ _ (UInt32.le_iff_toNat_le.mpr (by simpa using hn.le))]
    exact Nat.mod_eq_of_lt (by simp; omega)
  rw [rotr, BitVec.rotateRight_def, Nat.mod_eq_of_lt hn]
  apply BitVec.eq_of_toNat_eq
  simp only [UInt32.toBitVec_or, BitVec.toNat_or, UInt32.toNat_toBitVec, UInt32.toNat_shiftRight,
    UInt32.toNat_shiftLeft, BitVec.toNat_ushiftRight, BitVec.toNat_shiftLeft, hsub,
    Nat.mod_eq_of_lt hn]

/-- Four bytes put together are the number they stand for. -/
theorem toNat_be32 (b0 b1 b2 b3 : UInt8) :
    ((b0.toUInt32 <<< 24) ||| (b1.toUInt32 <<< 16) ||| (b2.toUInt32 <<< 8) |||
      b3.toUInt32).toNat = ofBe [b0, b1, b2, b3] := by
  have h0 := b0.toNat_lt
  have h1 := b1.toNat_lt
  have h2 := b2.toNat_lt
  have h3 := b3.toNat_lt
  have hw0 : (b0.toUInt32 <<< 24).toNat = b0.toNat <<< 24 := by
    simp [UInt32.toNat_shiftLeft, Nat.shiftLeft_eq]
    omega
  have hw1 : (b1.toUInt32 <<< 16).toNat = b1.toNat <<< 16 := by
    simp [UInt32.toNat_shiftLeft, Nat.shiftLeft_eq]
    omega
  have hw2 : (b2.toUInt32 <<< 8).toNat = b2.toNat <<< 8 := by
    simp [UInt32.toNat_shiftLeft, Nat.shiftLeft_eq]
    omega
  have hw3 : b3.toUInt32.toNat = b3.toNat := UInt8.toNat_toUInt32 b3
  -- each byte lies below the bits of those before it, so the ors add up
  have hlow : b2.toNat <<< 8 ||| b3.toNat = b2.toNat * 2 ^ 8 + b3.toNat := by
    rw [← Nat.shiftLeft_add_eq_or_of_lt h3, Nat.shiftLeft_eq]
  have hmid : b1.toNat <<< 16 ||| (b2.toNat * 2 ^ 8 + b3.toNat) =
      b1.toNat * 2 ^ 16 + (b2.toNat * 2 ^ 8 + b3.toNat) := by
    rw [← Nat.shiftLeft_add_eq_or_of_lt (by omega), Nat.shiftLeft_eq]
  have hhigh : b0.toNat <<< 24 ||| (b1.toNat * 2 ^ 16 + (b2.toNat * 2 ^ 8 + b3.toNat)) =
      b0.toNat * 2 ^ 24 + (b1.toNat * 2 ^ 16 + (b2.toNat * 2 ^ 8 + b3.toNat)) := by
    rw [← Nat.shiftLeft_add_eq_or_of_lt (by omega), Nat.shiftLeft_eq]
  calc ((b0.toUInt32 <<< 24) ||| (b1.toUInt32 <<< 16) ||| (b2.toUInt32 <<< 8) |||
        b3.toUInt32).toNat
      = b0.toNat <<< 24 ||| (b1.toNat <<< 16 ||| (b2.toNat <<< 8 ||| b3.toNat)) := by
        rw [UInt32.toNat_or, UInt32.toNat_or, UInt32.toNat_or, hw0, hw1, hw2, hw3, Nat.or_assoc,
          Nat.or_assoc]
    _ = b0.toNat * 2 ^ 24 + (b1.toNat * 2 ^ 16 + (b2.toNat * 2 ^ 8 + b3.toNat)) := by
        rw [hlow, hmid, hhigh]
    _ = ofBe [b0, b1, b2, b3] := by
        simp only [ofBe, List.foldl_cons, List.foldl_nil]
        omega

/-- The word read from a block is the big-endian number of its four bytes. -/
theorem toBitVec_word {block : Bytes} {i : ℕ} (h : 4 * i + 4 ≤ block.length) :
    (word block i).toBitVec = BitVec.ofNat 32 (ofBe ((block.drop (4 * i)).take 4)) := by
  obtain ⟨b0, b1, b2, b3, rest, hbytes⟩ :
      ∃ b0 b1 b2 b3 rest, block.drop (4 * i) = b0 :: b1 :: b2 :: b3 :: rest := by
    have hlen : 4 ≤ (block.drop (4 * i)).length := by
      rw [List.length_drop]
      omega
    match block.drop (4 * i), hlen with
    | b0 :: b1 :: b2 :: b3 :: rest, _ => exact ⟨b0, b1, b2, b3, rest, rfl⟩
  have hget : ∀ k, block.getD (4 * i + k) 0 = (block.drop (4 * i)).getD k 0 := fun k => by
    simp [List.getD_eq_getElem?_getD]
  have hword : word block i = (b0.toUInt32 <<< 24) ||| (b1.toUInt32 <<< 16) |||
      (b2.toUInt32 <<< 8) ||| b3.toUInt32 := by
    rw [word, hget, hget, hget, show 4 * i = 4 * i + 0 from rfl, hget, Nat.add_zero, hbytes]
    rfl
  apply BitVec.eq_of_toNat_eq
  calc (word block i).toBitVec.toNat
      = ofBe [b0, b1, b2, b3] := by rw [hword, UInt32.toNat_toBitVec, toNat_be32]
    _ = ofBe [b0, b1, b2, b3] % 2 ^ 32 := by
        rw [← toNat_be32, Nat.mod_eq_of_lt (UInt32.toNat_lt _)]
    _ = (BitVec.ofNat 32 (ofBe ((block.drop (4 * i)).take 4))).toNat := by
        rw [BitVec.toNat_ofNat, hbytes]
        rfl

/-! ### The schedule -/

/-- Word `i` of the schedule is put behind those before it. -/
def extend (w : List UInt32) (i : ℕ) : List UInt32 :=
  let w15 := w.getD (i - 15) 0
  let w2 := w.getD (i - 2) 0
  let s0 := rotr w15 7 ^^^ rotr w15 18 ^^^ (w15 >>> 3)
  let s1 := rotr w2 17 ^^^ rotr w2 19 ^^^ (w2 >>> 10)
  w ++ [w.getD (i - 16) 0 + s0 + w.getD (i - 7) 0 + s1]

theorem schedule_eq (block : Bytes) :
    schedule block = (List.range' 16 48).foldl extend ((List.range 16).map (word block)) := rfl

theorem toBitVec_sigma0 (x : UInt32) :
    (rotr x 7 ^^^ rotr x 18 ^^^ (x >>> 3)).toBitVec = Fips180.sigma0 x.toBitVec := by
  rw [UInt32.toBitVec_xor, UInt32.toBitVec_xor, toBitVec_rotr x 7 (by decide) (by decide),
    toBitVec_rotr x 18 (by decide) (by decide)]
  rfl

theorem toBitVec_sigma1 (x : UInt32) :
    (rotr x 17 ^^^ rotr x 19 ^^^ (x >>> 10)).toBitVec = Fips180.sigma1 x.toBitVec := by
  rw [UInt32.toBitVec_xor, UInt32.toBitVec_xor, toBitVec_rotr x 17 (by decide) (by decide),
    toBitVec_rotr x 19 (by decide) (by decide)]
  rfl

/-- So many words of the schedule are there. -/
def Scheduled (m : ℕ → Fips180.Word) (w : List UInt32) (n : ℕ) : Prop :=
  w.length = n ∧ ∀ t < n, (w.getD t 0).toBitVec = Fips180.W m t

theorem Scheduled.extend {m : ℕ → Fips180.Word} {w : List UInt32} {n : ℕ} (h : Scheduled m w n)
    (hn : 16 ≤ n) : Scheduled m (extend w n) (n + 1) := by
  obtain ⟨hlen, hw⟩ := h
  refine ⟨by simp [Sha256.extend, hlen], fun t ht => ?_⟩
  obtain ht | rfl := Nat.lt_succ_iff_lt_or_eq.mp ht
  · rw [Sha256.extend, List.getD_append _ _ _ _ (by omega)]
    exact hw t ht
  · -- the new word follows the recurrence
    rw [Sha256.extend, List.getD_append_right _ _ _ _ (by omega), hlen, Nat.sub_self,
      Fips180.W, if_neg (by omega), ← hw (t - 2) (by omega), ← hw (t - 7) (by omega),
      ← hw (t - 15) (by omega), ← hw (t - 16) (by omega), ← toBitVec_sigma0, ← toBitVec_sigma1]
    simp only [List.getD_cons_zero, UInt32.toBitVec_add]
    ac_rfl

/-- The schedule of the standard. -/
theorem scheduled_schedule {block : Bytes} {m : ℕ → Fips180.Word}
    (hm : ∀ t < 16, (word block t).toBitVec = m t) : Scheduled m (schedule block) 64 := by
  have hinit : Scheduled m ((List.range 16).map (word block)) 16 := by
    refine ⟨by simp, fun t ht => ?_⟩
    rw [Fips180.W, if_pos ht, ← hm t ht, List.getD_eq_getElem?_getD, List.getElem?_map,
      List.getElem?_range ht]
    rfl
  have hfold : ∀ n, Scheduled m
      ((List.range' 16 n).foldl extend ((List.range 16).map (word block))) (16 + n) := by
    intro n
    induction n with
    | zero => exact hinit
    | succ n ih =>
      rw [List.range'_concat, List.foldl_append, Nat.one_mul]
      exact ih.extend (by omega)
  rw [schedule_eq]
  exact hfold 48

/-! ### Rounds and blocks -/

/-- The state in the words of the standard. -/
def State.toWords (s : State) : Fips180.Words :=
  ⟨s.a.toBitVec, s.b.toBitVec, s.c.toBitVec, s.d.toBitVec, s.e.toBitVec, s.f.toBitVec,
    s.g.toBitVec, s.h.toBitVec⟩

theorem toBitVec_K (i : ℕ) : (K.getD i 0).toBitVec = Fips180.K.getD i 0 := by
  have hK : K.map UInt32.toBitVec = Fips180.K := rfl
  rw [← hK]
  exact (List.getD_map K 0 UInt32.toBitVec).symm

theorem toBitVec_bigSigma0 (x : UInt32) :
    (rotr x 2 ^^^ rotr x 13 ^^^ rotr x 22).toBitVec = Fips180.bigSigma0 x.toBitVec := by
  rw [UInt32.toBitVec_xor, UInt32.toBitVec_xor, toBitVec_rotr x 2 (by decide) (by decide),
    toBitVec_rotr x 13 (by decide) (by decide), toBitVec_rotr x 22 (by decide) (by decide)]
  rfl

theorem toBitVec_bigSigma1 (x : UInt32) :
    (rotr x 6 ^^^ rotr x 11 ^^^ rotr x 25).toBitVec = Fips180.bigSigma1 x.toBitVec := by
  rw [UInt32.toBitVec_xor, UInt32.toBitVec_xor, toBitVec_rotr x 6 (by decide) (by decide),
    toBitVec_rotr x 11 (by decide) (by decide), toBitVec_rotr x 25 (by decide) (by decide)]
  rfl

theorem toWords_round {w : List UInt32} {w' : ℕ → Fips180.Word} {i : ℕ} (s : State)
    (hw : (w.getD i 0).toBitVec = w' i) :
    (round w s i).toWords = Fips180.round w' s.toWords i := by
  simp only [round, Fips180.round, State.toWords, UInt32.toBitVec_add, toBitVec_bigSigma0,
    toBitVec_bigSigma1, toBitVec_K, hw]
  rfl

/-- The words of block `k` of the padded buffer. -/
theorem toBitVec_word_block {P : Bytes} {k t : ℕ} (hk : 64 * k + 64 ≤ P.length) (ht : t < 16) :
    (word ((P.drop (64 * k)).take 64) t).toBitVec =
      Fips180.messageWord (Fips180.ofBytes P) k t := by
  have hlen : ((P.drop (64 * k)).take 64).length = 64 := by
    rw [List.length_take, List.length_drop]
    omega
  rw [toBitVec_word (by omega), Fips180.messageWord_ofBytes, List.drop_take, List.take_take,
    List.drop_drop, Nat.min_eq_left (by omega)]

/-- Sixty-four rounds are those of the standard. -/
theorem toWords_compress {P : Bytes} {k : ℕ} (s : State) (hk : 64 * k + 64 ≤ P.length) :
    (compress s ((P.drop (64 * k)).take 64)).toWords =
      Fips180.hashBlock s.toWords (Fips180.messageWord (Fips180.ofBytes P) k) := by
  have hsched := @scheduled_schedule ((P.drop (64 * k)).take 64) _
    fun t ht => toBitVec_word_block hk ht
  have hrounds : ∀ n ≤ 64, ((List.range n).foldl (round (schedule ((P.drop (64 * k)).take 64)))
      s).toWords = (List.range n).foldl
        (Fips180.round (Fips180.W (Fips180.messageWord (Fips180.ofBytes P) k))) s.toWords := by
    intro n hn
    induction n with
    | zero => rfl
    | succ n ih =>
      rw [List.range_succ, List.foldl_append, List.foldl_append, ← ih (by omega)]
      exact toWords_round _ (hsched.2 n (by omega))
  rw [compress, Fips180.hashBlock, ← hrounds 64 le_rfl]
  simp only [State.toWords, UInt32.toBitVec_add, BitVec.add_comm]

/-- **The server's digest is the one of the standard.** -/
theorem toWords_digest (data : Bytes) :
    (digest data).toWords = Fips180.sha256 (Fips180.ofBytes data) := by
  have hfold : ∀ n, 64 * n ≤ (pad data).length →
      ((List.range n).foldl (fun s k => compress s (((pad data).drop (64 * k)).take 64))
        init).toWords = (List.range n).foldl (fun H i => Fips180.hashBlock H
          (Fips180.messageWord (Fips180.ofBytes (pad data)) i)) Fips180.H0 := by
    intro n hn
    induction n with
    | zero => rfl
    | succ n ih =>
      rw [List.range_succ, List.foldl_append, List.foldl_append, ← ih (by omega)]
      exact toWords_compress _ (by omega)
  have hblocks : (pad data).length / 64 = (Fips180.ofBytes (pad data)).length / 512 := by
    rw [Fips180.length_ofBytes]
    omega
  rw [Fips180.sha256, ← ofBytes_pad, ← hblocks, digest]
  exact hfold _ (Nat.mul_div_le _ _)

end Sha256

/-! ### The printed digest -/

theorem hexChar_eq_digitChar {n : ℕ} (h : n < 16) : hexChar n = Nat.digitChar n := by
  revert h n
  decide

theorem hexChar_digit (v : UInt32) {k : UInt32} (hk : k.toNat < 32) :
    hexChar ((v >>> k) &&& 0xF).toNat =
      Nat.digitChar (v.toBitVec.extractLsb' k.toNat 4).toNat := by
  have hdigit : ((v >>> k) &&& 0xF).toNat = (v.toNat >>> k.toNat) % 16 := by
    rw [UInt32.toNat_and, UInt32.toNat_shiftRight, Nat.mod_eq_of_lt hk]
    exact Nat.and_two_pow_sub_one_eq_mod _ 4
  rw [BitVec.extractLsb'_toNat, UInt32.toNat_toBitVec, hdigit]
  exact hexChar_eq_digitChar (Nat.mod_lt _ (by decide))

/-- **The server prints the SHA-256 of the standard.** -/
theorem sha256Hex_eq_fips (data : Bytes) :
    sha256Hex data = (Fips180.sha256 (Fips180.ofBytes data)).hex := by
  have hwords : (Fips180.sha256 (Fips180.ofBytes data)).toList =
      (Sha256.digest data).words.map UInt32.toBitVec := by
    rw [← Sha256.toWords_digest]
    rfl
  rw [sha256Hex, Fips180.Words.hex, hwords, List.flatMap_map]
  congr 1
  refine List.flatMap_congr fun v _ => ?_
  simp only [List.map_cons, List.map_nil]
  rw [hexChar_digit v (by decide), hexChar_digit v (by decide), hexChar_digit v (by decide),
    hexChar_digit v (by decide), hexChar_digit v (by decide), hexChar_digit v (by decide),
    hexChar_digit v (by decide), hexChar_digit v (by decide)]
  rfl

-- The first example of the standard, the message "abc".
example : (Fips180.sha256 (Fips180.ofBytes [97, 98, 99])).hex =
    "ba7816bf8f01cfea414140de5dae2223b00361a396177a9cb410ff61f20015ad" := by
  rw [← sha256Hex_eq_fips]
  decide +kernel

end AdaptiveSync
