import AdaptiveSync.Hash
import AdaptiveSync.Lib.RunningSum

/-!
# The rolling checksum

`adler32` is written once in C++, where 32-bit additions wrap around, and once in Rust, where
they panic in a build with overflow checks and wrap around in one without. `hashingAdler32`
is the loop of `client/src/hashing.rs` with every addition checked, and with the shift checked
for bits it would lose.

The sums of `Lib/RunningSum` are what the loop computes. They are reduced after every byte, so
no addition comes near 32 bits, however long the data is: both programs return the two sums
side by side, and the checksum of a concatenation comes from those of its parts
(`adler32_exact`).
-/

namespace AdaptiveSync

open RunningSum

/-! ### The loop with checks -/

/-- An addition of 32-bit words that has no result where it would wrap around. -/
def checkedAdd (x y : UInt32) : Option UInt32 :=
  if x.toNat + y.toNat < 2 ^ 32 then some (x + y) else none

/-- One byte of the loop of `hashing::adler32`. -/
def hashingAdler32Step (ab : UInt32 × UInt32) (byte : UInt8) : Option (UInt32 × UInt32) := do
  let a := (← checkedAdd ab.1 byte.toUInt32) % 65521
  let b := (← checkedAdd ab.2 a) % 65521
  return (a, b)

/-- `hashing::adler32`. -/
def hashingAdler32 (data : Bytes) : Option UInt32 := do
  let (a, b) ← data.foldlM hashingAdler32Step (1, 0)
  -- the second sum has to fit in the upper half
  if b.toNat < 2 ^ 16 then return (b <<< 16) ||| a else none

/-! ### What the loop computes -/

/-- The sums as numbers. -/
def sums (ab : UInt32 × UInt32) : ℕ × ℕ := (ab.1.toNat, ab.2.toNat)

/-- The bytes as numbers. -/
def items (data : Bytes) : List ℕ := data.map UInt8.toNat

/-- The checksum is made of the two sums. -/
def pack (s : ℕ × ℕ) : ℕ := 65536 * s.2 + s.1

/-- The sums of a checksum. -/
def unpack (checksum : ℕ) : ℕ × ℕ := (checksum % 65536, checksum / 65536)

/-- Both sums are reduced. -/
def Reduced (ab : UInt32 × UInt32) : Prop := ab.1.toNat < 65521 ∧ ab.2.toNat < 65521

section Loop

variable {ab : UInt32 × UInt32}

theorem checkedAdd_of_lt {x y : UInt32} (h : x.toNat + y.toNat < 2 ^ 32) :
    checkedAdd x y = some (x + y) := if_pos h

theorem toNat_add_mod {x y : UInt32} (h : x.toNat + y.toNat < 2 ^ 32) :
    ((x + y) % 65521).toNat = (x.toNat + y.toNat) % 65521 := by
  rw [UInt32.toNat_mod, UInt32.toNat_add, Nat.mod_eq_of_lt h]
  rfl

/-- **One byte.** Reduced sums leave room for it, so neither addition wraps around. -/
theorem adler32Step_of_reduced (h : Reduced ab) (byte : UInt8) :
    hashingAdler32Step ab byte = some (adler32Step ab byte) ∧
      sums (adler32Step ab byte) = step 65521 (sums ab) byte.toNat ∧
      Reduced (adler32Step ab byte) := by
  obtain ⟨ha, hb⟩ := h
  have hbyte : byte.toUInt32.toNat = byte.toNat := UInt8.toNat_toUInt32 byte
  have hbyte' := byte.toNat_lt
  have hfirst : ab.1.toNat + byte.toUInt32.toNat < 2 ^ 32 := by
    rw [hbyte]
    omega
  have ha' : ((ab.1 + byte.toUInt32) % 65521).toNat = (ab.1.toNat + byte.toNat) % 65521 := by
    rw [toNat_add_mod hfirst, hbyte]
  have hsecond : ab.2.toNat + ((ab.1 + byte.toUInt32) % 65521).toNat < 2 ^ 32 := by
    rw [ha']
    omega
  have hb' : ((ab.2 + (ab.1 + byte.toUInt32) % 65521) % 65521).toNat =
      (ab.2.toNat + (ab.1.toNat + byte.toNat) % 65521) % 65521 := by
    rw [toNat_add_mod hsecond, ha']
  refine ⟨?_, ?_, ?_, ?_⟩
  · simp only [hashingAdler32Step, checkedAdd_of_lt hfirst, checkedAdd_of_lt hsecond,
      Option.bind_eq_bind, Option.bind_some]
    rfl
  · exact Prod.ext ha' hb'
  · show ((ab.1 + byte.toUInt32) % 65521).toNat < 65521
    rw [ha']
    exact Nat.mod_lt _ (by decide)
  · show ((ab.2 + (ab.1 + byte.toUInt32) % 65521) % 65521).toNat < 65521
    rw [hb']
    exact Nat.mod_lt _ (by decide)

/-- All bytes. -/
theorem foldl_adler32Step (data : Bytes) :
    ∀ {ab : UInt32 × UInt32}, Reduced ab →
      data.foldlM hashingAdler32Step ab = some (data.foldl adler32Step ab) ∧
      sums (data.foldl adler32Step ab) = run 65521 (sums ab) (items data) ∧
      Reduced (data.foldl adler32Step ab) := by
  induction data with
  | nil => intro ab h; exact ⟨rfl, rfl, h⟩
  | cons byte data ih =>
    intro ab h
    obtain ⟨hchecked, hsums, hreduced⟩ := adler32Step_of_reduced h byte
    obtain ⟨hchecked', hsums', hreduced'⟩ := ih hreduced
    refine ⟨?_, ?_, hreduced'⟩
    · rw [List.foldlM_cons, hchecked]
      exact hchecked'
    · calc sums ((byte :: data).foldl adler32Step ab)
          = run 65521 (sums (adler32Step ab byte)) (items data) := hsums'
        _ = run 65521 (sums ab) (items (byte :: data)) := by
            rw [hsums]
            rfl

/-- Sums that fit in sixteen bits stand side by side. -/
theorem toNat_shift_or {a b : UInt32} (ha : a.toNat < 2 ^ 16) (hb : b.toNat < 2 ^ 16) :
    ((b <<< 16) ||| a).toNat = pack (a.toNat, b.toNat) := by
  have hshift : (b <<< 16).toNat = b.toNat <<< 16 := by
    rw [UInt32.toNat_shiftLeft]
    refine Nat.mod_eq_of_lt ?_
    show b.toNat <<< 16 < 2 ^ 32
    rw [Nat.shiftLeft_eq]
    omega
  calc ((b <<< 16) ||| a).toNat
      = b.toNat <<< 16 ||| a.toNat := by rw [UInt32.toNat_or, hshift]
    _ = b.toNat <<< 16 + a.toNat := (Nat.shiftLeft_add_eq_or_of_lt ha _).symm
    _ = pack (a.toNat, b.toNat) := by
        rw [Nat.shiftLeft_eq, pack]
        omega

end Loop

/-- The checksum is the run of the two sums, and no addition wraps around. -/
theorem adler32_eq_run (data : Bytes) :
    hashingAdler32 data = some (adler32 data) ∧
      (adler32 data).toNat = pack (run 65521 (1, 0) (items data)) := by
  have hstart : Reduced (1, 0) := ⟨by decide, by decide⟩
  obtain ⟨hchecked, hsums, ha, hb⟩ := foldl_adler32Step data hstart
  constructor
  · rw [hashingAdler32, hchecked, Option.bind_eq_bind, Option.bind_some]
    exact if_pos (by omega)
  · calc (adler32 data).toNat
        = pack (sums (data.foldl adler32Step (1, 0))) :=
          toNat_shift_or (by omega) (by omega)
      _ = pack (run 65521 (1, 0) (items data)) := congrArg pack hsums

theorem unpack_pack {s : ℕ × ℕ} (h : s.1 < 65521) : unpack (pack s) = s := by
  ext
  · show (65536 * s.2 + s.1) % 65536 = s.1
    omega
  · show (65536 * s.2 + s.1) / 65536 = s.2
    omega

/-- The standard combination formula: the checksum of a concatenation from the checksums of its
parts and the length of the second. -/
def adler32Combine (adler1 adler2 : UInt32) (len2 : ℕ) : ℕ :=
  pack (combine 65521 (unpack adler1.toNat) (unpack adler2.toNat) len2)

/-- **The rolling checksum is computed exactly.** No addition wraps around, in either program;
the checksum is the two sums modulo 65521 side by side; and the checksum of a concatenation
comes from those of its parts and the length of the second. -/
theorem adler32_exact (d : Bytes) :
    hashingAdler32 d = some (adler32 d) ∧
      (adler32 d).toNat =
        65536 * ((d.length + ∑ i : Fin d.length, (d.length - i) * d[i].toNat) % 65521) +
          (1 + (d.map UInt8.toNat).sum) % 65521 ∧
      ∀ y : Bytes,
        (adler32 (d ++ y)).toNat = adler32Combine (adler32 d) (adler32 y) y.length := by
  obtain ⟨hchecked, hrun⟩ := adler32_eq_run d
  refine ⟨hchecked, ?_, fun y => ?_⟩
  · have hweighted : weighted (items d) = ∑ i : Fin d.length, (d.length - i) * d[i].toNat := by
      unfold weighted items
      refine Fintype.sum_equiv (finCongr (List.length_map _)) _ _ fun i => ?_
      simp
    rw [hrun, run_one_zero (by decide), hweighted]
    simp [pack, items]
  · have hreduced : ∀ z : Bytes, (run 65521 (1, 0) (items z)).1 < 65521 := fun z =>
      (run_lt (by decide) (items z) (by decide) (by decide)).1
    have hitems : items (d ++ y) = items d ++ items y := List.map_append
    have hlength : (items y).length = y.length := List.length_map _
    rw [adler32Combine, (adler32_eq_run _).2, hrun, (adler32_eq_run y).2,
      unpack_pack (hreduced d), unpack_pack (hreduced y), hitems, run_append (by decide), hlength]

end AdaptiveSync
