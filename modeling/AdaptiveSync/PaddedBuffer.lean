import AdaptiveSync.Digest

/-!
# The padded buffer, with every access checked

`Sha256.digest` computes lengths and offsets as natural numbers, and reads `0` where it
reads past the end. Here the same code runs on `size_t` offsets that wrap around, and an access out
of range has no result. On data shorter than `2 ^ 61` bytes no offset wraps around and no
access fails: `digest?_eq`.

Both of the server's functions contain this code, once each.
-/

namespace AdaptiveSync

namespace Sha256

/-! ### Checked accesses -/

/-- `padded[i]`, read. -/
def load (buffer : Bytes) (i : UInt64) : Option UInt8 := buffer[i.toNat]?

/-- `padded[i]`, written. -/
def store (buffer : Bytes) (i : UInt64) (byte : UInt8) : Option Bytes :=
  if i.toNat < buffer.length then some (buffer.set i.toNat byte) else none

/-- `memcpy` to the front of a buffer. -/
def memcpy (buffer data : Bytes) : Option Bytes :=
  if data.length ≤ buffer.length then some (data ++ buffer.drop data.length) else none

/-! ### The code -/

/-- `padded_len`. -/
def paddedLength (len : UInt64) : UInt64 := ((len + 8) / 64 + 1) * 64

/-- The padded buffer. -/
def pad? (data : Bytes) : Option Bytes := do
  let len := UInt64.ofNat data.length
  let bitLen := len * 8
  let padded ← memcpy (List.replicate (paddedLength len).toNat 0) data
  let padded ← store padded len 0x80
  -- the length in bits, from its last byte to its first
  (List.range 8).foldlM
    (fun p i => store p (paddedLength len - 1 - UInt64.ofNat i)
      (bitLen >>> (UInt64.ofNat i * 8)).toUInt8) padded

/-- Word `i` of the block at `offset`. -/
def word? (padded : Bytes) (offset : UInt64) (i : ℕ) : Option UInt32 := do
  let b0 ← load padded (offset + UInt64.ofNat i * 4)
  let b1 ← load padded (offset + UInt64.ofNat i * 4 + 1)
  let b2 ← load padded (offset + UInt64.ofNat i * 4 + 2)
  let b3 ← load padded (offset + UInt64.ofNat i * 4 + 3)
  return (b0.toUInt32 <<< 24) ||| (b1.toUInt32 <<< 16) ||| (b2.toUInt32 <<< 8) ||| b3.toUInt32

/-- `w[i]`, from the words before it. -/
def extend? (w : List UInt32) (i : ℕ) : Option (List UInt32) := do
  let w15 ← w[i - 15]?
  let w2 ← w[i - 2]?
  let s0 := rotr w15 7 ^^^ rotr w15 18 ^^^ (w15 >>> 3)
  let s1 := rotr w2 17 ^^^ rotr w2 19 ^^^ (w2 >>> 10)
  let w16 ← w[i - 16]?
  let w7 ← w[i - 7]?
  return w ++ [w16 + s0 + w7 + s1]

/-- The message schedule of the block at `offset`. -/
def schedule? (padded : Bytes) (offset : UInt64) : Option (List UInt32) := do
  let w ← (List.range 16).foldlM (fun w i => (word? padded offset i).map fun x => w ++ [x]) []
  (List.range' 16 48).foldlM extend? w

/-- One round, which reads word `i` of `SHA256_K` and of the schedule. -/
def round? (w : List UInt32) (s : State) (i : ℕ) : Option State := do
  let _ ← K[i]?
  let _ ← w[i]?
  -- both are there, so `round` does not read past an end
  return round w s i

/-- The block at `offset`. -/
def compress? (padded : Bytes) (offset : UInt64) (s : State) : Option State := do
  let w ← schedule? padded offset
  let r ← (List.range 64).foldlM (round? w) s
  return ⟨s.a + r.a, s.b + r.b, s.c + r.c, s.d + r.d, s.e + r.e, s.f + r.f, s.g + r.g, s.h + r.h⟩

/-- The loop over the blocks, so many times at most. -/
def blocks? (padded : Bytes) (paddedLen : UInt64) : ℕ → UInt64 → State → Option State
  | 0, _, _ => none
  | fuel + 1, offset, s =>
    if offset < paddedLen then do
      let s ← compress? padded offset s
      blocks? padded paddedLen fuel (offset + 64) s
    else some s

/-- The words after the last block. -/
def digest? (data : Bytes) : Option State := do
  let padded ← pad? data
  blocks? padded (paddedLength (UInt64.ofNat data.length)) (padded.length + 1) 0 init

/-! ### Counted loops -/

/-- A loop whose every iteration succeeds, under an invariant of its counter. -/
theorem foldlM_range'_eq_some {σ : Type} (I : ℕ → σ → Prop) {f : σ → ℕ → Option σ}
    {g : σ → ℕ → σ} {n : ℕ} :
    ∀ {start : ℕ} {s : σ}, I start s →
      (∀ i s, start ≤ i → i < start + n → I i s → f s i = some (g s i) ∧ I (i + 1) (g s i)) →
      (List.range' start n).foldlM f s = some ((List.range' start n).foldl g s) ∧
        I (start + n) ((List.range' start n).foldl g s) := by
  induction n with
  | zero => intro start s hs _; exact ⟨rfl, hs⟩
  | succ n ih =>
    intro start s hs hstep
    obtain ⟨hf, hI⟩ := hstep start s le_rfl (by omega) hs
    have hrest := ih hI fun i s hi hn => hstep i s (by omega) (by omega)
    rw [List.range'_succ, List.foldlM_cons, hf, List.foldl_cons,
      show start + (n + 1) = start + 1 + n by omega]
    exact hrest

/-! ### Building the buffer -/

theorem toNat_ofNat {n : ℕ} (h : n < 2 ^ 64) : (UInt64.ofNat n).toNat = n :=
  UInt64.toNat_ofNat_of_lt' h

/-- Short of `2 ^ 61` bytes the padded length does not wrap around. -/
theorem toNat_paddedLength {n : ℕ} (h : n < 2 ^ 61) :
    (paddedLength (UInt64.ofNat n)).toNat = ((n + 8) / 64 + 1) * 64 := by
  rw [paddedLength, UInt64.toNat_mul, UInt64.toNat_add, UInt64.toNat_div, UInt64.toNat_add,
    toNat_ofNat (by omega)]
  simp
  omega

theorem length_pad (data : Bytes) : (pad data).length = ((data.length + 8) / 64 + 1) * 64 := by
  have hfold : ∀ (l : List ℕ) (f : ℕ → ℕ) (g : ℕ → UInt8) (p : Bytes),
      (l.foldl (fun p i => p.set (f i) (g i)) p).length = p.length := by
    intro l f g
    induction l with
    | nil => intro p; rfl
    | cons i l ih => intro p; rw [List.foldl_cons, ih, List.length_set]
  rw [pad, hfold, List.length_set, List.length_append, List.length_drop, List.length_replicate]
  omega

theorem store_eq {buffer : Bytes} {i : UInt64} {n : ℕ} (hi : i.toNat = n) (hn : n < buffer.length)
    (byte : UInt8) : store buffer i byte = some (buffer.set n byte) := by
  rw [store, hi, if_pos hn]

/-- Every cell the buffer is built with lies inside it. -/
theorem pad?_eq {data : Bytes} (h : data.length < 2 ^ 61) : pad? data = some (pad data) := by
  have hlen : (UInt64.ofNat data.length).toNat = data.length := toNat_ofNat (by omega)
  have hpadded := toNat_paddedLength h
  rw [pad?, pad, hpadded, List.range_eq_range']
  generalize hN : ((data.length + 8) / 64 + 1) * 64 = N at hpadded ⊢
  have hroom : data.length + 9 ≤ N := by omega
  have hfits : N < 2 ^ 62 := by omega
  have hcopy : memcpy (List.replicate N 0) data =
      some (data ++ (List.replicate N 0).drop data.length) :=
    if_pos (by rw [List.length_replicate]; omega)
  have hlength : (data ++ (List.replicate N (0 : UInt8)).drop data.length).length = N := by
    rw [List.length_append, List.length_drop, List.length_replicate]
    omega
  have hmark := store_eq hlen (by rw [hlength]; omega) 0x80
  rw [hcopy, Option.bind_eq_bind, Option.bind_some, hmark, Option.bind_some]
  -- the cells of the length are counted from the back, and none of them is in front of the mark
  have hback : ∀ i < 8, (paddedLength (UInt64.ofNat data.length) - 1 - UInt64.ofNat i).toNat =
      N - 1 - i := by
    intro i hi
    rw [UInt64.toNat_sub, UInt64.toNat_sub, hpadded, toNat_ofNat (by omega)]
    simp
    omega
  refine (foldlM_range'_eq_some (fun _ p => p.length = N) ?_ fun i p _ hi hp => ?_).1
  · rw [List.length_set, hlength]
  · exact ⟨store_eq (hback i (by omega)) (by omega) _, by rw [List.length_set, hp]⟩

/-! ### Reading it -/

/-- The block at `64 * k`. -/
def blockAt (padded : Bytes) (k : ℕ) : Bytes := (padded.drop (64 * k)).take 64

variable {padded : Bytes} {k : ℕ}

/-- The bytes of a block lie inside the buffer. -/
theorem load_block (hsize : padded.length < 2 ^ 63) (hk : 64 * k + 64 ≤ padded.length) {i : ℕ}
    (hi : i < 16) {j : UInt64} (hj : j.toNat < 4) :
    load padded (UInt64.ofNat (64 * k) + UInt64.ofNat i * 4 + j) =
      some ((blockAt padded k).getD (4 * i + j.toNat) 0) := by
  have hoffset : (UInt64.ofNat (64 * k) + UInt64.ofNat i * 4 + j).toNat =
      64 * k + (4 * i + j.toNat) := by
    rw [UInt64.toNat_add, UInt64.toNat_add, UInt64.toNat_mul, toNat_ofNat (by omega),
      toNat_ofNat (by omega)]
    simp
    omega
  rw [load, hoffset, blockAt, List.getD_eq_getElem?_getD, List.getElem?_take_of_lt (by omega),
    List.getElem?_drop, List.getElem?_eq_getElem (by omega)]
  rfl

theorem word?_eq (hsize : padded.length < 2 ^ 63) (hk : 64 * k + 64 ≤ padded.length) {i : ℕ}
    (hi : i < 16) :
    word? padded (UInt64.ofNat (64 * k)) i = some (word (blockAt padded k) i) := by
  have h0 := load_block hsize hk hi (j := 0) (by decide)
  rw [UInt64.add_zero] at h0
  rw [word?, h0, load_block hsize hk hi (by decide), load_block hsize hk hi (by decide),
    load_block hsize hk hi (by decide)]
  rfl

/-- Each word is computed from four that are there. -/
theorem extend?_eq {w : List UInt32} (hw : 16 ≤ w.length) :
    extend? w w.length = some (extend w w.length) := by
  have hget : ∀ n, 0 < n → n ≤ 16 → w[w.length - n]? = some (w.getD (w.length - n) 0) := by
    intro n hn hle
    rw [List.getD_eq_getElem?_getD, List.getElem?_eq_getElem (by omega)]
    rfl
  rw [extend?, hget 15 (by decide) (by decide), hget 2 (by decide) (by decide),
    hget 16 (by decide) (by decide), hget 7 (by decide) (by decide)]
  rfl

theorem schedule?_eq (hsize : padded.length < 2 ^ 63) (hk : 64 * k + 64 ≤ padded.length) :
    schedule? padded (UInt64.ofNat (64 * k)) = some (schedule (blockAt padded k)) ∧
      (schedule (blockAt padded k)).length = 64 := by
  -- in both loops there are `i` words before iteration `i`
  have hempty : ([] : List UInt32).length = 0 := rfl
  obtain ⟨hread, hlength⟩ := foldlM_range'_eq_some (n := 16)
    (fun i (w : List UInt32) => w.length = i)
    (f := fun w i => (word? padded (UInt64.ofNat (64 * k)) i).map fun x => w ++ [x])
    (g := fun w i => w ++ [word (blockAt padded k) i]) hempty fun i w _ hi hw => by
      rw [word?_eq hsize hk (by omega), List.length_append, hw]
      exact ⟨rfl, rfl⟩
  obtain ⟨hextend, hall⟩ := foldlM_range'_eq_some (n := 48)
    (fun i (w : List UInt32) => w.length = i) (f := extend?) (g := extend) hlength
    fun i w hi _ hw => by
      rw [← hw, extend?_eq (by omega)]
      exact ⟨rfl, by simp [extend]⟩
  have hfirst : (List.range' 0 16).foldl (fun w i => w ++ [word (blockAt padded k) i]) [] =
      (List.range 16).map (word (blockAt padded k)) := by
    rw [List.foldl_append_eq_append, List.nil_append, ← List.range_eq_range', ← List.flatMap_def,
      ← List.map_eq_flatMap]
  rw [hfirst] at hread hextend hall
  rw [schedule?, schedule_eq, List.range_eq_range' (n := 16), hread, Option.bind_eq_bind,
    Option.bind_some, ← List.range_eq_range']
  exact ⟨hextend, hall⟩

theorem compress?_eq (hsize : padded.length < 2 ^ 63) (hk : 64 * k + 64 ≤ padded.length)
    (s : State) :
    compress? padded (UInt64.ofNat (64 * k)) s = some (compress s (blockAt padded k)) := by
  obtain ⟨hschedule, hlength⟩ := schedule?_eq hsize hk
  have hrounds := (foldlM_range'_eq_some (n := 64) (s := s) (fun _ _ => True)
    (f := round? (schedule (blockAt padded k))) (g := round (schedule (blockAt padded k)))
    trivial fun i s _ hi _ => by
      have hK : i < K.length := by
        rw [show K.length = 64 from rfl]
        omega
      rw [round?, List.getElem?_eq_getElem hK, List.getElem?_eq_getElem (by omega)]
      exact ⟨rfl, trivial⟩).1
  rw [compress?, hschedule, Option.bind_eq_bind, Option.bind_some, List.range_eq_range', hrounds,
    compress, List.range_eq_range']
  rfl

/-- The loop visits every block and stops behind the last. -/
theorem blocks?_eq {n : ℕ} (hn : padded.length = 64 * n) (hsize : padded.length < 2 ^ 63) {m : ℕ} :
    ∀ {fuel k : ℕ} {s : State}, k + m = n → m < fuel →
      blocks? padded (UInt64.ofNat padded.length) fuel (UInt64.ofNat (64 * k)) s =
        some ((List.range' k m).foldl (fun s k => compress s (blockAt padded k)) s) := by
  -- on the number of blocks that are left
  induction m with
  | zero =>
    rintro (_ | fuel) k s rfl hfuel
    · omega
    · rw [blocks?, hn, if_neg (by simp)]
      rfl
  | succ m ih =>
    rintro (_ | fuel) k s hkm hfuel
    · omega
    have hlt : UInt64.ofNat (64 * k) < UInt64.ofNat padded.length := by
      rw [UInt64.lt_iff_toNat_lt, toNat_ofNat (by omega), toNat_ofNat (by omega)]
      omega
    have hnext : UInt64.ofNat (64 * k) + 64 = UInt64.ofNat (64 * (k + 1)) := by
      rw [Nat.mul_add, UInt64.ofNat_add]
      rfl
    rw [blocks?, if_pos hlt, compress?_eq hsize (by omega), Option.bind_eq_bind, Option.bind_some,
      hnext, ih (by omega) (by omega)]
    rfl

/-- **No access is out of range.** -/
theorem digest?_eq {data : Bytes} (h : data.length < 2 ^ 61) :
    digest? data = some (digest data) := by
  have hlength := length_pad data
  have hpadded : paddedLength (UInt64.ofNat data.length) = UInt64.ofNat (pad data).length := by
    apply UInt64.toNat_inj.mp
    rw [toNat_paddedLength h, toNat_ofNat (by omega), hlength]
  have hblocks : (pad data).length = 64 * ((pad data).length / 64) := by omega
  calc digest? data
      = blocks? (pad data) (UInt64.ofNat (pad data).length) ((pad data).length + 1) 0 init := by
        rw [digest?, pad?_eq h, Option.bind_eq_bind, Option.bind_some, hpadded]
    _ = some ((List.range' 0 ((pad data).length / 64)).foldl
          (fun s k => compress s (blockAt (pad data) k)) init) :=
        blocks?_eq (k := 0) hblocks (by omega) (Nat.zero_add _) (by omega)
    _ = some (digest data) := by
        rw [digest, List.range_eq_range']
        rfl

end Sha256

/-! ### The printed digest -/

theorem hexChar_mem {n : ℕ} (h : n < 16) : hexChar n ∈ "0123456789abcdef".toList := by
  revert h n
  decide

/-- Every digit is one of the lowercase hexadecimal ones. -/
theorem sha256Hex_digits (data : Bytes) :
    ∀ c ∈ (sha256Hex data).toList, c ∈ "0123456789abcdef".toList := by
  intro c hc
  rw [sha256Hex, String.toList_ofList] at hc
  obtain ⟨v, -, hv⟩ := List.mem_flatMap.mp hc
  obtain ⟨k, -, rfl⟩ := List.mem_map.mp hv
  have hdigit : ((v >>> k) &&& 0xF).toNat < 16 := by
    rw [UInt32.toNat_and]
    exact Nat.and_lt_two_pow (n := 4) _ (by decide)
  exact hexChar_mem hdigit

/-- **Both of the server's functions compute SHA-256.** -/
theorem server_sha256 (data : Bytes) (h : data.length < 2 ^ 61) :
    toHex (sha256Raw data) = (Fips180.sha256 (Fips180.ofBytes data)).hex ∧
      sha256Hex data = (Fips180.sha256 (Fips180.ofBytes data)).hex ∧
      (sha256Hex data).toList.length = 64 ∧
      (∀ c ∈ (sha256Hex data).toList, c ∈ "0123456789abcdef".toList) ∧
      Sha256.digest? data = some (Sha256.digest data) := by
  refine ⟨?_, sha256Hex_eq_fips data, length_sha256Hex data, sha256Hex_digits data,
    Sha256.digest?_eq h⟩
  calc toHex (sha256Raw data)
      = sha256Hex data := toHex_sha256Raw data
    _ = (Fips180.sha256 (Fips180.ofBytes data)).hex := sha256Hex_eq_fips data

theorem server_sha256_abc :
    toHex (sha256Raw [97, 98, 99]) = (Fips180.sha256 (Fips180.ofBytes [97, 98, 99])).hex ∧
      Sha256.digest? [97, 98, 99] = some (Sha256.digest [97, 98, 99]) := by
  obtain ⟨hraw, -, -, -, hchecked⟩ := server_sha256 [97, 98, 99] (by decide)
  exact ⟨hraw, hchecked⟩

end AdaptiveSync
