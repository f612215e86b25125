import Mathlib.Data.List.Basic
import Mathlib.Data.List.Induction
import Mathlib.Tactic.Ring

/-!
# Big-endian numbers and exact reads

`be n v` writes the low `n` bytes of `v`, most significant first; `ofBe` reads a byte
string back. `readExact n` takes the next `n` bytes of a finite stream or fails, which
is all a framing codec sees of a socket.

The rules at the end say how exact reads act on a stream that starts with known bytes
(`readExact_append`), and that they never look further than they read
(`readExact_mono`).
-/

namespace BigEndian

/-- The low `n` bytes of `v`, most significant first. -/
def be : ℕ → ℕ → List UInt8
  | 0, _ => []
  | n + 1, v => be n (v / 256) ++ [UInt8.ofNat v]

/-- The number a byte string stands for. -/
def ofBe (bs : List UInt8) : ℕ := bs.foldl (fun acc b => acc * 256 + b.toNat) 0

@[simp] theorem length_be (n : ℕ) : ∀ v, (be n v).length = n := by
  induction n with
  | zero => intro v; rfl
  | succ n ih => intro v; simp [be, ih]

theorem ofBe_append_singleton (bs : List UInt8) (b : UInt8) :
    ofBe (bs ++ [b]) = ofBe bs * 256 + b.toNat := by
  simp [ofBe]

/-- Reading back what was written gives the low bytes. -/
theorem ofBe_be (n : ℕ) : ∀ v, ofBe (be n v) = v % 256 ^ n := by
  induction n with
  | zero => intro v; simp [be, ofBe, Nat.mod_one]
  | succ n ih =>
    intro v
    have hlow : (UInt8.ofNat v).toNat = v % 256 := by simp
    calc ofBe (be (n + 1) v)
        = v / 256 % 256 ^ n * 256 + v % 256 := by rw [be, ofBe_append_singleton, ih, hlow]
      _ = v % 256 ^ (n + 1) := by
          rw [pow_succ', Nat.mod_mul]
          ring

theorem ofBe_be_of_lt {n v : ℕ} (h : v < 256 ^ n) : ofBe (be n v) = v := by
  rw [ofBe_be, Nat.mod_eq_of_lt h]

theorem ofBe_lt (bs : List UInt8) : ofBe bs < 256 ^ bs.length := by
  induction bs using List.reverseRecOn with
  | nil => exact Nat.one_pos
  | append_singleton bs b ih =>
    have hb : b.toNat < 256 := b.toNat_lt
    rw [ofBe_append_singleton, List.length_append, List.length_singleton, pow_succ]
    omega

/-- The next `n` bytes of a stream and what is left of it. -/
def readExact (n : ℕ) (s : List UInt8) : Option (List UInt8 × List UInt8) :=
  if n ≤ s.length then some (s.take n, s.drop n) else none

theorem readExact_append {n : ℕ} {bs : List UInt8} (h : bs.length = n) (s : List UInt8) :
    readExact n (bs ++ s) = some (bs, s) := by
  subst h
  simp [readExact]

theorem readExact_eq_none {n : ℕ} {s : List UInt8} (h : s.length < n) : readExact n s = none :=
  if_neg (Nat.not_le.mpr h)

theorem length_lt_of_readExact {n : ℕ} {s : List UInt8} (h : readExact n s = none) :
    s.length < n := by
  unfold readExact at h
  split at h
  · exact absurd h (by simp)
  · next hlen => exact Nat.lt_of_not_le hlen

theorem readExact_zero (s : List UInt8) : readExact 0 s = some ([], s) := by simp [readExact]

theorem readExact_eq_some_iff {n : ℕ} {s bs r : List UInt8} :
    readExact n s = some (bs, r) ↔ bs.length = n ∧ s = bs ++ r := by
  constructor
  · intro h
    unfold readExact at h
    split at h
    · next hn =>
      obtain ⟨rfl, rfl⟩ := Prod.mk.inj (Option.some.inj h)
      exact ⟨List.length_take_of_le hn, (List.take_append_drop n s).symm⟩
    · exact absurd h (by simp)
  · rintro ⟨hlen, rfl⟩
    exact readExact_append hlen r

/-- An exact read that succeeds does not look past the bytes it takes. -/
theorem readExact_mono {n : ℕ} {s bs r : List UInt8} (h : readExact n s = some (bs, r))
    (t : List UInt8) : readExact n (s ++ t) = some (bs, r ++ t) := by
  obtain ⟨hlen, rfl⟩ := readExact_eq_some_iff.mp h
  exact readExact_eq_some_iff.mpr ⟨hlen, List.append_assoc bs r t⟩

end BigEndian
