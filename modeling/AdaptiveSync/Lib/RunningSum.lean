import Mathlib.Algebra.BigOperators.Fin
import Mathlib.Data.Nat.ModEq
import Mathlib.Tactic.Ring

/-!
# Sums and sums of sums

A checksum in the manner of Fletcher and Adler keeps two sums modulo `m`: each item is added
to the first, and the first to the second (`step`). The loop reduces both after every item,
which changes neither sum modulo `m`, so that a run has the closed form of `run_modEq`: the
second sum counts an item once for each position from its own to the end (`weighted`).

`run_append` is the law by which the sums of a concatenation come from the sums of its parts
and the length of the second.
-/

namespace RunningSum

/-- One item. -/
def step (m : ℕ) (s : ℕ × ℕ) (x : ℕ) : ℕ × ℕ := ((s.1 + x) % m, (s.2 + (s.1 + x) % m) % m)

/-- The two sums after the items. -/
def run (m : ℕ) (s : ℕ × ℕ) (xs : List ℕ) : ℕ × ℕ := xs.foldl (step m) s

/-- The sum in which the last item counts once, the one before it twice, and so on. -/
def weighted (xs : List ℕ) : ℕ := ∑ i : Fin xs.length, (xs.length - i) * xs[i]

@[simp] theorem weighted_nil : weighted [] = 0 := rfl

theorem weighted_cons (x : ℕ) (xs : List ℕ) :
    weighted (x :: xs) = (xs.length + 1) * x + weighted xs := by
  calc weighted (x :: xs)
      = (xs.length + 1 - 0) * x + ∑ i : Fin xs.length, (xs.length + 1 - (i + 1)) * xs[i] :=
        Fin.sum_univ_succ _
    _ = (xs.length + 1) * x + weighted xs := by simp [weighted]

theorem weighted_append (xs ys : List ℕ) :
    weighted (xs ++ ys) = weighted xs + ys.length * xs.sum + weighted ys := by
  induction xs with
  | nil => simp
  | cons x xs ih =>
    rw [List.cons_append, weighted_cons, weighted_cons, ih, List.length_append, List.sum_cons]
    ring

variable {m : ℕ}

/-- **The closed form of a run**, from any two sums. -/
theorem run_modEq (xs : List ℕ) :
    ∀ s : ℕ × ℕ, (run m s xs).1 ≡ s.1 + xs.sum [MOD m] ∧
      (run m s xs).2 ≡ s.2 + xs.length * s.1 + weighted xs [MOD m] := by
  induction xs with
  | nil =>
    intro s
    simp [run, Nat.ModEq.refl]
  | cons x xs ih =>
    intro s
    obtain ⟨h₁, h₂⟩ := ih (step m s x)
    have ha : (step m s x).1 ≡ s.1 + x [MOD m] := Nat.mod_modEq _ _
    have hb : (step m s x).2 ≡ s.2 + (s.1 + x) [MOD m] :=
      (Nat.mod_modEq _ _).trans (ha.add_left s.2)
    constructor
    · calc (run m s (x :: xs)).1
          ≡ (step m s x).1 + xs.sum [MOD m] := h₁
        _ ≡ s.1 + x + xs.sum [MOD m] := ha.add_right _
        _ = s.1 + (x :: xs).sum := by rw [List.sum_cons, add_assoc]
    · calc (run m s (x :: xs)).2
          ≡ (step m s x).2 + xs.length * (step m s x).1 + weighted xs [MOD m] := h₂
        _ ≡ s.2 + (s.1 + x) + xs.length * (s.1 + x) + weighted xs [MOD m] :=
            (hb.add (ha.mul_left _)).add_right _
        _ = s.2 + (x :: xs).length * s.1 + weighted (x :: xs) := by
            rw [List.length_cons, weighted_cons]
            ring

/-- Two sums that were reduced stay so. -/
theorem run_lt (hm : 0 < m) (xs : List ℕ) :
    ∀ {s : ℕ × ℕ}, s.1 < m → s.2 < m → (run m s xs).1 < m ∧ (run m s xs).2 < m := by
  induction xs with
  | nil => intro s h₁ h₂; exact ⟨h₁, h₂⟩
  | cons x xs ih => intro s _ _; exact ih (Nat.mod_lt _ hm) (Nat.mod_lt _ hm)

/-- The two sums of a run that starts with one and zero. -/
theorem run_one_zero (hm : 1 < m) (xs : List ℕ) :
    run m (1, 0) xs = ((1 + xs.sum) % m, (xs.length + weighted xs) % m) := by
  obtain ⟨hlt₁, hlt₂⟩ := run_lt (s := (1, 0)) (by omega) xs hm (by omega)
  obtain ⟨h₁, h₂⟩ := run_modEq (m := m) xs (1, 0)
  ext
  · exact (Nat.mod_eq_of_lt hlt₁).symm.trans h₁
  · rw [Nat.zero_add, Nat.mul_one] at h₂
    exact (Nat.mod_eq_of_lt hlt₂).symm.trans h₂

/-- The sums of a concatenation, from those of its parts and the length of the second. -/
def combine (m : ℕ) (s t : ℕ × ℕ) (length : ℕ) : ℕ × ℕ :=
  ((s.1 + t.1 + (m - 1)) % m, (s.2 + t.2 + length * (s.1 + (m - 1))) % m)

/-- **The combination law.** -/
theorem run_append (hm : 1 < m) (xs ys : List ℕ) :
    run m (1, 0) (xs ++ ys) = combine m (run m (1, 0) xs) (run m (1, 0) ys) ys.length := by
  rw [run_one_zero hm, run_one_zero hm, run_one_zero hm, combine]
  -- the one that both parts start with counts once
  have hone : 1 + (m - 1) ≡ 0 [MOD m] := by
    rw [show 1 + (m - 1) = m by omega]
    exact Nat.modEq_zero_iff_dvd.mpr dvd_rfl
  have ha : ∀ n, 1 + n + (m - 1) ≡ n [MOD m] := by
    intro n
    calc 1 + n + (m - 1)
        = 1 + (m - 1) + n := by ring
      _ ≡ 0 + n [MOD m] := hone.add_right n
      _ = n := Nat.zero_add n
  ext
  · calc 1 + (xs ++ ys).sum
        ≡ 1 + (1 + (xs.sum + ys.sum) + (m - 1)) [MOD m] := by
          rw [List.sum_append]
          exact ((ha _).add_left 1).symm
      _ = 1 + xs.sum + (1 + ys.sum) + (m - 1) := by ring
      _ ≡ (1 + xs.sum) % m + (1 + ys.sum) % m + (m - 1) [MOD m] :=
          ((Nat.mod_modEq _ _).symm.add (Nat.mod_modEq _ _).symm).add_right _
  · calc (xs ++ ys).length + weighted (xs ++ ys)
        = xs.length + weighted xs + (ys.length + weighted ys) + ys.length * xs.sum := by
          rw [List.length_append, weighted_append]
          ring
      _ ≡ xs.length + weighted xs + (ys.length + weighted ys) +
            ys.length * (1 + xs.sum + (m - 1)) [MOD m] :=
          ((ha xs.sum).symm.mul_left ys.length).add_left _
      _ ≡ (xs.length + weighted xs) % m + (ys.length + weighted ys) % m +
            ys.length * ((1 + xs.sum) % m + (m - 1)) [MOD m] :=
          ((Nat.mod_modEq _ _).symm.add (Nat.mod_modEq _ _).symm).add
            (((Nat.mod_modEq _ _).symm.add_right _).mul_left _)

end RunningSum
