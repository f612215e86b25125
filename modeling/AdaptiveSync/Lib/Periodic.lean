import Mathlib.Data.List.Infix
import Mathlib.Tactic.Common

/-!
# Words along an endless word

An endless word is a function from the positions. `upTo f i` is its beginning of length `i`,
and `along f r` says how far a word `r` goes along it before it leaves it.

`repeated u` is the word `u` over and over again. It goes on behind `u` as it began, so a word
that is put behind `u` goes along it for as much longer as `u` is long
(`along_append_repeated`).
-/

namespace Periodic

variable {α : Type} [DecidableEq α] {f : ℕ → α} {r x : List α}

/-- The beginning of length `i`. -/
def upTo (f : ℕ → α) (i : ℕ) : List α := (List.range i).map f

/-- How many letters of the word are those the endless word begins with. -/
def along (f : ℕ → α) : List α → ℕ
  | [] => 0
  | a :: r => if a = f 0 then along (fun k => f (k + 1)) r + 1 else 0

omit [DecidableEq α] in
@[simp] theorem length_upTo (f : ℕ → α) (i : ℕ) : (upTo f i).length = i := by simp [upTo]

omit [DecidableEq α] in
theorem upTo_succ (f : ℕ → α) (i : ℕ) : upTo f (i + 1) = upTo f i ++ [f i] := by
  simp [upTo, List.range_succ]

omit [DecidableEq α] in
theorem upTo_succ_eq_cons (f : ℕ → α) (i : ℕ) :
    upTo f (i + 1) = f 0 :: upTo (fun k => f (k + 1)) i := by
  simp [upTo, List.range_succ_eq_map, Function.comp_def]

omit [DecidableEq α] in
theorem upTo_add (f : ℕ → α) (i j : ℕ) :
    upTo f (i + j) = upTo f i ++ upTo (fun k => f (i + k)) j := by
  simp [upTo, List.range_add, Function.comp_def]

omit [DecidableEq α] in
theorem upTo_begins (f : ℕ → α) {i j : ℕ} (h : i ≤ j) : upTo f i <+: upTo f j := by
  obtain ⟨k, rfl⟩ := Nat.exists_eq_add_of_le h
  rw [upTo_add]
  exact List.prefix_append _ _

omit [DecidableEq α] in
/-- What an initial part begins with is an initial part. -/
theorem eq_upTo_of_prefix {i : ℕ} (h : r <+: upTo f i) : r = upTo f r.length := by
  have hlen := h.length_le
  rw [length_upTo] at hlen
  have hbegin := List.prefix_of_prefix_length_le h (upTo_begins f hlen) (by simp)
  exact hbegin.eq_of_length (by simp)

/-! ### How far a word goes along -/

theorem along_cons (f : ℕ → α) (a : α) (r : List α) :
    along f (a :: r) = if a = f 0 then along (fun k => f (k + 1)) r + 1 else 0 := rfl

theorem along_le_length : ∀ {f : ℕ → α}, along f r ≤ r.length := by
  induction r with
  | nil => intro f; exact le_rfl
  | cons a r ih =>
    intro f
    rw [along_cons]
    split
    · exact Nat.succ_le_succ ih
    · exact Nat.zero_le _

/-- A longer word goes along at least as far, and for at most the letters it has more. -/
theorem along_append : ∀ {f : ℕ → α},
    along f r ≤ along f (r ++ x) ∧ along f (r ++ x) ≤ along f r + x.length := by
  induction r with
  | nil =>
    intro f
    refine ⟨Nat.zero_le _, ?_⟩
    rw [List.nil_append]
    exact le_trans along_le_length (Nat.le_add_left _ _)
  | cons a r ih =>
    intro f
    rw [List.cons_append, along_cons, along_cons]
    split
    · obtain ⟨hle, hge⟩ := @ih fun k => f (k + 1)
      omega
    · omega

/-- A word that goes along to its end is a beginning of the endless word. -/
theorem along_eq_length_iff : ∀ {f : ℕ → α}, along f r = r.length ↔ r = upTo f r.length := by
  induction r with
  | nil => intro f; simp [along, upTo]
  | cons a r ih =>
    intro f
    rw [List.length_cons, upTo_succ_eq_cons, List.cons.injEq, ← ih, along_cons]
    split
    · next h => simp [h]
    · next h => simp [h]

/-- A word that leaves the endless word does not come back. -/
theorem along_append_of_lt : ∀ {f : ℕ → α}, along f r < r.length →
    along f (r ++ x) = along f r := by
  induction r with
  | nil => intro f h; exact absurd h (Nat.lt_irrefl _)
  | cons a r ih =>
    intro f h
    rw [List.cons_append, along_cons, along_cons]
    rw [along_cons] at h
    split
    · next heq =>
      rw [if_pos heq, List.length_cons, Nat.succ_lt_succ_iff] at h
      rw [ih h]
    · rfl

theorem along_upTo_append (r : List α) : ∀ (f : ℕ → α) (i : ℕ),
    along f (upTo f i ++ r) = i + along (fun k => f (i + k)) r := by
  intro f i
  induction i generalizing f with
  | zero => simp [upTo]
  | succ i ih =>
    rw [upTo_succ_eq_cons, List.cons_append, along_cons, if_pos rfl, ih]
    have hshift : (fun k => f (i + k + 1)) = fun k => f (i + 1 + k) := by
      funext k
      congr 1
      omega
    rw [hshift]
    omega

/-! ### A word over and over again -/

omit [DecidableEq α] in
/-- The word over and over again. -/
def repeated (u : List α) (hu : u ≠ []) (i : ℕ) : α :=
  u.get ⟨i % u.length, Nat.mod_lt _ (List.length_pos_iff.mpr hu)⟩

omit [DecidableEq α] in
theorem upTo_repeated_length (u : List α) (hu : u ≠ []) : upTo (repeated u hu) u.length = u := by
  apply List.ext_getElem
  · simp
  · intro i hi _
    rw [length_upTo] at hi
    simp [upTo, repeated, Nat.mod_eq_of_lt hi]

omit [DecidableEq α] in
theorem repeated_add (u : List α) (hu : u ≠ []) :
    (fun k => repeated u hu (u.length + k)) = repeated u hu := by
  funext k
  simp [repeated]

/-- A word put behind `u` goes along for the length of `u` more. -/
theorem along_append_repeated (u : List α) (hu : u ≠ []) (r : List α) :
    along (repeated u hu) (u ++ r) = u.length + along (repeated u hu) r := by
  calc along (repeated u hu) (u ++ r)
      = along (repeated u hu) (upTo (repeated u hu) u.length ++ r) := by
        rw [upTo_repeated_length]
    _ = u.length + along (fun k => repeated u hu (u.length + k)) r := along_upTo_append r _ _
    _ = u.length + along (repeated u hu) r := by rw [repeated_add]

end Periodic
