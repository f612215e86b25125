import Mathlib.Logic.Function.Basic
import AdaptiveSync.Lib.Blocks

/-!
# Names and inodes

A directory gives names to inodes, and the data is in the inodes. Opening a name gives its
inode, a handle that stays good whatever happens to the name: a file renamed while it is
open is still written through the handle, under its new name.

No inode has two names, and inodes that were never given out have none. A `Store` carries
both facts, so they hold after any sequence of calls.

Each call has a lemma on what is then read under the name it is about, and one on what is
read under every other name.
-/

namespace Inodes

open Function Blocks

/-- A directory and its inodes. -/
structure Store (N α : Type) where
  /-- The inode of a name. -/
  entry : N → Option ℕ
  /-- The data of an inode. -/
  content : ℕ → List α
  /-- The inodes from here on were never given out. -/
  fresh : ℕ
  entry_lt : ∀ {n i}, entry n = some i → i < fresh
  entry_inj : ∀ {m n i}, entry m = some i → entry n = some i → m = n

namespace Store

section Write

variable {N α : Type} (s : Store N α)

/-- What is read under a name. -/
def read (n : N) : Option (List α) := (s.entry n).map s.content

/-- Write through a handle, padding with `z`. -/
def pwrite (z : α) (i off : ℕ) (data : List α) : Store N α :=
  { s with content := update s.content i (writeAt z (s.content i) off data) }

variable {s}

@[simp] theorem entry_pwrite (z : α) (i off : ℕ) (data : List α) :
    (s.pwrite z i off data).entry = s.entry := rfl

theorem content_pwrite (z : α) (i off : ℕ) (data : List α) :
    (s.pwrite z i off data).content i = writeAt z (s.content i) off data := update_self _ _ _

theorem read_pwrite_of_ne (z : α) {i : ℕ} (off : ℕ) (data : List α) {m n : N}
    (hn : s.entry n = some i) (h : m ≠ n) : (s.pwrite z i off data).read m = s.read m := by
  unfold read pwrite
  cases hm : s.entry m with
  | none => rfl
  | some j =>
    have hne : j ≠ i := fun hc => h (s.entry_inj hm (hc ▸ hn))
    simp [hne]

end Write

variable {N α : Type} [DecidableEq N] (s : Store N α)

/-- Give a name that is not in use to a new, empty inode. -/
def create (n : N) : Store N α where
  entry := update s.entry n (some s.fresh)
  content := update s.content s.fresh []
  fresh := s.fresh + 1
  entry_lt := by
    intro m i h
    by_cases hm : m = n
    · rw [hm, update_self] at h
      exact (Option.some.inj h) ▸ Nat.lt_succ_self _
    · rw [update_of_ne hm] at h
      exact Nat.lt_succ_of_lt (s.entry_lt h)
  entry_inj := by
    intro m m' i h h'
    by_cases hm : m = n
    · by_cases hm' : m' = n
      · rw [hm, hm']
      · -- an inode in use is not the new one
        rw [hm, update_self] at h
        rw [update_of_ne hm'] at h'
        exact absurd (s.entry_lt h') (by rw [← Option.some.inj h]; exact Nat.lt_irrefl _)
    · rw [update_of_ne hm] at h
      by_cases hm' : m' = n
      · rw [hm', update_self] at h'
        exact absurd (s.entry_lt h) (by rw [← Option.some.inj h']; exact Nat.lt_irrefl _)
      · rw [update_of_ne hm'] at h'
        exact s.entry_inj h h'

/-- Open for writing, creating the file or cutting it to length zero: the store after it, and
the handle. -/
def openTruncate (n : N) : Store N α × ℕ :=
  match s.entry n with
  | some i => ({ s with content := update s.content i [] }, i)
  -- the new inode is one that no name has
  | none => (s.create n, s.fresh)

/-- Move a file to another name, over what is there. -/
def rename (m n : N) : Store N α where
  entry := if s.entry m = none then s.entry else update (update s.entry m none) n (s.entry m)
  content := s.content
  fresh := s.fresh
  entry_lt := by
    intro k i h
    split at h
    · exact s.entry_lt h
    by_cases hk : k = n
    · rw [hk, update_self] at h
      exact s.entry_lt h
    · rw [update_of_ne hk] at h
      by_cases hm : k = m
      · exact absurd h (by simp [hm])
      · exact s.entry_lt (by rwa [update_of_ne hm] at h)
  entry_inj := by
    intro k k' i h h'
    split at h
    · next hnone =>
      rw [if_pos hnone] at h'
      exact s.entry_inj h h'
    next hsome =>
    rw [if_neg hsome] at h'
    -- the inode moved was only under `m`, which is cleared
    have hother : ∀ {j}, j ≠ n → update (update s.entry m none) n (s.entry m) j = some i →
        j ≠ m ∧ s.entry j = some i := by
      intro j hj hentry
      rw [update_of_ne hj] at hentry
      by_cases hm : j = m
      · exact absurd hentry (by simp [hm])
      · exact ⟨hm, by rwa [update_of_ne hm] at hentry⟩
    by_cases hk : k = n
    · by_cases hk' : k' = n
      · rw [hk, hk']
      · obtain ⟨hne, hentry⟩ := hother hk' h'
        rw [hk, update_self] at h
        exact absurd (s.entry_inj hentry h) hne
    · obtain ⟨hne, hentry⟩ := hother hk h
      by_cases hk' : k' = n
      · rw [hk', update_self] at h'
        exact absurd (s.entry_inj hentry h') hne
      · exact s.entry_inj hentry (hother hk' h').2

variable {s}

/-! ### What is read after a call -/

theorem entry_openTruncate (n : N) : (s.openTruncate n).1.entry n = some (s.openTruncate n).2 := by
  unfold openTruncate
  split
  · next i hi => exact hi
  · exact update_self _ _ _

theorem content_openTruncate (n : N) : (s.openTruncate n).1.content (s.openTruncate n).2 = [] := by
  unfold openTruncate
  split
  · exact update_self _ _ _
  · exact update_self _ _ _

theorem read_openTruncate_of_ne {m n : N} (h : m ≠ n) :
    (s.openTruncate n).1.read m = s.read m := by
  unfold openTruncate
  split
  · next i hi =>
    unfold read
    cases hm : s.entry m with
    | none => rfl
    -- another name has another inode
    | some j =>
      have hne : j ≠ i := fun hc => h (s.entry_inj hm (hc ▸ hi))
      simp [hne]
  · unfold read create
    simp only [update_of_ne h]
    cases hm : s.entry m with
    | none => rfl
    | some j => simp [(s.entry_lt hm).ne]

theorem read_rename {m n : N} {i : ℕ} (h : s.entry m = some i) :
    (s.rename m n).read n = some (s.content i) := by
  simp [read, rename, h]

theorem entry_rename_self {m n : N} (h : m ≠ n) : (s.rename m n).entry m = none := by
  by_cases hm : s.entry m = none
  · simp [rename, hm]
  · simp [rename, hm, h]

end Store

end Inodes
