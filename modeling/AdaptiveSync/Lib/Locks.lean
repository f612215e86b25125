import Mathlib.Data.Fintype.Card

/-!
# Reader/writer locks and the threads at them

A reader/writer lock is a count of readers and a flag for the writer (`RwLock`). It does
not know its holders; who holds it is a matter of where the threads are. The two are tied
by counting: `tally` says how many threads are in a state with a property, and
`RwLock.HeldBy` that a lock is in the state its holders have put it in.

* `tally_update_enter`, `tally_update_leave`, `tally_update_of_iff`: one thread moves.
* `RwLock.HeldBy.acquire`, `RwLock.HeldBy.release`: the lock moves along.
-/

namespace Locks

open Function

/-! ### Counting threads -/

section Tally

variable {T σ : Type} [Fintype T]

/-- How many threads are in a state with `P`. -/
def tally (state : T → σ) (P : σ → Prop) [DecidablePred P] : ℕ :=
  (Finset.univ.filter fun t => P (state t)).card

variable {state : T → σ} {P : σ → Prop} [DecidablePred P] {t : T} {x : σ}

theorem tally_eq_zero_iff : tally state P = 0 ↔ ∀ t, ¬ P (state t) := by
  simp [tally, Finset.filter_eq_empty_iff]

theorem tally_pos (h : P (state t)) : 0 < tally state P := by
  refine Nat.pos_of_ne_zero fun hzero => ?_
  exact tally_eq_zero_iff.mp hzero t h

/-- Two threads in such states count as two. -/
theorem tally_le_one_iff : tally state P ≤ 1 ↔ ∀ t u, P (state t) → P (state u) → t = u := by
  rw [tally, Finset.card_le_one]
  simp only [Finset.mem_filter, Finset.mem_univ, true_and]
  constructor
  · intro h t u ht hu
    exact h t ht u hu
  · intro h t ht u hu
    exact h t u ht hu

variable [DecidableEq T]

theorem tally_update_of_iff (h : P x ↔ P (state t)) :
    tally (update state t x) P = tally state P := by
  unfold tally
  congr 1
  ext u
  simp only [Finset.mem_filter, Finset.mem_univ, true_and]
  by_cases hu : u = t
  · rw [hu, update_self]
    exact h
  · rw [update_of_ne hu]

theorem tally_update_enter (hold : ¬ P (state t)) (hnew : P x) :
    tally (update state t x) P = tally state P + 1 := by
  have hset : (Finset.univ.filter fun u => P (update state t x u)) =
      insert t (Finset.univ.filter fun u => P (state u)) := by
    ext u
    simp only [Finset.mem_filter, Finset.mem_univ, true_and, Finset.mem_insert]
    by_cases hu : u = t
    · simp [hu, hnew]
    · simp [hu]
  unfold tally
  rw [hset, Finset.card_insert_of_notMem (by simpa using hold)]

theorem tally_update_leave (hold : P (state t)) (hnew : ¬ P x) :
    tally (update state t x) P + 1 = tally state P := by
  -- going back is entering
  have hback : tally (update (update state t x) t (state t)) P = tally (update state t x) P + 1 :=
    tally_update_enter (by simpa using hnew) hold
  rw [update_idem, update_eq_self] at hback
  exact hback.symm

end Tally

/-! ### Reader/writer locks -/

/-- The ways to hold a lock. -/
inductive Mode where
  | read | write
  deriving DecidableEq

/-- A reader/writer lock. -/
structure RwLock where
  readers : ℕ
  writer : Bool
  deriving DecidableEq

namespace RwLock

/-- A lock nobody holds. -/
def free : RwLock := ⟨0, false⟩

/-- The lock can be taken: for reading, unless it is held for writing; for writing, unless
it is held at all. -/
def Grants (l : RwLock) : Mode → Prop
  | .read => l.writer = false
  | .write => l.writer = false ∧ l.readers = 0

instance (l : RwLock) : (m : Mode) → Decidable (l.Grants m)
  | .read => inferInstanceAs (Decidable (l.writer = false))
  | .write => inferInstanceAs (Decidable (l.writer = false ∧ l.readers = 0))

/-- Take the lock. -/
def acquire (l : RwLock) : Mode → RwLock
  | .read => { l with readers := l.readers + 1 }
  | .write => { l with writer := true }

/-- Give the lock back. -/
def release (l : RwLock) : Mode → RwLock
  | .read => { l with readers := l.readers - 1 }
  | .write => { l with writer := false }

/-- The lock is in the state that so many readers and writers have put it in, and they
exclude each other as they should. -/
structure HeldBy (l : RwLock) (held : Mode → ℕ) : Prop where
  readers : l.readers = held .read
  writer : l.writer = decide (held .write ≠ 0)
  one_writer : held .write ≤ 1
  alone : held .write ≠ 0 → held .read = 0

theorem heldBy_free {held : Mode → ℕ} (h : ∀ m, held m = 0) : free.HeldBy held where
  readers := (h .read).symm
  writer := by simp [h .write, free]
  one_writer := by simp [h .write]
  alone _ := h .read

variable {l : RwLock} {held held' : Mode → ℕ}

/-- What is granted keeps the holders apart. -/
theorem HeldBy.acquire (h : l.HeldBy held) {m : Mode} (hgrant : l.Grants m)
    (hm : held' m = held m + 1) (hother : ∀ m', m' ≠ m → held' m' = held m') :
    (l.acquire m).HeldBy held' := by
  have hwriter := h.writer
  cases m with
  | read =>
    have hnone : held .write = 0 := by simpa using hgrant.symm.trans hwriter
    have hsame := hother .write (by simp)
    exact {
      readers := by simp [RwLock.acquire, h.readers, hm]
      writer := by rw [hsame]; exact hwriter
      one_writer := by rw [hsame]; exact h.one_writer
      alone := fun hc => absurd (hsame.trans hnone) hc }
  | write =>
    obtain ⟨hfree, hidle⟩ := hgrant
    have hnone : held .write = 0 := by simpa using hfree.symm.trans hwriter
    have hsame := hother .read (by simp)
    exact {
      readers := by rw [hsame]; exact h.readers
      writer := by simp [RwLock.acquire, hm]
      one_writer := by rw [hm, hnone]
      alone := fun _ => by rw [hsame, ← h.readers, hidle] }

/-- A holder leaves. -/
theorem HeldBy.release (h : l.HeldBy held) {m : Mode} (hm : held' m + 1 = held m)
    (hother : ∀ m', m' ≠ m → held' m' = held m') : (l.release m).HeldBy held' := by
  have hone := h.one_writer
  cases m with
  | read =>
    have hsame := hother .write (by simp)
    exact {
      readers := by simp [RwLock.release, h.readers, ← hm]
      writer := by rw [hsame]; exact h.writer
      one_writer := by rw [hsame]; exact hone
      alone := fun hc => by
        have := h.alone (hsame ▸ hc)
        omega }
  | write =>
    have hsame := hother .read (by simp)
    have hnone : held' .write = 0 := by omega
    exact {
      readers := by rw [hsame]; exact h.readers
      writer := by simp [RwLock.release, hnone]
      one_writer := by omega
      alone := fun hc => absurd hnone hc }

theorem HeldBy.of_eq (h : l.HeldBy held) (heq : ∀ m, held' m = held m) : l.HeldBy held' := by
  rwa [show held' = held from funext heq]

end RwLock

end Locks
