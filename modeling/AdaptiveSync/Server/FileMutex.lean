import Mathlib.Data.List.AList
import AdaptiveSync.Lib.Locks

/-!
# The lock table

`FileMutex` (`server/src/file_mutex.cpp`) keeps one reader/writer lock for each path that is
in use. `acquire_read` and `acquire_write` find or make the entry of the path and count
themselves in it, under `map_mutex_`, and then wait for the entry's lock without
`map_mutex_`. `release_read` and `release_write` look the entry up again by its path, give
its lock back and count themselves out. `cleanup_unused` drops the entries whose count is
zero.

Any number of threads do this, each with one path at a time, and the critical sections and
the waits of different threads interleave in any way (`LockStep`). A lock has an identity,
a number that is never used twice: an entry made after another one was dropped has another
lock. The count is an `int` in the source; it never exceeds the number of threads of the
process, so it is a plain integer here.

What has to be shown is that a thread gives back the lock it took. That is so because an
entry stays, with its lock, as long as a thread waits for it or holds it (`LockInv.entry`),
which in turn is so because its count is the number of those threads (`LockInv.counted`).
-/

namespace AdaptiveSync

open Locks Function

/-! ### The table -/

/-- `MutexEntry`. -/
structure MutexEntry where
  /-- Which lock it is. -/
  mtx : ℕ
  activeCount : ℤ
  deriving DecidableEq

/-- `FileMutex`, with the locks made so far. -/
structure FileMutex where
  mutexMap : AList fun _ : String => MutexEntry
  /-- The state of each lock. -/
  locks : ℕ → RwLock
  /-- How many locks have been made. -/
  made : ℕ

namespace FileMutex

/-- The constructor. -/
def new : FileMutex := ⟨∅, fun _ => .free, 0⟩

variable (m : FileMutex)

/-- The entry of a path. -/
def find (path : String) : Option MutexEntry := m.mutexMap.lookup path

/-- `get_or_create`: the table after it, and the lock to wait for. -/
def getOrCreate (path : String) : FileMutex × ℕ :=
  match m.find path with
  | some e => ({ m with
      mutexMap := m.mutexMap.insert path { e with activeCount := e.activeCount + 1 } }, e.mtx)
  | none => ({
      mutexMap := m.mutexMap.insert path ⟨m.made, 1⟩
      locks := update m.locks m.made .free
      made := m.made + 1 }, m.made)

/-- `lock_shared` and `lock`, when the lock is granted. -/
def lock (mode : Mode) (mtx : ℕ) : FileMutex :=
  { m with locks := update m.locks mtx ((m.locks mtx).acquire mode) }

/-- What `release_read` and `release_write` have in common. -/
def release (mode : Mode) (path : String) : FileMutex :=
  match m.find path with
  | some e => { m with
      locks := update m.locks e.mtx ((m.locks e.mtx).release mode)
      mutexMap := m.mutexMap.insert path { e with activeCount := e.activeCount - 1 } }
  | none => m

/-- `release_read`. -/
def releaseRead (path : String) : FileMutex := m.release .read path

/-- `release_write`. -/
def releaseWrite (path : String) : FileMutex := m.release .write path

/-- One round of the loop of `cleanup_unused`. -/
def sweep (map : AList fun _ : String => MutexEntry) (path : String) :
    AList fun _ : String => MutexEntry :=
  match map.lookup path with
  | some e => if e.activeCount ≤ 0 then map.erase path else map
  | none => map

/-- `cleanup_unused`. -/
def cleanupUnused : FileMutex := { m with mutexMap := m.mutexMap.keys.foldl sweep m.mutexMap }

/-- The count of a path: zero when it has no entry. -/
def activeCount (path : String) : ℤ :=
  match m.find path with
  | some e => e.activeCount
  | none => 0

/-! ### Looking up -/

variable {m} {path q : String}

theorem find_getOrCreate_of_ne (h : q ≠ path) : (m.getOrCreate path).1.find q = m.find q := by
  unfold getOrCreate
  split
  · exact AList.lookup_insert_ne h
  · exact AList.lookup_insert_ne h

/-- The entry of the path counts one more, and its lock is the one to wait for. -/
theorem find_getOrCreate (m : FileMutex) (path : String) :
    (m.getOrCreate path).1.find path =
      some ⟨(m.getOrCreate path).2, m.activeCount path + 1⟩ := by
  unfold getOrCreate activeCount
  split
  · exact AList.lookup_insert _
  · exact AList.lookup_insert _

/-- The lock of an entry that is there is not replaced. -/
theorem getOrCreate_snd_of_find {e : MutexEntry} (h : m.find path = some e) :
    (m.getOrCreate path).2 = e.mtx := by
  rw [getOrCreate, h]

theorem find_getOrCreate_of_find {e : MutexEntry} (path : String) (h : m.find q = some e) :
    ∃ n, (m.getOrCreate path).1.find q = some ⟨e.mtx, n⟩ := by
  by_cases hq : q = path
  · subst hq
    exact ⟨_, getOrCreate_snd_of_find h ▸ m.find_getOrCreate q⟩
  · exact ⟨e.activeCount, (find_getOrCreate_of_ne hq).trans h⟩

theorem made_le_getOrCreate (m : FileMutex) (path : String) :
    m.made ≤ (m.getOrCreate path).1.made := by
  unfold getOrCreate
  split
  · exact le_refl _
  · exact Nat.le_succ _

/-- The lock to wait for is among those made. -/
theorem getOrCreate_snd_lt (h : ∀ e, m.find path = some e → e.mtx < m.made) :
    (m.getOrCreate path).2 < (m.getOrCreate path).1.made := by
  unfold getOrCreate
  split
  · next e he => exact h e he
  · exact Nat.lt_succ_self _

/-- The locks stay as they are, and a new one is free. -/
theorem locks_getOrCreate (m : FileMutex) (path : String) (mtx : ℕ) :
    (m.getOrCreate path).1.locks mtx = m.locks mtx ∨
      mtx = m.made ∧ (m.getOrCreate path).1.locks mtx = .free := by
  unfold getOrCreate
  split
  · exact Or.inl rfl
  · by_cases hmtx : mtx = m.made
    · exact Or.inr ⟨hmtx, by simp [hmtx]⟩
    · exact Or.inl (update_of_ne hmtx _ _)

/-- The lock of a new entry is free. -/
theorem free_getOrCreate_of_none (h : m.find path = none) :
    (m.getOrCreate path).1.locks (m.getOrCreate path).2 = .free := by
  rw [getOrCreate, h]
  exact update_self ..

/-- The entry of the path counts one less. -/
theorem release_of_find {e : MutexEntry} (mode : Mode) (h : m.find path = some e) :
    (m.release mode path).find path = some ⟨e.mtx, e.activeCount - 1⟩ ∧
      (m.release mode path).locks = update m.locks e.mtx ((m.locks e.mtx).release mode) ∧
      (m.release mode path).made = m.made := by
  rw [release, h]
  exact ⟨AList.lookup_insert _, rfl, rfl⟩

theorem activeCount_of_find {e : MutexEntry} (h : m.find path = some e) :
    m.activeCount path = e.activeCount := by
  rw [activeCount, h]

theorem activeCount_of_none (h : m.find path = none) : m.activeCount path = 0 := by
  rw [activeCount, h]

theorem activeCount_congr {m' : FileMutex} (h : m'.find path = m.find path) :
    m'.activeCount path = m.activeCount path := by
  rw [activeCount, h, activeCount]

theorem find_release_of_ne (mode : Mode) (h : q ≠ path) :
    (m.release mode path).find q = m.find q := by
  unfold release
  split
  · exact AList.lookup_insert_ne h
  · rfl

theorem find_release_of_find {e : MutexEntry} (mode : Mode) (path : String)
    (h : m.find q = some e) : ∃ n, (m.release mode path).find q = some ⟨e.mtx, n⟩ := by
  by_cases hq : q = path
  · subst hq
    exact ⟨_, (release_of_find mode h).1⟩
  · exact ⟨e.activeCount, (find_release_of_ne mode hq).trans h⟩

theorem lookup_sweep (map : AList fun _ : String => MutexEntry) (path q : String) :
    (sweep map path).lookup q =
      if q = path then (map.lookup q).filter (fun e => 0 < e.activeCount) else map.lookup q := by
  unfold sweep
  split
  · next e he =>
    by_cases hq : q = path
    · rw [if_pos hq, hq, he]
      -- the entry of this path is dropped exactly when its count is not positive
      split
      · next hle => rw [AList.lookup_erase, Option.filter_some_neg (by simpa using hle)]
      · next hpos => rw [he, Option.filter_some_pos (by simpa using hpos)]
    · rw [if_neg hq]
      split
      · exact AList.lookup_erase_ne hq
      · rfl
  · next he =>
    split
    · next hq => rw [hq, he]; rfl
    · rfl

/-- After `cleanup_unused` exactly the entries with a positive count are left. -/
theorem find_cleanupUnused (m : FileMutex) (path : String) :
    m.cleanupUnused.find path = (m.find path).filter fun e => 0 < e.activeCount := by
  have hfold : ∀ (paths : List String) (map : AList fun _ : String => MutexEntry),
      (paths.foldl sweep map).lookup path =
        if path ∈ paths then (map.lookup path).filter (fun e => 0 < e.activeCount)
        else map.lookup path := by
    intro paths
    induction paths with
    | nil => intro map; simp
    | cons q paths ih =>
      intro map
      rw [List.foldl_cons, ih, lookup_sweep]
      by_cases hq : path = q
      · simp [hq, Option.filter_filter]
      · simp [hq]
  rw [cleanupUnused, find, hfold]
  split
  · rfl
  · next hmem =>
    -- a path that is not visited has no entry
    have hnone : m.mutexMap.lookup path = none := AList.lookup_eq_none.mpr hmem
    rw [find, hnone]
    rfl

end FileMutex

/-! ### Threads -/

/-- Where a thread is. -/
inductive LockPhase where
  /-- Outside. -/
  | idle
  /-- After `get_or_create`, before it has the lock. -/
  | waiting (path : String) (mode : Mode) (mtx : ℕ)
  /-- Between the lock and its release. The lock it took is not remembered by the program:
  it is found again by its path. -/
  | holding (path : String) (mode : Mode) (mtx : ℕ)
  deriving DecidableEq

namespace LockPhase

/-- The thread waits for the lock of the path, or holds it. -/
def Engaged (path : String) : LockPhase → Prop
  | .idle => False
  | .waiting q _ _ => q = path
  | .holding q _ _ => q = path

/-- The thread holds the path in the mode. -/
def Holds (path : String) (mode : Mode) : LockPhase → Prop
  | .holding q mode' _ => q = path ∧ mode' = mode
  | _ => False

/-- The thread has the lock `mtx` in the mode. -/
def Has (mtx : ℕ) (mode : Mode) : LockPhase → Prop
  | .holding _ mode' mtx' => mtx' = mtx ∧ mode' = mode
  | _ => False

/-- The thread has taken its lock from the entry of the path. -/
def Uses (path : String) (mtx : ℕ) (ph : LockPhase) : Prop :=
  ∃ mode, ph = .waiting path mode mtx ∨ ph = .holding path mode mtx

instance (path : String) : DecidablePred (Engaged path)
  | .idle => inferInstanceAs (Decidable False)
  | .waiting q _ _ => inferInstanceAs (Decidable (q = path))
  | .holding q _ _ => inferInstanceAs (Decidable (q = path))

instance (mtx : ℕ) (mode : Mode) : DecidablePred (Has mtx mode)
  | .idle => inferInstanceAs (Decidable False)
  | .waiting _ _ _ => inferInstanceAs (Decidable False)
  | .holding _ mode' mtx' => inferInstanceAs (Decidable (mtx' = mtx ∧ mode' = mode))

theorem not_uses_idle {path : String} {mtx : ℕ} : ¬ Uses path mtx .idle := by
  simp [Uses]

theorem uses_waiting_iff {path q : String} {mode : Mode} {mtx mtx' : ℕ} :
    Uses q mtx' (.waiting path mode mtx) ↔ path = q ∧ mtx = mtx' := by
  simp [Uses]

theorem uses_holding_iff {path q : String} {mode : Mode} {mtx mtx' : ℕ} :
    Uses q mtx' (.holding path mode mtx) ↔ path = q ∧ mtx = mtx' := by
  simp [Uses]

/-- After one thread has moved, it or another one uses the lock. -/
theorem Uses.of_update {T : Type} [DecidableEq T] {phase : T → LockPhase} {t u : T}
    {ph : LockPhase} {path : String} {mtx : ℕ} (h : Uses path mtx (update phase t ph u)) :
    Uses path mtx ph ∨ Uses path mtx (phase u) := by
  by_cases hu : u = t
  · rw [hu, update_self] at h
    exact Or.inl h
  · rw [update_of_ne hu] at h
    exact Or.inr h

theorem engaged_iff {path : String} {ph : LockPhase} :
    ph.Engaged path ↔ ∃ mtx, ph.Uses path mtx := by
  cases ph <;> simp [Engaged, Uses]

theorem Uses.engaged {path : String} {mtx : ℕ} {ph : LockPhase} (h : ph.Uses path mtx) :
    ph.Engaged path :=
  engaged_iff.mpr ⟨mtx, h⟩

end LockPhase

/-- The table and the threads at it. -/
structure LockState (T : Type) where
  table : FileMutex
  phase : T → LockPhase

variable {T : Type}

/-- Nothing has been locked yet. -/
def LockState.start : LockState T := ⟨.new, fun _ => .idle⟩

variable [DecidableEq T]

/-- **One critical section, or the end of one wait.** -/
inductive LockStep : LockState T → LockState T → Prop
  /-- `acquire_read` or `acquire_write`, up to the wait. -/
  | getOrCreate {s : LockState T} (t : T) (path : String) (mode : Mode) (h : s.phase t = .idle) :
      LockStep s ⟨(s.table.getOrCreate path).1,
        update s.phase t (.waiting path mode (s.table.getOrCreate path).2)⟩
  /-- The wait ends. -/
  | lock {s : LockState T} (t : T) {path : String} {mode : Mode} {mtx : ℕ}
      (h : s.phase t = .waiting path mode mtx) (hgrant : (s.table.locks mtx).Grants mode) :
      LockStep s ⟨s.table.lock mode mtx, update s.phase t (.holding path mode mtx)⟩
  /-- `release_read` or `release_write`. -/
  | release {s : LockState T} (t : T) {path : String} {mode : Mode} {mtx : ℕ}
      (h : s.phase t = .holding path mode mtx) :
      LockStep s ⟨s.table.release mode path, update s.phase t .idle⟩
  /-- `cleanup_unused`, by anyone. -/
  | cleanup {s : LockState T} : LockStep s ⟨s.table.cleanupUnused, s.phase⟩

/-- The states the threads can bring the table to. -/
def LockReach : LockState T → Prop := Relation.ReflTransGen LockStep LockState.start

/-! ### The invariant -/

variable [Fintype T]

/-- How many threads wait for the lock of the path or hold it. -/
def LockState.engaged (s : LockState T) (path : String) : ℕ :=
  tally s.phase (LockPhase.Engaged path)

/-- What every interleaving keeps. -/
structure LockInv (s : LockState T) : Prop where
  /-- The count of a path is the number of threads at it. -/
  counted : ∀ path, s.table.activeCount path = s.engaged path
  /-- The lock a thread waits for or holds is still the one of the path's entry. -/
  entry : ∀ t path mtx, (s.phase t).Uses path mtx → ∃ n, s.table.find path = some ⟨mtx, n⟩
  /-- The locks of the entries are among those made. -/
  fresh : ∀ path e, s.table.find path = some e → e.mtx < s.table.made
  /-- A lock is in the state its holders have put it in. -/
  held : ∀ mtx, (s.table.locks mtx).HeldBy fun mode => tally s.phase (LockPhase.Has mtx mode)

omit [DecidableEq T] in
theorem LockInv.start : LockInv (LockState.start : LockState T) where
  counted path := by
    have hzero : (LockState.start : LockState T).engaged path = 0 :=
      tally_eq_zero_iff.mpr fun t => by simp [LockState.start, LockPhase.Engaged]
    rw [hzero]
    rfl
  entry t path mtx h := absurd h LockPhase.not_uses_idle
  fresh path e h := absurd h (by simp [LockState.start, FileMutex.new, FileMutex.find])
  held mtx := RwLock.heldBy_free fun mode =>
    tally_eq_zero_iff.mpr fun t => by simp [LockState.start, LockPhase.Has]

namespace LockInv

variable {s : LockState T} {t : T} {path : String} {mode : Mode} {mtx : ℕ}

omit [DecidableEq T] in
/-- A lock that some thread has is among those made. -/
theorem lt_made (h : LockInv s) (hhas : (s.phase t).Has mtx mode) : mtx < s.table.made := by
  cases hph : s.phase t with
  | holding q mode' mtx' =>
    rw [hph] at hhas
    obtain ⟨rfl, -⟩ := hhas
    obtain ⟨n, hn⟩ := h.entry t q mtx' ⟨mode', Or.inr hph⟩
    exact h.fresh q _ hn
  | _ =>
    rw [hph] at hhas
    exact absurd hhas (by simp [LockPhase.Has])

theorem getOrCreate (h : LockInv s) (path : String) (mode : Mode) (hidle : s.phase t = .idle) :
    LockInv ⟨(s.table.getOrCreate path).1,
      update s.phase t (.waiting path mode (s.table.getOrCreate path).2)⟩ where
  counted q := by
    by_cases hq : q = path
    · -- one more thread, counted in the entry
      rw [hq, FileMutex.activeCount_of_find (s.table.find_getOrCreate path), h.counted,
        LockState.engaged, LockState.engaged,
        tally_update_enter (by simp [hidle, LockPhase.Engaged]) (by simp [LockPhase.Engaged])]
      push_cast
      rfl
    · have hsame : tally (update s.phase t (.waiting path mode (s.table.getOrCreate path).2))
          (LockPhase.Engaged q) = tally s.phase (LockPhase.Engaged q) :=
        tally_update_of_iff (by simp [hidle, LockPhase.Engaged, Ne.symm hq])
      rw [FileMutex.activeCount_congr (FileMutex.find_getOrCreate_of_ne hq), h.counted,
        LockState.engaged, LockState.engaged, hsame]
  entry u q mtx huses := by
    obtain huses | huses := LockPhase.Uses.of_update huses
    · -- the thread itself waits for the lock it was handed
      obtain ⟨rfl, rfl⟩ := LockPhase.uses_waiting_iff.mp huses
      exact ⟨_, s.table.find_getOrCreate path⟩
    · -- another one has its lock from an entry that was there
      obtain ⟨n, hn⟩ := h.entry u q mtx huses
      exact FileMutex.find_getOrCreate_of_find path hn
  fresh q e he := by
    by_cases hq : q = path
    · rw [hq, s.table.find_getOrCreate path] at he
      obtain rfl := Option.some.inj he
      exact FileMutex.getOrCreate_snd_lt (h.fresh path)
    · have hold := (FileMutex.find_getOrCreate_of_ne hq).symm.trans he
      exact lt_of_lt_of_le (h.fresh q e hold) (s.table.made_le_getOrCreate path)
  held mtx := by
    have hsame : ∀ mode', tally (update s.phase t (.waiting path mode (s.table.getOrCreate path).2))
        (LockPhase.Has mtx mode') = tally s.phase (LockPhase.Has mtx mode') := fun mode' =>
      tally_update_of_iff (by simp [hidle, LockPhase.Has])
    refine RwLock.HeldBy.of_eq ?_ hsame
    obtain hlocks | ⟨rfl, hfree⟩ := s.table.locks_getOrCreate path mtx
    · rw [hlocks]
      exact h.held mtx
    · -- nobody has a lock that was not made yet
      rw [hfree]
      refine RwLock.heldBy_free fun mode' => tally_eq_zero_iff.mpr fun u hu => ?_
      exact absurd (h.lt_made hu) (lt_irrefl _)

theorem lock (h : LockInv s) (hwait : s.phase t = .waiting path mode mtx)
    (hgrant : (s.table.locks mtx).Grants mode) :
    LockInv ⟨s.table.lock mode mtx, update s.phase t (.holding path mode mtx)⟩ where
  counted q := by
    have hsame : tally (update s.phase t (.holding path mode mtx)) (LockPhase.Engaged q) =
        tally s.phase (LockPhase.Engaged q) :=
      tally_update_of_iff (by simp [hwait, LockPhase.Engaged])
    rw [LockState.engaged, hsame]
    exact h.counted q
  entry u q mtx' huses := by
    obtain huses | huses := LockPhase.Uses.of_update huses
    · -- the thread goes on to use the lock it waited for
      obtain ⟨rfl, rfl⟩ := LockPhase.uses_holding_iff.mp huses
      exact h.entry t path mtx ⟨mode, Or.inl hwait⟩
    · exact h.entry u q mtx' huses
  fresh := h.fresh
  held mtx' := by
    simp only [FileMutex.lock]
    by_cases hmtx : mtx' = mtx
    · rw [hmtx, update_self]
      refine (h.held mtx).acquire hgrant ?_ fun mode' hmode => ?_
      · exact tally_update_enter (by simp [hwait, LockPhase.Has]) (by simp [LockPhase.Has])
      · exact tally_update_of_iff (by simp [hwait, LockPhase.Has, hmode.symm])
    · rw [update_of_ne hmtx]
      refine (h.held mtx').of_eq fun mode' => tally_update_of_iff ?_
      simp [hwait, LockPhase.Has, Ne.symm hmtx]

theorem release (h : LockInv s) (hhold : s.phase t = .holding path mode mtx) :
    LockInv ⟨s.table.release mode path, update s.phase t .idle⟩ := by
  -- the entry found by the path is the one the lock was taken from
  obtain ⟨n, hn⟩ := h.entry t path mtx ⟨mode, Or.inr hhold⟩
  obtain ⟨hfind, hlocks, hmade⟩ := FileMutex.release_of_find mode hn
  refine ⟨fun q => ?_, fun u q mtx' huses => ?_, fun q e he => ?_, fun mtx' => ?_⟩
  · by_cases hq : q = path
    · have hleave : tally (update s.phase t .idle) (LockPhase.Engaged path) + 1 =
          tally s.phase (LockPhase.Engaged path) :=
        tally_update_leave (by simp [hhold, LockPhase.Engaged]) (by simp [LockPhase.Engaged])
      have hcount := h.counted path
      rw [FileMutex.activeCount_of_find hn, LockState.engaged, ← hleave] at hcount
      rw [hq, FileMutex.activeCount_of_find hfind, hcount, LockState.engaged]
      push_cast
      omega
    · have hsame : tally (update s.phase t .idle) (LockPhase.Engaged q) =
          tally s.phase (LockPhase.Engaged q) :=
        tally_update_of_iff (by simp [hhold, LockPhase.Engaged, Ne.symm hq])
      rw [FileMutex.activeCount_congr (FileMutex.find_release_of_ne mode hq), h.counted,
        LockState.engaged, LockState.engaged, hsame]
  · obtain huses | huses := LockPhase.Uses.of_update huses
    · exact absurd huses LockPhase.not_uses_idle
    · obtain ⟨n', hn'⟩ := h.entry u q mtx' huses
      exact FileMutex.find_release_of_find mode path hn'
  · simp only [hmade]
    by_cases hq : q = path
    · rw [hq, hfind] at he
      obtain rfl := Option.some.inj he
      exact h.fresh path ⟨mtx, n⟩ hn
    · exact h.fresh q e ((FileMutex.find_release_of_ne mode hq).symm.trans he)
  · simp only [hlocks]
    by_cases hmtx : mtx' = mtx
    · rw [hmtx, update_self]
      refine (h.held mtx).release (m := mode) ?_ fun mode' hmode => ?_
      · exact tally_update_leave (by simp [hhold, LockPhase.Has]) (by simp [LockPhase.Has])
      · exact tally_update_of_iff (by simp [hhold, LockPhase.Has, hmode.symm])
    · rw [update_of_ne hmtx]
      refine (h.held mtx').of_eq fun mode' => tally_update_of_iff ?_
      simp [hhold, LockPhase.Has, Ne.symm hmtx]

omit [DecidableEq T] in
/-- An entry that a thread is at has a positive count. -/
theorem pos_of_engaged (h : LockInv s) (heng : (s.phase t).Engaged path) {e : MutexEntry}
    (he : s.table.find path = some e) : 0 < e.activeCount := by
  have hpos : 0 < s.engaged path := tally_pos heng
  have hcount := h.counted path
  rw [FileMutex.activeCount_of_find he] at hcount
  omega

omit [DecidableEq T] in
theorem cleanup (h : LockInv s) : LockInv ⟨s.table.cleanupUnused, s.phase⟩ where
  counted path := by
    have hcount := h.counted path
    have hfind := s.table.find_cleanupUnused path
    refine Eq.trans ?_ hcount
    cases he : s.table.find path with
    | none =>
      rw [he] at hfind
      rw [FileMutex.activeCount_of_none hfind, FileMutex.activeCount_of_none he]
    | some e =>
      rw [he] at hfind
      rw [FileMutex.activeCount_of_find he] at hcount ⊢
      by_cases hpos : 0 < e.activeCount
      · rw [Option.filter_some_pos (by simpa using hpos)] at hfind
        exact FileMutex.activeCount_of_find hfind
      · -- a dropped entry counted nobody
        rw [Option.filter_some_neg (by simpa using hpos)] at hfind
        rw [FileMutex.activeCount_of_none hfind]
        omega
  entry t path mtx huses := by
    obtain ⟨n, hn⟩ := h.entry t path mtx huses
    have hpos := h.pos_of_engaged huses.engaged hn
    refine ⟨n, ?_⟩
    rw [FileMutex.find_cleanupUnused, hn, Option.filter_some_pos (by simpa using hpos)]
  fresh path e he := by
    rw [FileMutex.find_cleanupUnused] at he
    exact h.fresh path e (Option.eq_some_of_filter_eq_some he)
  held := h.held

/-- One step keeps the invariant. -/
theorem step {s' : LockState T} (h : LockInv s) (hstep : LockStep s s') : LockInv s' := by
  cases hstep with
  | getOrCreate t path mode hidle => exact h.getOrCreate path mode hidle
  | lock t hwait hgrant => exact h.lock hwait hgrant
  | release t hhold => exact h.release hhold
  | cleanup => exact h.cleanup

/-- Every interleaving keeps the invariant. -/
theorem reach (h : LockReach s) : LockInv s := by
  induction h with
  | refl => exact LockInv.start
  | tail _ hstep ih => exact ih.step hstep

end LockInv

/-! ### What the table is for -/

/-- The table does what it is for, in this state and at every step from it. -/
structure LocksCorrectly (s : LockState T) : Prop where
  /-- The count of a path is the number of threads that wait for it or hold it. -/
  counted : ∀ path, s.table.activeCount path = s.engaged path
  /-- While a thread waits for a path or holds it, the path has an entry, and no step drops
  the entry or puts another lock into it. -/
  stable : ∀ t path, (s.phase t).Engaged path → ∃ e, s.table.find path = some e ∧
    ∀ s', LockStep s s' → ∃ e', s'.table.find path = some e' ∧ e'.mtx = e.mtx
  /-- A thread that holds a path for writing is the only one that holds it. -/
  exclusive : ∀ path t u mode, (s.phase t).Holds path .write → (s.phase u).Holds path mode → t = u

section Consequences

variable {s s' : LockState T} {t u : T} {path : String} {mode : Mode}

/-- A step from a state with the invariant keeps the lock of an entry that a thread is at. -/
theorem LockInv.stable (h : LockInv s) (heng : (s.phase t).Engaged path) {e : MutexEntry}
    (he : s.table.find path = some e) (hstep : LockStep s s') :
    ∃ e', s'.table.find path = some e' ∧ e'.mtx = e.mtx := by
  cases hstep with
  | getOrCreate u q mode hidle =>
    obtain ⟨n, hn⟩ := FileMutex.find_getOrCreate_of_find q he
    exact ⟨_, hn, rfl⟩
  | lock => exact ⟨e, he, rfl⟩
  | @release _ q mode' mtx hhold =>
    obtain ⟨n, hn⟩ := FileMutex.find_release_of_find mode' q he
    exact ⟨_, hn, rfl⟩
  | cleanup =>
    -- the count is positive, so the entry is not swept away
    have hpos := h.pos_of_engaged heng he
    refine ⟨e, ?_, rfl⟩
    rw [FileMutex.find_cleanupUnused, he, Option.filter_some_pos (by simpa using hpos)]

omit [DecidableEq T] [Fintype T] in
theorem LockPhase.Holds.exists_mtx (h : (s.phase t).Holds path mode) :
    ∃ mtx, (s.phase t).Uses path mtx ∧ (s.phase t).Has mtx mode := by
  cases hph : s.phase t with
  | holding q mode' mtx =>
    rw [hph] at h
    obtain ⟨rfl, rfl⟩ := h
    exact ⟨mtx, ⟨mode', Or.inr rfl⟩, rfl, rfl⟩
  | _ =>
    rw [hph] at h
    exact absurd h (by simp [LockPhase.Holds])

omit [DecidableEq T] in
/-- A writer excludes all others, since both took the lock of one entry. -/
theorem LockInv.exclusive (h : LockInv s) (ht : (s.phase t).Holds path .write)
    (hu : (s.phase u).Holds path mode) : t = u := by
  obtain ⟨mtx, huses, hhas⟩ := ht.exists_mtx
  obtain ⟨mtx', huses', hhas'⟩ := hu.exists_mtx
  -- both locks are the one of the path's entry
  obtain ⟨n, hn⟩ := h.entry t path mtx huses
  obtain ⟨n', hn'⟩ := h.entry u path mtx' huses'
  obtain rfl : mtx = mtx' := congrArg MutexEntry.mtx (Option.some.inj (hn.symm.trans hn'))
  have hheld := h.held mtx
  cases mode with
  | write => exact tally_le_one_iff.mp hheld.one_writer t u hhas hhas'
  | read =>
    -- the writer is counted, so no reader is
    have hwriters := tally_pos hhas
    have hreaders := hheld.alone (Nat.pos_iff_ne_zero.mp hwriters)
    exact absurd hhas' (tally_eq_zero_iff.mp hreaders u)

end Consequences

/-- **The lock table is correct.** In every state that any number of threads can bring it
to, in any interleaving, the count of each path is the number of threads at it, an entry
stays as it is while a thread is at it, and writers exclude all others. -/
theorem lock_table_correct {s : LockState T} (h : LockReach s) : LocksCorrectly s where
  counted := (LockInv.reach h).counted
  stable t path heng := by
    obtain ⟨mtx, huses⟩ := LockPhase.engaged_iff.mp heng
    obtain ⟨n, hn⟩ := (LockInv.reach h).entry t path mtx huses
    exact ⟨_, hn, fun s' hstep => (LockInv.reach h).stable heng hn hstep⟩
  exclusive _ _ _ _ := (LockInv.reach h).exclusive

/-- One thread holds `f` for writing, another one waits for it, and `cleanup_unused` runs. -/
theorem lock_table_correct_two_threads :
    ∃ s : LockState Bool, LockReach s ∧ (s.phase true).Holds "f" .write ∧
      (s.phase false).Engaged "f" ∧ s.table.activeCount "f" = 2 ∧ LocksCorrectly s := by
  have hfirst : LockReach _ := .tail .refl (.getOrCreate true "f" .write rfl)
  have hheld : LockReach _ := hfirst.tail (.lock true rfl (by decide))
  have hwaits : LockReach _ := hheld.tail (.getOrCreate false "f" .read rfl)
  have hswept : LockReach _ := hwaits.tail .cleanup
  exact ⟨_, hswept, ⟨rfl, rfl⟩, rfl, by decide, lock_table_correct hswept⟩

end AdaptiveSync
