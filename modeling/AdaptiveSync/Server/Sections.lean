import AdaptiveSync.Server.DeltaSyncHandler
import AdaptiveSync.Server.FileMutex

/-!
# The locked sections of the delta-sync handlers

Two handlers work under a lock of the path their request names. `handle_block_data` writes
its block to the scratch file under the write lock, and `handle_signature_request` compares
the blocks of the file under the read lock. Sessions share the lock table and the disk, and
go through their sections in any interleaving (`SiteStep`). What other handlers do to the
disk takes no lock, and can happen at any time.

To the lock table a session is a thread (`Site.locks`): every step of a session is one of
its steps, or none (`SiteStep.locks`), so what was shown of the table holds here.

The table knows paths as strings, the disk as locations. Two spellings of one file have two
locks, and two sessions that use them are in their sections at the same time. Hence the
sections of two strings for one file exclude each other exactly when the strings are equal
(`protected_iff`).
-/

namespace AdaptiveSync

open Fs Locks Function
open LexPath (cStr)

/-! ### Sections -/

/-- What a session does under the lock. -/
inductive Task where
  /-- `handle_block_data` is about to write its block. -/
  | write (offset : UInt64) (data : Bytes)
  /-- `handle_block_data` has written its block, or failed to. -/
  | written (ok : Bool)
  /-- `handle_signature_request` has the blocks `todo` left to compare, and has found those
  in `found` to be requested. -/
  | compare (serverSize : UInt64) (blockSize : UInt32)
      (sigs : UInt32 → Option DeltaBlockSignature) (todo found : List UInt32)

/-- The lock a task is done under. -/
def Task.mode : Task → Mode
  | .write _ _ => .write
  | .written _ => .write
  | .compare _ _ _ _ _ => .read

/-- Where a session is. -/
inductive SectionPhase where
  /-- Not at a locked section. -/
  | idle
  /-- About to ask for the lock. -/
  | entering (path : String) (task : Task)
  /-- Waiting for the lock. -/
  | waiting (path : String) (task : Task) (mtx : ℕ)
  /-- Under the lock. -/
  | inside (path : String) (task : Task) (mtx : ℕ)

/-- The session is in a section of the path, under a lock of the mode. -/
def SectionPhase.In (path : String) (mode : Mode) : SectionPhase → Prop
  | .inside q task _ => q = path ∧ task.mode = mode
  | _ => False

/-- What the lock table sees of a session. -/
def SectionPhase.locks : SectionPhase → LockPhase
  | .idle => .idle
  | .entering _ _ => .idle
  | .waiting path task mtx => .waiting path task.mode mtx
  | .inside path task mtx => .holding path task.mode mtx

/-- The lock table and the disk, with the sessions that share them. -/
structure Site (T : Type) where
  table : FileMutex
  fs : FileSystem
  phase : T → SectionPhase

/-- What the lock table sees of the sessions. -/
def Site.locks {T : Type} (w : Site T) : LockState T := ⟨w.table, fun t => (w.phase t).locks⟩

/-- No session has begun. -/
def Site.start {T : Type} (fs : FileSystem) : Site T := ⟨.new, fs, fun _ => .idle⟩

/-- A session goes on to another phase. -/
def Site.move {T : Type} [DecidableEq T] (w : Site T) (t : T) (ph : SectionPhase) : Site T :=
  { w with phase := update w.phase t ph }

@[simp] theorem Site.move_move {T : Type} [DecidableEq T] (w : Site T) (t : T)
    (ph ph' : SectionPhase) : (w.move t ph).move t ph' = w.move t ph' := by
  simp [Site.move]

section Steps

variable (sha256 : Bytes → String) (fm : FileManager) {T : Type} [DecidableEq T]

/-- **One step of a session**, or of what shares the disk with the sections. A request
whose queries throw ends the process, and has no step here. -/
inductive SiteStep : Site T → Site T → Prop
  /-- A block with a matching hash arrives. -/
  | block {w : Site T} (t : T) (path : String) (offset : UInt64) (data : Bytes)
      {strongHash : String} (hidle : w.phase t = .idle) (hhash : sha256 data = strongHash) :
      SiteStep w (w.move t (.entering path (.write offset data)))
  /-- Signatures arrive for a file that is there. -/
  | signatures {w : Site T} (t : T) (path : String) (blockSize : UInt32)
      (sigs : List DeltaBlockSignature) {serverSize : UInt64} {serverBlocks : UInt32}
      (hidle : w.phase t = .idle) (hexists : fm.fileExists w.fs path = .ok true)
      (hsize : fm.getFileSize w.fs path = .ok serverSize)
      (hblocks : blockCount serverSize blockSize = .ok serverBlocks) :
      SiteStep w (w.move t (.entering path
        (.compare serverSize blockSize (clientMap sigs) (indices 0 serverBlocks) [])))
  /-- The first half of `acquire_read` or `acquire_write`. -/
  | getOrCreate {w : Site T} (t : T) {path : String} {task : Task}
      (h : w.phase t = .entering path task) :
      SiteStep w ({ w with table := (w.table.getOrCreate path).1 }.move t
        (.waiting path task (w.table.getOrCreate path).2))
  /-- The second half. -/
  | lock {w : Site T} (t : T) {path : String} {task : Task} {mtx : ℕ}
      (h : w.phase t = .waiting path task mtx) (hgrant : (w.table.locks mtx).Grants task.mode) :
      SiteStep w ({ w with table := w.table.lock task.mode mtx }.move t (.inside path task mtx))
  /-- `write_block_atomic`. -/
  | writeBlock {w : Site T} (t : T) {path : String} {offset : UInt64} {data : Bytes} {mtx : ℕ}
      {ok : Bool} {fs : FileSystem} (h : w.phase t = .inside path (.write offset data) mtx)
      (hwrite : fm.writeBlockAtomic w.fs path offset data = .ok (ok, fs)) :
      SiteStep w ({ w with fs := fs }.move t (.inside path (.written ok) mtx))
  /-- One round of the comparison. -/
  | compareBlock {w : Site T} (t : T) {path : String} {serverSize : UInt64} {blockSize : UInt32}
      {sigs : UInt32 → Option DeltaBlockSignature} {i : UInt32} {todo found : List UInt32}
      {mtx : ℕ} {differs : Bool}
      (h : w.phase t = .inside path (.compare serverSize blockSize sigs (i :: todo) found) mtx)
      (hneeded : DeltaSyncHandler.needed sha256 fm w.fs path serverSize blockSize sigs i =
        .ok differs) :
      SiteStep w (w.move t (.inside path (.compare serverSize blockSize sigs todo
        (if differs then found ++ [i] else found)) mtx))
  /-- `release_write`. -/
  | releaseWrite {w : Site T} (t : T) {path : String} {ok : Bool} {mtx : ℕ}
      (h : w.phase t = .inside path (.written ok) mtx) :
      SiteStep w ({ w with table := w.table.releaseWrite path }.move t .idle)
  /-- `release_read`. -/
  | releaseRead {w : Site T} (t : T) {path : String} {serverSize : UInt64} {blockSize : UInt32}
      {sigs : UInt32 → Option DeltaBlockSignature} {found : List UInt32} {mtx : ℕ}
      (h : w.phase t = .inside path (.compare serverSize blockSize sigs [] found) mtx) :
      SiteStep w ({ w with table := w.table.releaseRead path }.move t .idle)
  /-- Uploads, renames and other programs change the disk. -/
  | disk {w : Site T} (fs : FileSystem) (hos : fs.os = w.fs.os) : SiteStep w { w with fs := fs }

/-- The states the sessions can come to. -/
def SiteReach (fs : FileSystem) : Site T → Prop :=
  Relation.ReflTransGen (SiteStep sha256 fm) (Site.start fs)

end Steps

/-! ### An undisturbed section -/

section Undisturbed

variable {sha256 : Bytes → String} {fm : FileManager} {T : Type} [DecidableEq T]

/-- The rounds of a comparison find what the handler's loop finds. -/
theorem compare_rounds {w : Site T} {t : T} {path : String} {serverSize : UInt64}
    {blockSize : UInt32} {sigs : UInt32 → Option DeltaBlockSignature} {mtx : ℕ}
    (todo : List UInt32) :
    ∀ {found differing : List UInt32},
      todo.filterM (DeltaSyncHandler.needed sha256 fm w.fs path serverSize blockSize sigs) =
        .ok differing →
      Relation.ReflTransGen (SiteStep sha256 fm)
        (w.move t (.inside path (.compare serverSize blockSize sigs todo found) mtx))
        (w.move t
          (.inside path (.compare serverSize blockSize sigs [] (found ++ differing)) mtx)) := by
  induction todo with
  | nil =>
    intro found differing h
    obtain rfl : [] = differing := Except.ok.inj h
    rw [List.append_nil]
  | cons i todo ih =>
    intro found differing h
    obtain ⟨differs, rest, hdiffers, hrest, rfl⟩ := Except.filterM_cons_eq_ok h
    -- one round, and the loop from there
    have hround := SiteStep.compareBlock
      (w := w.move t (.inside path (.compare serverSize blockSize sigs (i :: todo) found) mtx)) t
      (update_self ..) hdiffers
    rw [Site.move_move] at hround
    refine .head hround ?_
    cases differs with
    | true => simpa using @ih (found ++ [i]) rest hrest
    | false => exact ih hrest

/-- **An undisturbed comparison** finds the indices that `handle_signature_request` answers
with, up to those past the end of the server's file. -/
theorem handleSignatureRequest_section {w : Site T} {path : String} {clientFileSize : UInt64}
    {blockSize : UInt32} {sigs : List DeltaBlockSignature} {r : DeltaBlockRequest} (t : T) (mtx : ℕ)
    (hexists : fm.fileExists w.fs path = .ok true)
    (h : DeltaSyncHandler.handleSignatureRequest sha256 fm w.fs path clientFileSize blockSize sigs =
      .ok r) :
    ∃ serverSize serverBlocks clientBlocks found,
      fm.getFileSize w.fs path = .ok serverSize ∧
      blockCount serverSize blockSize = .ok serverBlocks ∧
      r = ⟨path, found ++ indices serverBlocks clientBlocks⟩ ∧
      Relation.ReflTransGen (SiteStep sha256 fm)
        (w.move t (.inside path
          (.compare serverSize blockSize (clientMap sigs) (indices 0 serverBlocks) []) mtx))
        (w.move t (.inside path
          (.compare serverSize blockSize (clientMap sigs) [] found) mtx)) := by
  unfold DeltaSyncHandler.handleSignatureRequest at h
  rw [hexists, Except.ok_bind] at h
  simp only [Bool.not_true, Bool.false_eq_true, if_false] at h
  obtain ⟨serverSize, hsize, h⟩ := Except.bind_eq_ok_iff.mp h
  obtain ⟨serverBlocks, hblocks, h⟩ := Except.bind_eq_ok_iff.mp h
  obtain ⟨found, hfound, h⟩ := Except.bind_eq_ok_iff.mp h
  obtain ⟨clientBlocks, -, h⟩ := Except.bind_eq_ok_iff.mp h
  refine ⟨serverSize, serverBlocks, clientBlocks, found, hsize, hblocks,
    (Except.ok.inj h).symm, ?_⟩
  exact compare_rounds _ hfound

end Undisturbed

/-! ### Sessions as threads of the lock table -/

section Threads

variable {sha256 : Bytes → String} {fm : FileManager} {T : Type} [DecidableEq T]

theorem Site.locks_move (w : Site T) (t : T) (ph : SectionPhase) :
    (w.move t ph).locks = ⟨w.table, update w.locks.phase t ph.locks⟩ := by
  simp only [Site.locks, Site.move, LockState.mk.injEq, true_and]
  funext u
  by_cases hu : u = t
  · rw [hu, update_self, update_self]
  · rw [update_of_ne hu, update_of_ne hu]

/-- A move that looks the same to the table. -/
theorem Site.locks_stutter {w : Site T} {t : T} {ph : SectionPhase}
    (h : ph.locks = (w.phase t).locks) : (w.move t ph).locks = w.locks := by
  have hsame : update w.locks.phase t ph.locks = w.locks.phase := by
    rw [h]
    exact update_eq_self t _
  rw [Site.locks_move, hsame]
  rfl

/-- What a step of a session is to the lock table. -/
theorem SiteStep.locks {w w' : Site T} (h : SiteStep sha256 fm w w') :
    LockStep w.locks w'.locks ∨ w'.locks = w.locks := by
  cases h with
  | block t path offset data hidle hhash =>
    exact Or.inr (Site.locks_stutter (by rw [hidle]; rfl))
  | signatures t path blockSize sigs hidle _ _ _ =>
    exact Or.inr (Site.locks_stutter (by rw [hidle]; rfl))
  | @getOrCreate t path task h =>
    rw [Site.locks_move]
    exact Or.inl (.getOrCreate t path task.mode (congrArg SectionPhase.locks h))
  | lock t h hgrant =>
    rw [Site.locks_move]
    exact Or.inl (.lock t (congrArg SectionPhase.locks h) hgrant)
  | @writeBlock t path offset data mtx ok fs h _ =>
    -- the disk is nothing to the table
    exact Or.inr (Site.locks_stutter (w := { w with fs := fs }) (by rw [h]; rfl))
  | compareBlock t h _ => exact Or.inr (Site.locks_stutter (by rw [h]; rfl))
  | releaseWrite t h =>
    rw [Site.locks_move]
    exact Or.inl (.release t (congrArg SectionPhase.locks h))
  | releaseRead t h =>
    rw [Site.locks_move]
    exact Or.inl (.release t (congrArg SectionPhase.locks h))
  | disk fs _ => exact Or.inr rfl

/-- The lock table of sessions is in a state that threads can bring it to. -/
theorem SiteReach.locks {fs : FileSystem} {w : Site T} (h : SiteReach sha256 fm fs w) :
    LockReach w.locks := by
  induction h with
  | refl => exact Relation.ReflTransGen.refl
  | tail _ hstep ih =>
    rcases hstep.locks with hlock | hsame
    · exact ih.tail hlock
    · rw [hsame]
      exact ih

theorem SectionPhase.In.holds {path : String} {mode : Mode} {ph : SectionPhase}
    (h : ph.In path mode) : ph.locks.Holds path mode := by
  cases ph with
  | inside q task mtx => exact h
  | _ => exact absurd h (by simp [SectionPhase.In])

end Threads

/-! ### Locks and files -/

/-- The two strings are names of one file. -/
def SameFile (fm : FileManager) (fs : FileSystem) (p q : String) : Prop :=
  ∃ t u, fm.resolvePath p = .ok t ∧ fm.resolvePath q = .ok u ∧
    fs.locate (cStr t) = fs.locate (cStr u)

/-- Two sessions are in sections of `p` and `q`, one of them in that of `handle_block_data`. -/
def Conflict {T : Type} (w : Site T) (t u : T) (p q : String) : Prop :=
  ∃ mode mode', (w.phase t).In p mode ∧ (w.phase u).In q mode' ∧ (mode = .write ∨ mode' = .write)

/-- If `p` and `q` name one file, no two sessions ever conflict on it, however many there
are and however their requests interleave. -/
def Protected (sha256 : Bytes → String) (fm : FileManager) (fs : FileSystem) (p q : String) :
    Prop :=
  SameFile fm fs p q →
    ∀ (T : Type) [Fintype T] [DecidableEq T] (w : Site T), SiteReach sha256 fm fs w →
      ∀ t u, t ≠ u → ¬ Conflict w t u p q

section Protected

variable {sha256 : Bytes → String} {fm : FileManager} {fs : FileSystem} {p q : String}

/-- Sections of one string exclude each other. -/
theorem not_conflict_self {T : Type} [Fintype T] [DecidableEq T] {w : Site T}
    (h : SiteReach sha256 fm fs w) {t u : T} (hne : t ≠ u) : ¬ Conflict w t u p p := by
  have hinv := LockInv.reach h.locks
  rintro ⟨mode, mode', ht, hu, rfl | rfl⟩
  · exact hne (hinv.exclusive ht.holds hu.holds)
  · exact hne (hinv.exclusive hu.holds ht.holds).symm

/-- A session enters the section of a path that has no entry: it makes the entry, with a
lock that is free. -/
theorem SiteReach.enter {T : Type} [DecidableEq T] {w : Site T} (h : SiteReach sha256 fm fs w)
    {t : T} (hidle : w.phase t = .idle) (hnone : w.table.find p = none) :
    ∃ w' : Site T, SiteReach sha256 fm fs w' ∧ (w'.phase t).In p .write ∧
      (∀ u, u ≠ t → w'.phase u = w.phase u) ∧
      ∀ r, r ≠ p → w'.table.find r = w.table.find r := by
  have harrived := h.tail (.block t p 0 [] hidle rfl)
  have hwaits := harrived.tail (.getOrCreate t (update_self ..))
  have hfree : ((w.table.getOrCreate p).1.locks (w.table.getOrCreate p).2).Grants .write := by
    rw [FileMutex.free_getOrCreate_of_none hnone]
    exact ⟨rfl, rfl⟩
  have hinside := hwaits.tail (.lock t (update_self ..) hfree)
  refine ⟨_, hinside, ?_, fun u hu => ?_, fun r hr => ?_⟩
  · simp [Site.move, SectionPhase.In, Task.mode]
  · simp [Site.move, hu]
  · exact FileMutex.find_getOrCreate_of_ne hr

/-- Sections of two strings do not: the second one finds no entry, and makes its own. -/
theorem exists_conflict (sha256 : Bytes → String) (fm : FileManager) (fs : FileSystem)
    (hne : p ≠ q) :
    ∃ w : Site Bool, SiteReach sha256 fm fs w ∧ Conflict w true false p q := by
  have hstart : SiteReach sha256 fm fs (Site.start fs : Site Bool) := .refl
  obtain ⟨w, hw, hin, hothers, htable⟩ := hstart.enter (t := true) (p := p) rfl rfl
  have hidle : w.phase false = .idle := hothers false (by simp)
  obtain ⟨w', hw', hin', hothers', -⟩ := hw.enter (p := q) hidle (htable q hne.symm)
  refine ⟨w', hw', .write, .write, ?_, hin', Or.inl rfl⟩
  rw [hothers' true (by simp)]
  exact hin

/-- **Locks protect spellings.** Two strings for one file keep sessions apart exactly when
they are the same string. -/
theorem protected_iff (sha256 : Bytes → String) (fm : FileManager) (fs : FileSystem)
    (p q : String) : Protected sha256 fm fs p q ↔ (SameFile fm fs p q → p = q) := by
  constructor
  · intro h hsame
    by_contra hne
    obtain ⟨w, hw, hconflict⟩ := exists_conflict sha256 fm fs hne
    exact h hsame Bool w hw true false (by simp) hconflict
  · intro h hsame T _ _ w hw t u htu
    rw [← h hsame]
    exact not_conflict_self hw htu

/-- Two spellings of one file, on an empty disk. -/
theorem not_protected_dot :
    ¬ Protected sha256Hex ⟨"./storage", by decide⟩ ⟨∅, Os.calm⟩ "f" "./f" := by
  have hsame : SameFile ⟨"./storage", by decide⟩ ⟨∅, Os.calm⟩ "f" "./f" :=
    ⟨"./storage/f".toList, "./storage/f".toList, by decide, by decide, rfl⟩
  obtain ⟨w, hw, hconflict⟩ := exists_conflict (p := "f") (q := "./f") sha256Hex
    ⟨"./storage", by decide⟩ ⟨∅, Os.calm⟩ (by decide)
  exact fun h => h hsame Bool w hw true false (by simp) hconflict

end Protected

end AdaptiveSync
