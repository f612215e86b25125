import AdaptiveSync.Lib.Inodes
import AdaptiveSync.Server.DeltaSyncHandler

/-!
# Concurrent commits

Several sessions commit a file to one path `p` at the same time. All of them go through the
same scratch file `p.tmp`: an upload opens it, cutting it to length zero, writes and
renames; a session that sends blocks opens it for each block, creating it when it is not
there, and renames after the last one. Each session's calls come in their order, and the
calls of different sessions interleave in any way (`World.Step`). The write lock of
`FileMutex` is held from the opening for a block to its write and by nobody else; uploads
and renames take no lock.

The calls work on inodes (`Inodes`): a handle on `p.tmp` is good after `p.tmp` was renamed
to `p`. The lemmas `shows_…` say that, one after another, they do what the functions of
`FileManager` do.

What a commit publishes is what happens to be in the scratch file when it renames. A
session that starts on the scratch file while another one is between its first call and
its rename cuts or overwrites what the other is about to publish, or writes into what it
has published. When no session starts in that window (`Exclusive`), the file is whole in
every state of every run (`whole_of_exclusive`).

All this takes the scratch file to be another file. Where U+0000 in the path cuts the suffix
off, the calls for the scratch file find the file itself (`tmpSlot`).
-/

namespace AdaptiveSync

open Fs Blocks Inodes Function
open LexPath (cStr nul)

/-! ### What sessions commit -/

/-- The names a commit works with: the file and its scratch file. -/
inductive Slot where
  | file | scratch
  deriving DecidableEq

/-- The name that the calls for the scratch file of a path find. -/
def tmpSlot (t : LexPath.Text) : Slot := if nul ∈ t then .file else .scratch

theorem tmpSlot_of_mem {t : LexPath.Text} (h : nul ∈ t) : tmpSlot t = .file := if_pos h

theorem tmpSlot_of_not_mem {t : LexPath.Text} (h : nul ∉ t) : tmpSlot t = .scratch := if_neg h

/-- The directory of the file. -/
abbrev Disk := Store Slot UInt8

/-- What a session has to commit. -/
inductive Job where
  /-- A whole file, through `handle_zero_copy_upload_request`. -/
  | upload (content : Bytes)
  /-- All blocks of a file through `handle_block_data`, the last one being short. -/
  | blocks (content : Bytes) (b : ℕ) (pos : 0 < b) (short : content.length % b ≠ 0)

/-- The content a session submits. -/
def Job.content : Job → Bytes
  | .upload content => content
  | .blocks content _ _ _ => content

/-- How far a session has got. -/
inductive Phase where
  /-- Nothing done. -/
  | start
  /-- The scratch file is open for an upload. -/
  | opened (handle : ℕ)
  /-- Block `k` is handled next. -/
  | waiting (k : ℕ)
  /-- Under the lock, before block `k`: there was no scratch file to open. -/
  | creating (k : ℕ)
  /-- Under the lock, before block `k`: the scratch file was created and is opened again. -/
  | reopening (k : ℕ)
  /-- Under the lock: the scratch file is open for block `k`. -/
  | merging (k : ℕ) (handle : ℕ)
  /-- Everything is written. -/
  | written
  /-- The session has renamed the scratch file, or its last block has failed. -/
  | done
  deriving DecidableEq

/-- The session has nothing in the scratch file. -/
def Phase.Idle (ph : Phase) : Prop := ph = .start ∨ ph = .done

/-- The block a session that sends blocks writes next. -/
def Phase.nextBlock : Phase → Option ℕ
  | .start => some 0
  | .waiting k => some k
  | _ => none

/-! ### Steps -/

variable {ι : Type}

/-- **One call of a session**, `me`, on the disk and the write lock. The scratch file has the name
`tmp`. -/
inductive SessionStep (tmp : Slot) (me : ι) :
    Job → Phase × Disk × Option ι → Phase × Disk × Option ι → Prop
  /-- `write_file_atomic` opens the scratch file. -/
  | openTruncate {c : Bytes} {d : Disk} {lock : Option ι} :
      SessionStep tmp me (.upload c) (.start, d, lock)
        (.opened (d.openTruncate tmp).2, (d.openTruncate tmp).1, lock)
  /-- `write_file_atomic` writes. -/
  | writeAll {c : Bytes} {d : Disk} {lock : Option ι} {handle : ℕ} :
      SessionStep tmp me (.upload c) (.opened handle, d, lock)
        (.written, d.pwrite 0 handle 0 c, lock)
  /-- `write_block_atomic` under the lock opens the scratch file. -/
  | openUpdate {c : Bytes} {b : ℕ} {pos : 0 < b} {short : c.length % b ≠ 0} {d : Disk} {ph : Phase}
      {k handle : ℕ} (hk : ph.nextBlock = some k) (hopen : d.entry tmp = some handle) :
      SessionStep tmp me (.blocks c b pos short) (ph, d, none) (.merging k handle, d, some me)
  /-- `write_block_atomic` under the lock finds no scratch file. -/
  | openFails {c : Bytes} {b : ℕ} {pos : 0 < b} {short : c.length % b ≠ 0} {d : Disk} {ph : Phase}
      {k : ℕ} (hk : ph.nextBlock = some k) (hopen : d.entry tmp = none) :
      SessionStep tmp me (.blocks c b pos short) (ph, d, none) (.creating k, d, some me)
  /-- `write_block_atomic` creates the scratch file. One that has appeared is cut to length
  zero. -/
  | create {c : Bytes} {b : ℕ} {pos : 0 < b} {short : c.length % b ≠ 0} {d : Disk}
      {lock : Option ι} {k : ℕ} :
      SessionStep tmp me (.blocks c b pos short) (.creating k, d, lock)
        (.reopening k, (d.openTruncate tmp).1, lock)
  /-- `write_block_atomic` opens the scratch file it has created. -/
  | reopen {c : Bytes} {b : ℕ} {pos : 0 < b} {short : c.length % b ≠ 0} {d : Disk}
      {lock : Option ι} {k handle : ℕ} (hopen : d.entry tmp = some handle) :
      SessionStep tmp me (.blocks c b pos short) (.reopening k, d, lock)
        (.merging k handle, d, lock)
  /-- The scratch file is gone again: the write fails, and the lock is released. The client
  has sent the next block already; a last block that fails commits nothing. -/
  | reopenFails {c : Bytes} {b : ℕ} {pos : 0 < b} {short : c.length % b ≠ 0} {d : Disk}
      {lock : Option ι} {k : ℕ} (hopen : d.entry tmp = none) :
      SessionStep tmp me (.blocks c b pos short) (.reopening k, d, lock)
        (if k + 1 < count b c.length then .waiting (k + 1) else .done, d, none)
  /-- `write_block_atomic` writes the block, and the lock is released. -/
  | writeBlock {c : Bytes} {b : ℕ} {pos : 0 < b} {short : c.length % b ≠ 0} {d : Disk}
      {lock : Option ι} {k handle : ℕ} :
      SessionStep tmp me (.blocks c b pos short) (.merging k handle, d, lock)
        (if k + 1 < count b c.length then .waiting (k + 1) else .written,
          d.pwrite 0 handle (k * b) (block b c k), none)
  /-- `atomic_rename_tmp`. Without a scratch file it does nothing. -/
  | rename {job : Job} {d : Disk} {lock : Option ι} :
      SessionStep tmp me job (.written, d, lock) (.done, d.rename tmp .file, lock)

/-! ### The calls and the file manager -/

/-- The disk is the part of the file system that commits to the text `t` work on. -/
structure Shows (fs : FileSystem) (t : LexPath.Text) (d : Disk) : Prop where
  file : d.read .file = fs.fileAt (fs.locate (cStr t))
  scratch : d.read (tmpSlot t) = fs.fileAt (fs.locate (cTmp t))

section Shows

variable {fm : FileManager} {fs : FileSystem} {p : String} {t : LexPath.Text} {d : Disk}

/-- The scratch file is another name where U+0000 does not make it the same. -/
theorem file_ne_tmpSlot (h : nul ∉ t) : Slot.file ≠ tmpSlot t := by
  rw [tmpSlot_of_not_mem h]
  simp

/-- Writing the scratch file shows on the disk as a write through its handle. -/
theorem Shows.set_scratch (hs : Shows fs t d) (hr : fm.Ready fs p t) {d' : Disk} {b : Bytes}
    (hfile : nul ∉ t → d'.read .file = d.read .file) (hscratch : d'.read (tmpSlot t) = some b) :
    Shows (fs.set (fs.locate (cTmp t)) (.file b)) t d' := by
  have hwritten : (fs.set (fs.locate (cTmp t)) (.file b)).fileAt (fs.locate (cTmp t)) = some b :=
    FileSystem.fileAt_eq_some_iff.mpr (FileSystem.node_set_self hr.tmp_not_dir)
  refine ⟨?_, hscratch.trans hwritten.symm⟩
  by_cases hnul : nul ∈ t
  · -- the file is what was written
    rw [tmpSlot_of_mem hnul] at hscratch
    rw [cTmp_of_mem hnul] at hwritten ⊢
    exact hscratch.trans hwritten.symm
  · rw [hfile hnul, hs.file]
    simp only [FileSystem.fileAt, FileSystem.set_locate,
      FileSystem.node_set_of_ne (locate_cTmp_ne hnul fs).symm]

/-- What is in the scratch file before a block is merged into it. -/
theorem Shows.bytesAt_scratch (hs : Shows fs t d) :
    fs.bytesAt (fs.locate (cTmp t)) = (d.read (tmpSlot t)).getD [] := by
  rw [hs.scratch, FileSystem.fileAt, FileSystem.bytesAt]
  cases fs.node (fs.locate (cTmp t)) with
  | none => rfl
  | some n => cases n <;> rfl

/-- `write_file_atomic` is its two calls. -/
theorem shows_writeFileAtomic (hr : fm.Ready fs p t) (hs : Shows fs t d) {data : Bytes}
    (hlen : data.length < maxOffset) :
    ∃ fs', fm.writeFileAtomic fs p data = .ok (true, fs') ∧
      Shows fs' t
        ((d.openTruncate (tmpSlot t)).1.pwrite 0 (d.openTruncate (tmpSlot t)).2 0 data) := by
  -- only the scratch file changes
  refine ⟨_, hr.writeFileAtomic hlen, hs.set_scratch hr (fun hnul => ?_) ?_⟩
  · rw [Store.read_pwrite_of_ne 0 0 data (Store.entry_openTruncate _) (file_ne_tmpSlot hnul)]
    exact Store.read_openTruncate_of_ne (file_ne_tmpSlot hnul)
  · rw [Store.read, Store.entry_pwrite, Store.entry_openTruncate, Option.map_some,
      Store.content_pwrite, Store.content_openTruncate, writeAt_zero_nil]

/-- `write_block_atomic` is its two calls when the scratch file is there. -/
theorem shows_writeBlockAtomic_of_entry (hr : fm.Ready fs p t) (hs : Shows fs t d) {handle : ℕ}
    (hentry : d.entry (tmpSlot t) = some handle) {offset : UInt64} {data : Bytes}
    (hoff : offset.toNat + data.length < maxOffset) :
    ∃ fs', fm.writeBlockAtomic fs p offset data = .ok (true, fs') ∧
      Shows fs' t (d.pwrite 0 handle offset.toNat data) := by
  have hbytes : fs.bytesAt (fs.locate (cTmp t)) = d.content handle := by
    rw [hs.bytesAt_scratch, Store.read, hentry]
    rfl
  refine ⟨_, hr.writeBlockAtomic hoff, hs.set_scratch hr (fun hnul => ?_) ?_⟩
  · exact Store.read_pwrite_of_ne 0 _ data hentry (file_ne_tmpSlot hnul)
  · rw [Store.read, Store.entry_pwrite, hentry, Option.map_some, Store.content_pwrite, hbytes]

/-- `write_block_atomic` is its four calls when the scratch file is not there. -/
theorem shows_writeBlockAtomic_of_none (hr : fm.Ready fs p t) (hs : Shows fs t d)
    (hentry : d.entry (tmpSlot t) = none) {offset : UInt64} {data : Bytes}
    (hoff : offset.toNat + data.length < maxOffset) :
    ∃ fs', fm.writeBlockAtomic fs p offset data = .ok (true, fs') ∧
      Shows fs' t ((d.openTruncate (tmpSlot t)).1.pwrite 0 (d.openTruncate (tmpSlot t)).2
        offset.toNat data) := by
  have hbytes : fs.bytesAt (fs.locate (cTmp t)) = [] := by
    rw [hs.bytesAt_scratch, Store.read, hentry]
    rfl
  refine ⟨_, hr.writeBlockAtomic hoff, hs.set_scratch hr (fun hnul => ?_) ?_⟩
  · rw [Store.read_pwrite_of_ne 0 _ data (Store.entry_openTruncate _) (file_ne_tmpSlot hnul)]
    exact Store.read_openTruncate_of_ne (file_ne_tmpSlot hnul)
  · rw [Store.read, Store.entry_pwrite, Store.entry_openTruncate, Option.map_some,
      Store.content_pwrite, Store.content_openTruncate, hbytes]

/-- `atomic_rename_tmp` is one call. -/
theorem shows_atomicRenameTmp (hr : fm.Ready fs p t) (hs : Shows fs t d) {handle : ℕ}
    (hentry : d.entry (tmpSlot t) = some handle) :
    ∃ fs', fm.atomicRenameTmp fs p = .ok (true, fs') ∧
      Shows fs' t (d.rename (tmpSlot t) .file) := by
  have hnode : fs.node (fs.locate (cTmp t)) = some (.file (d.content handle)) := by
    have hscratch := hs.scratch
    rw [Store.read, hentry, FileSystem.fileAt] at hscratch
    split at hscratch
    · next b hb =>
      rw [hb, Option.some.inj hscratch]
    · exact absurd hscratch (by simp)
  have hfile := FileSystem.fileAt_eq_some_iff.mpr (hr.node_commit (d.content handle))
  refine ⟨_, hr.atomicRenameTmp hnode, ?_, ?_⟩
  · rw [Store.read_rename hentry]
    exact hfile.symm
  by_cases hnul : nul ∈ t
  · rw [tmpSlot_of_mem hnul] at hentry ⊢
    rw [Store.read_rename hentry]
    rw [cTmp_of_mem hnul] at hfile ⊢
    exact hfile.symm
  · -- the scratch file is gone on both sides
    rw [Store.read, Store.entry_rename_self (file_ne_tmpSlot hnul).symm, FileSystem.fileAt]
    simp only [FileSystem.set_locate, FileSystem.remove_locate,
      FileSystem.node_set_of_ne (locate_cTmp_ne hnul fs),
      FileSystem.node_remove_self hr.tmp_not_dir]
    rfl

end Shows

/-! ### A session alone on the scratch file -/

/-- The scratch file holds the bytes, under the handle. -/
def HeldBy (d : Disk) (handle : ℕ) (bytes : Bytes) : Prop :=
  d.entry .scratch = some handle ∧ d.content handle = bytes

/-- What a session alone on the scratch file has in it. -/
def Progress (d : Disk) : Job → Phase → Prop
  | .upload _, .opened handle => HeldBy d handle []
  | .upload c, .written => ∃ handle, HeldBy d handle c
  | .blocks _ _ _ _, .creating k => k = 0 ∧ d.entry .scratch = none
  | .blocks _ _ _ _, .reopening k => k = 0 ∧ ∃ handle, HeldBy d handle []
  | .blocks c b _ _, .merging k handle => k * b ≤ c.length ∧ HeldBy d handle (c.take (k * b))
  | .blocks c b _ _, .waiting k => k * b ≤ c.length ∧ ∃ handle, HeldBy d handle (c.take (k * b))
  | .blocks c _ _ _, .written => ∃ handle, HeldBy d handle c
  | _, _ => False

/-- A write to the scratch file leaves the file alone. -/
theorem HeldBy.pwrite {d : Disk} {handle : ℕ} {bytes : Bytes} (h : HeldBy d handle bytes)
    (off : ℕ) (data : Bytes) :
    HeldBy (d.pwrite 0 handle off data) handle (writeAt 0 bytes off data) ∧
      (d.pwrite 0 handle off data).read .file = d.read .file := by
  refine ⟨⟨h.1, ?_⟩, Store.read_pwrite_of_ne 0 off data h.1 (by simp)⟩
  rw [Store.content_pwrite, h.2]

/-- Opening the scratch file leaves the file alone. -/
theorem heldBy_openTruncate (d : Disk) :
    HeldBy (d.openTruncate .scratch).1 (d.openTruncate .scratch).2 [] ∧
      (d.openTruncate .scratch).1.read .file = d.read .file :=
  ⟨⟨Store.entry_openTruncate _, Store.content_openTruncate _⟩,
    Store.read_openTruncate_of_ne (by simp)⟩

/-- **One call of a session that is alone on the scratch file.** It makes progress, and
leaves the file alone or replaces it by the session's content. -/
theorem SessionStep.progress {me : ι} {job : Job} {ph ph' : Phase} {d d' : Disk}
    {lock lock' : Option ι} (hstep : SessionStep .scratch me job (ph, d, lock) (ph', d', lock'))
    (hstart : ph = .start → ∀ c b pos short, job = .blocks c b pos short → d.entry .scratch = none)
    (hprogress : ph ≠ .start → Progress d job ph) :
    (ph' = .done ∨ Progress d' job ph') ∧
      (d'.read .file = d.read .file ∨ d'.read .file = some job.content) := by
  cases hstep with
  | openTruncate =>
    obtain ⟨hheld, hfile⟩ := heldBy_openTruncate d
    exact ⟨Or.inr hheld, Or.inl hfile⟩
  | @writeAll c _ _ handle =>
    obtain ⟨hheld, hfile⟩ := HeldBy.pwrite (hprogress (by simp)) 0 c
    -- the scratch file was cut on opening, so it now holds the upload and nothing else
    rw [writeAt_zero_nil] at hheld
    exact ⟨Or.inr ⟨handle, hheld⟩, Or.inl hfile⟩
  | @openUpdate c b pos short _ _ k handle hk hopen =>
    refine ⟨Or.inr ?_, Or.inl rfl⟩
    cases ph with
    -- the first block finds no scratch file
    | start => exact absurd hopen (by simp [hstart rfl c b pos short rfl])
    | waiting k' =>
      -- a later block opens the inode the earlier ones were written to
      obtain rfl := Option.some.inj hk
      obtain ⟨hle, handle', hheld⟩ := hprogress (by simp)
      obtain rfl := Option.some.inj (hheld.1.symm.trans hopen)
      exact ⟨hle, hheld⟩
    | _ => exact absurd hk (by simp [Phase.nextBlock])
  | @openFails c b pos short _ _ k hk hopen =>
    refine ⟨Or.inr ?_, Or.inl rfl⟩
    cases ph with
    | start => exact ⟨(Option.some.inj hk).symm, hopen⟩
    | waiting k' =>
      -- the scratch file of a session that has begun is there
      obtain ⟨-, handle', hheld⟩ := hprogress (by simp)
      exact absurd hopen (by simp [hheld.1])
    | _ => exact absurd hk (by simp [Phase.nextBlock])
  | create =>
    obtain ⟨hheld, hfile⟩ := heldBy_openTruncate d
    obtain ⟨hk, -⟩ := hprogress (by simp)
    exact ⟨Or.inr ⟨hk, _, hheld⟩, Or.inl hfile⟩
  | @reopen c b _ _ _ _ k handle hopen =>
    obtain ⟨hk, handle', hheld⟩ := hprogress (by simp)
    obtain rfl := Option.some.inj (hheld.1.symm.trans hopen)
    refine ⟨Or.inr ?_, Or.inl rfl⟩
    subst hk
    exact ⟨by simp, by simpa using hheld⟩
  | reopenFails hopen =>
    -- nobody else renames the scratch file that was just created
    obtain ⟨-, handle, hheld⟩ := hprogress (by simp)
    exact absurd hopen (by simp [hheld.1])
  | @writeBlock c b pos short _ _ k handle =>
    obtain ⟨hle, hheld⟩ := hprogress (by simp)
    obtain ⟨hheld', hfile⟩ := hheld.pwrite (k * b) (block b c k)
    -- the blocks before `k` are the file up to `k * b`, so this one continues it
    rw [writeAt_take_block 0 hle] at hheld'
    refine ⟨Or.inr ?_, Or.inl hfile⟩
    split
    · next hmore =>
      exact ⟨((lt_count_iff pos _ _).mp hmore).le, handle, hheld'⟩
    · next hlast =>
      -- past the last block everything is there
      have hall : c.length ≤ (k + 1) * b :=
        Nat.not_lt.mp fun h => hlast ((lt_count_iff pos _ _).mpr h)
      rw [List.take_of_length_le hall] at hheld'
      exact ⟨handle, hheld'⟩
  | rename =>
    -- what is renamed is the whole content, for both kinds of session
    have hwritten : ∃ handle, HeldBy d handle job.content := by
      cases job with
      | upload c => exact hprogress (by simp)
      | blocks c b pos short => exact hprogress (by simp)
    obtain ⟨handle, hentry, hcontent⟩ := hwritten
    refine ⟨Or.inl rfl, Or.inr ?_⟩
    rw [Store.read_rename hentry, hcontent]

/-- A session that is done makes no calls. -/
theorem SessionStep.ne_done {tmp : Slot} {me : ι} {job : Job} {x y : Phase × Disk × Option ι}
    (hstep : SessionStep tmp me job x y) : x.1 ≠ .done := by
  cases hstep with
  | openUpdate hk _ => rintro rfl; exact absurd hk (by simp [Phase.nextBlock])
  | openFails hk _ => rintro rfl; exact absurd hk (by simp [Phase.nextBlock])
  | _ => simp

/-! ### Interleavings -/

/-- The disk, the write lock and the sessions. -/
structure World (ι : Type) where
  disk : Disk
  lock : Option ι
  phase : ι → Phase

/-- No session has done anything. -/
def World.start (d : Disk) : World ι := ⟨d, none, fun _ => .start⟩

/-- The file is as it was at first, or it is what one of the sessions submitted. -/
def Whole (jobs : ι → Job) (d₀ : Disk) (w : World ι) : Prop :=
  w.disk.read .file = d₀.read .file ∨ ∃ i, w.disk.read .file = some (jobs i).content

/-- The file is whole, and at most one session has something in the scratch file: its own
content, as far as it has got. -/
structure Alone (jobs : ι → Job) (d₀ : Disk) (w : World ι) : Prop where
  whole : Whole jobs d₀ w
  active : ∃ a : Option ι, (∀ j, a ≠ some j → (w.phase j).Idle) ∧
    ∀ i, a = some i → Progress w.disk (jobs i) (w.phase i)

theorem Alone.start (jobs : ι → Job) (d₀ : Disk) : Alone jobs d₀ (World.start d₀) :=
  ⟨Or.inl rfl, none, fun _ _ => Or.inl rfl, fun _ h => absurd h (by simp)⟩

variable [DecidableEq ι]

/-- One call of session `i`. -/
def World.Step (tmp : Slot) (jobs : ι → Job) (i : ι) (w w' : World ι) : Prop :=
  ∃ ph d lock, SessionStep tmp i (jobs i) (w.phase i, w.disk, w.lock) (ph, d, lock) ∧
    w' = ⟨d, lock, update w.phase i ph⟩

/-- The interleavings of the sessions whose calls all meet a condition. -/
inductive CommitRun (tmp : Slot) (jobs : ι → Job) (C : World ι → ι → Prop) (d₀ : Disk) :
    World ι → Prop
  | start : CommitRun tmp jobs C d₀ (World.start d₀)
  | call {w w' : World ι} (i : ι) :
      CommitRun tmp jobs C d₀ w → C w i → World.Step tmp jobs i w w' → CommitRun tmp jobs C d₀ w'

/-! ### Exclusive windows -/

/-- The scratch file is not the file, and a session makes its first call on it only when no other
one is between its first call and its rename; and one that sends blocks, only when no scratch
file was left over. -/
def Exclusive (tmp : Slot) (jobs : ι → Job) (w : World ι) (i : ι) : Prop :=
  tmp = .scratch ∧ (w.phase i = .start →
    (∀ j, j ≠ i → (w.phase j).Idle) ∧
      ∀ c b pos short, jobs i = .blocks c b pos short → w.disk.entry tmp = none)

section Runs

variable {jobs : ι → Job} {d₀ : Disk} {w w' : World ι}

/-- A call in an exclusive window keeps sessions alone on the scratch file. -/
theorem Alone.step {tmp : Slot} (h : Alone jobs d₀ w) {i : ι} (hexcl : Exclusive tmp jobs w i)
    (hstep : World.Step tmp jobs i w w') : Alone jobs d₀ w' := by
  obtain ⟨rfl, hexcl⟩ := hexcl
  obtain ⟨ph, d, lock, hcall, rfl⟩ := hstep
  obtain ⟨a, hidle, hactive⟩ := h.active
  -- a session that calls has begun, and then it is the active one, or it begins now
  have hbegun : w.phase i ≠ .start → a = some i := by
    intro hne
    by_contra ha
    rcases hidle i ha with hstart | hdone
    · exact hne hstart
    · exact hcall.ne_done hdone
  have hothers : ∀ j, j ≠ i → (w.phase j).Idle := by
    intro j hj
    by_cases hstart : w.phase i = .start
    · exact (hexcl hstart).1 j hj
    · exact hidle j (by rw [hbegun hstart]; simpa using hj.symm)
  obtain ⟨hprogress, hfile⟩ := hcall.progress (fun hstart => (hexcl hstart).2)
    fun hne => hactive i (hbegun hne)
  refine ⟨?_, ?_⟩
  · -- the file is untouched, or it is what this session submitted
    rcases hfile with hsame | hnew
    · exact h.whole.imp (fun hw => hsame.trans hw) fun ⟨j, hj⟩ => ⟨j, hsame.trans hj⟩
    · exact Or.inr ⟨i, hnew⟩
  · rcases hprogress with rfl | hprogress
    · -- after its rename the session has nothing in the scratch file
      refine ⟨none, fun j _ => ?_, fun j hj => absurd hj (by simp)⟩
      by_cases hj : j = i
      · simp [hj, Phase.Idle]
      · simpa [hj] using hothers j hj
    · -- it is the active one now
      refine ⟨some i, fun j hj => ?_, fun j hj => ?_⟩
      · have hne : j ≠ i := fun hc => hj (by rw [hc])
        simpa [hne] using hothers j hne
      · obtain rfl := Option.some.inj hj
        simpa using hprogress

/-- **No torn file.** However the calls of any number of sessions on a path interleave, as long
as no session starts on the scratch file between another one's first call and its rename, the
file is at every moment what it was at first or the whole content of one session. -/
theorem whole_of_exclusive {t : LexPath.Text}
    (h : CommitRun (tmpSlot t) jobs (Exclusive (tmpSlot t) jobs) d₀ w) : Whole jobs d₀ w := by
  have halone : Alone jobs d₀ w := by
    induction h with
    | start => exact Alone.start jobs d₀
    | call i _ hexcl hstep ih => exact ih.step hexcl hstep
  exact halone.whole

end Runs

/-! ### Two runs -/

/-- A directory with nothing in it. -/
def emptyDisk : Disk := ⟨fun _ => none, fun _ => [], 0, by simp, by simp⟩

/-- Go on with a call of session `i`, which is in phase `ph`. -/
theorem CommitRun.next {tmp : Slot} {jobs : ι → Job} {C : World ι → ι → Prop} {d₀ : Disk}
    {w : World ι} (h : CommitRun tmp jobs C d₀ w) (i : ι) (hC : C w i) {ph ph' : Phase}
    (hph : w.phase i = ph) {d : Disk} {lock : Option ι}
    (hcall : SessionStep tmp i (jobs i) (ph, w.disk, w.lock) (ph', d, lock)) :
    CommitRun tmp jobs C d₀ ⟨d, lock, update w.phase i ph'⟩ :=
  h.call i hC ⟨ph', d, lock, hph ▸ hcall, rfl⟩

/-- Two sessions that upload one byte each. -/
def twoUploads (i : Bool) : Job := .upload [if i then 1 else 2]

/-- The uploads run to their ends, one after the other. -/
theorem whole_of_exclusive_two_uploads :
    ∃ w, CommitRun (tmpSlot "s/f".toList) twoUploads
        (Exclusive (tmpSlot "s/f".toList) twoUploads) emptyDisk w ∧
      w.phase true = .done ∧ w.phase false = .done ∧ Whole twoUploads emptyDisk w := by
  -- a session may call while the other one is idle
  have hexcl : ∀ w i, (w.phase (!i)).Idle →
      Exclusive (tmpSlot "s/f".toList) twoUploads w i := by
    refine fun w i hidle => ⟨by decide, fun _ => ⟨fun j hj => ?_, fun c b pos short h => ?_⟩⟩
    · rwa [Bool.eq_not_of_ne hj]
    · exact absurd h (by simp [twoUploads])
  have hstart : CommitRun (tmpSlot "s/f".toList) twoUploads
      (Exclusive (tmpSlot "s/f".toList) twoUploads) emptyDisk (World.start emptyDisk) := .start
  have hopened := hstart.next true (hexcl _ _ (.inl rfl)) rfl .openTruncate
  have hwritten := hopened.next true (hexcl _ _ (.inl rfl)) rfl .writeAll
  have hdone := hwritten.next true (hexcl _ _ (.inl rfl)) rfl .rename
  have hopened' := hdone.next false (hexcl _ _ (.inr rfl)) rfl .openTruncate
  have hwritten' := hopened'.next false (hexcl _ _ (.inr rfl)) rfl .writeAll
  have hrun := hwritten'.next false (hexcl _ _ (.inr rfl)) rfl .rename
  exact ⟨_, hrun, rfl, rfl, whole_of_exclusive hrun⟩

/-- The second session opens the scratch file between the first one's write and its rename,
and an empty file is published. -/
theorem torn_by_second_upload :
    ∃ w, CommitRun (tmpSlot "s/f".toList) twoUploads (fun _ _ => True) emptyDisk w ∧
      ¬ Whole twoUploads emptyDisk w := by
  have hstart : CommitRun (tmpSlot "s/f".toList) twoUploads (fun _ _ => True) emptyDisk
      (World.start emptyDisk) := .start
  have hopened := hstart.next true trivial rfl .openTruncate
  have hwritten := hopened.next true trivial rfl .writeAll
  have hcut := hwritten.next false trivial rfl .openTruncate
  have htorn := hcut.next true trivial rfl .rename
  refine ⟨_, htorn, ?_⟩
  rintro (hinitial | ⟨i, hi⟩)
  · -- the file was absent, and is there and empty
    exact absurd hinitial (by decide)
  · cases i <;> exact absurd hi (by decide)

end AdaptiveSync
