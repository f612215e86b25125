import AdaptiveSync.Lib.Shared
import AdaptiveSync.Server.BlockCalls
import AdaptiveSync.Server.Session

/-!
# The disk calls of a session

What `handle_block_data` and the end of an upload do to the disk, call by call: every
directory that is made, every file that is opened, written to, read or renamed is a call of
its own (`blockCalls`, `saveUploadCalls`). Between two of them other sessions can use the disk.

A file that is open is named by its path here. That is the same as long as nobody else moves
it or puts another one in its place.

Alone, the calls do what the functions of `FileManager` and the handler do in one piece
(`run_blockCalls`, `run_saveUploadCalls`, `run_sessionCalls`).
-/

namespace AdaptiveSync

open Fs Shared
open LexPath (cStr)

/-! ### Directories -/

/-- `mkdir(2)`, where a directory that is there already counts as made. -/
def mkdirCall (l : Loc) (fs : FileSystem) : Bool × FileSystem :=
  match fs.node l with
  | some .dir => (true, fs)
  | some (.file _) => (false, fs)
  | none => if fs.os.fails .mkdir l then (false, fs) else (true, fs.set l .dir)

/-- The levels below `done`, first to last. -/
def mkdirsBelowCalls : Loc → List LexPath.Name → Script FileSystem Bool
  | _, [] => pure true
  | done, n :: ns => do
    if ← Script.lift (mkdirCall (done ++ [n])) then mkdirsBelowCalls (done ++ [n]) ns
    else return false

/-- `create_directories` of the parent of a text. -/
def makeParentCalls (t : LexPath.Text) : Script FileSystem Bool := do
  let (parent, there) ← Script.look fun fs =>
    (fs.cParent t, decide (fs.node (fs.cParent t) = some .dir))
  if there then return true else mkdirsBelowCalls [] parent

/-! ### Files -/

/-- Open the scratch file of a block: as it is, or else it is created, closed, and opened
again. -/
def openTmpCalls (t : LexPath.Text) : Script FileSystem Bool := do
  if ← Script.look fun fs => fs.openUpdate (cTmp t) then return true
  else
    if ← Script.attempt fun fs => fs.openTruncate (cTmp t) then
      Script.look fun fs => fs.openUpdate (cTmp t)
    else return false

/-- A write to the scratch file. One that fails may have written a part. -/
def writeTmpCall (t : LexPath.Text) (off : ℕ) (data : Bytes) (fs : FileSystem) :
    Bool × FileSystem :=
  match fs.pwrite (cTmp t) off data with
  | none => (false, fs.torn (cTmp t) off data)
  | some fs => (true, fs)

/-- `write_block_atomic`, at the text of its path. -/
def writeBlockCalls (t : LexPath.Text) (offset : UInt64) (data : Bytes) :
    Script FileSystem Bool := do
  -- whether the directories could be made is not looked at
  let _ ← makeParentCalls t
  if ← openTmpCalls t then
    if maxOffset ≤ offset.toNat then return false
    else Script.lift (writeTmpCall t offset.toNat data)
  else return false

/-- `write_file_atomic`. -/
def writeFileCalls (t : LexPath.Text) (data : Bytes) : Script FileSystem Bool := do
  let _ ← makeParentCalls t
  if ← Script.attempt fun fs => fs.openTruncate (cTmp t) then
    Script.lift (writeTmpCall t 0 data)
  else return false

/-- `atomic_rename_tmp`. -/
def renameTmpCalls (t : LexPath.Text) : Script FileSystem (Except Crash Bool) := do
  match ← Script.look fun fs => existsOrThrow fs (t ++ tmpSuffix) with
  | .error e => return .error e
  | .ok false => return .ok false
  | .ok true => return .ok (← Script.attempt fun fs => fs.rename (cTmp t) (cStr t))

/-! ### Handlers -/

section Handlers

variable (sha256 : Bytes → String) (fm : FileManager)

/-- The part of `handle_block_data` that finalises the file. -/
def finalizeCalls (h : DeltaSyncHandler) (p : String) (t : LexPath.Text) :
    Script FileSystem (Except Crash StatusCode × DeltaSyncHandler) := do
  match ← Script.look fun fs => fs.openRead (cTmp t) with
  | none => return (.ok .ok, h.untrack p)
  | some node =>
    match ← Script.look fun fs => FileManager.readToEnd fs (t ++ tmpSuffix) node with
    | .error e => return (.error e, h)
    | .ok _ =>
      match ← renameTmpCalls t with
      | .error e => return (.error e, h)
      | .ok false => return (.ok .error, h)
      | .ok true => return (.ok .ok, h.untrack p)

/-- `handle_block_data`: how it ended, and the handler after it. -/
def blockCalls (p : String) (h : DeltaSyncHandler) (c : BlockCall) :
    Script FileSystem (Except Crash StatusCode × DeltaSyncHandler) :=
  if sha256 c.data ≠ c.hash then return (.ok .checksumMismatch, h)
  else
    match fm.resolvePath p with
    | .error e => return (.error e, h)
    | .ok t => do
      if ← writeBlockCalls t c.offset c.data then
        if c.final then finalizeCalls (h.track p c.index) p t
        else return (.ok .ok, h.track p c.index)
      else return (.ok .error, h)

/-- The end of an upload whose data is complete: how it ended, and the disk after it. -/
def saveUpload (fs : FileSystem) (p : String) (data : Bytes) :
    Except Crash StatusCode × FileSystem :=
  match fm.writeFileAtomic fs p data with
  | .error e => (.error e, fs)
  | .ok (false, fs) => (.ok .error, fs)
  | .ok (true, fs) =>
    match fm.atomicRenameTmp fs p with
    | .error e => (.error e, fs)
    | .ok (_, fs) => (.ok .ok, fs)

/-- The end of an upload, call by call. -/
def saveUploadCalls (p : String) (data : Bytes) : Script FileSystem (Except Crash StatusCode) :=
  match fm.resolvePath p with
  | .error e => return .error e
  | .ok t => do
    if ← writeFileCalls t data then
      match ← renameTmpCalls t with
      | .error e => return .error e
      | .ok _ => return .ok .ok
    else return .ok .error

end Handlers

/-! ### Sessions -/

/-- What a session does for a path: a block has come in, or all the data of an upload. -/
inductive Work where
  | block (c : BlockCall)
  | upload (data : Bytes)

section Sessions

variable (sha256 : Bytes → String) (fm : FileManager)

/-- A piece of work in one go: how it ended, the handler and the disk after it. -/
def BlockStore.work (s : BlockStore) (p : String) : Work → Except Crash StatusCode × BlockStore
  | .block c => ((s.call sha256 fm p c).result,
      ⟨(s.call sha256 fm p c).handler, (s.call sha256 fm p c).fs⟩)
  | .upload data => ((saveUpload fm s.fs p data).1, ⟨s.handler, (saveUpload fm s.fs p data).2⟩)

/-- One piece after another. An exception ends it. -/
def BlockStore.works (s : BlockStore) :
    List (String × Work) → List (Except Crash StatusCode) × BlockStore
  | [] => ([], s)
  | (p, work) :: rest =>
    match s.work sha256 fm p work with
    | (.error e, s') => ([.error e], s')
    | (.ok status, s') => (.ok status :: (s'.works rest).1, (s'.works rest).2)

/-- A piece of work, call by call. -/
def workCalls (h : DeltaSyncHandler) (p : String) :
    Work → Script FileSystem (Except Crash StatusCode × DeltaSyncHandler)
  | .block c => blockCalls sha256 fm p h c
  | .upload data => do return (← saveUploadCalls fm p data, h)

/-- **A session**, call by call: how its pieces of work ended, and the handler after them. -/
def sessionCalls (h : DeltaSyncHandler) :
    List (String × Work) → Script FileSystem (List (Except Crash StatusCode) × DeltaSyncHandler)
  | [] => return ([], h)
  | (p, work) :: rest => do
    match ← workCalls sha256 fm h p work with
    | (.error e, h) => return ([.error e], h)
    | (.ok status, h) => do
      let (statuses, h) ← sessionCalls h rest
      return (.ok status :: statuses, h)

end Sessions

/-! ### The calls alone -/

section Alone

variable {sha256 : Bytes → String} {fm : FileManager} {p : String} {t : LexPath.Text}
  {fs : FileSystem}

theorem run_mkdirsBelowCalls (ns : List LexPath.Name) : ∀ (done : Loc) (fs : FileSystem),
    (mkdirsBelowCalls done ns).run fs =
      ((fs.mkdirsBelow done ns).2, (fs.mkdirsBelow done ns).1) := by
  induction ns with
  | nil => exact fun _ _ => rfl
  | cons n ns ih =>
    intro done fs
    -- a level that is there is passed, one that is free is made, and a file ends it
    rw [mkdirsBelowCalls, Script.run_bind, Script.run_lift, mkdirCall, FileSystem.mkdirsBelow]
    cases fs.node (done ++ [n]) with
    | none =>
      dsimp only
      split
      · rfl
      · exact ih _ _
    | some x =>
      cases x with
      | dir => exact ih _ _
      | file b => rfl

theorem run_makeParentCalls (t : LexPath.Text) (fs : FileSystem) :
    (makeParentCalls t).run fs =
      ((fs.mkdirs (fs.cParent t)).2, (fs.mkdirs (fs.cParent t)).1) := by
  rw [makeParentCalls, Script.run_bind, Script.run_look, FileSystem.mkdirs]
  by_cases hdir : fs.node (fs.cParent t) = some .dir
  · simp [hdir]
  · simpa [hdir] using run_mkdirsBelowCalls (fs.cParent t) [] fs

/-- What was created can be opened again. -/
theorem openUpdate_of_openTruncate {fs' : FileSystem} (h : fs.openTruncate t = some fs') :
    fs'.openUpdate t = true := by
  obtain ⟨rfl, hfree⟩ := FileSystem.openTruncate_eq_some h
  rw [FileSystem.openUpdate, (FileSystem.canOpenWrite_of_openTruncate h).2,
    FileSystem.set_locate, FileSystem.node_set_self hfree]
  rfl

/-- The text a path resolves to is that of all of its calls. -/
theorem tmpPathFor_of_resolvePath (ht : fm.resolvePath p = .ok t) :
    fm.tmpPathFor p = .ok (t ++ tmpSuffix) :=
  FileManager.tmpPathFor_eq_ok_iff.mpr ⟨t, ht, rfl⟩

theorem ensureParentDirs_of_resolvePath (ht : fm.resolvePath p = .ok t) (fs : FileSystem) :
    fm.ensureParentDirs fs p = .ok (fs.mkdirs (fs.cParent t)) := by
  rw [FileManager.ensureParentDirs, ht]
  rfl

/-- A call that can fail, as a part of a function that returns whether it did. -/
theorem ok_run_attempt (op : FileSystem → Option FileSystem) (fs : FileSystem) :
    (match op fs with
      | none => (pure (false, fs) : Except Crash (Bool × FileSystem))
      | some fs' => pure (true, fs')) = .ok ((Script.attempt op).run fs) := by
  rw [Script.run_attempt]
  cases op fs with
  | none => rfl
  | some fs' => rfl

/-- A write, as a part of a function that returns whether it succeeded. -/
theorem ok_run_writeTmpCall (t : LexPath.Text) (off : ℕ) (data : Bytes) (fs : FileSystem) :
    (match fs.pwrite (cTmp t) off data with
      | none => (pure (false, fs.torn (cTmp t) off data) : Except Crash (Bool × FileSystem))
      | some fs' => pure (true, fs')) = .ok ((Script.lift (writeTmpCall t off data)).run fs) := by
  rw [Script.run_lift, writeTmpCall]
  cases fs.pwrite (cTmp t) off data with
  | none => rfl
  | some fs' => rfl

theorem run_openTmpCalls (t : LexPath.Text) (fs : FileSystem) :
    (openTmpCalls t).run fs =
      match (if fs.openUpdate (cTmp t) then some fs
        else fs.openTruncate (cTmp t)) with
      | none => (false, fs)
      | some opened => (true, opened) := by
  rw [openTmpCalls, Script.run_bind, Script.run_look]
  by_cases hupdate : fs.openUpdate (cTmp t) = true
  · simp [hupdate]
  · cases htrunc : fs.openTruncate (cTmp t) with
    | none => simp [hupdate, htrunc]
    -- the second opening finds the file that the first one has created
    | some opened => simp [hupdate, htrunc, openUpdate_of_openTruncate htrunc]

theorem writeBlockAtomic_eq_run (ht : fm.resolvePath p = .ok t) (fs : FileSystem)
    (offset : UInt64) (data : Bytes) :
    fm.writeBlockAtomic fs p offset data = .ok ((writeBlockCalls t offset data).run fs) := by
  rw [FileManager.writeBlockAtomic, tmpPathFor_of_resolvePath ht,
    ensureParentDirs_of_resolvePath ht, writeBlockCalls]
  simp only [Except.ok_bind, Script.run_bind, run_makeParentCalls, run_openTmpCalls]
  rw [cStr_append_tmpSuffix]
  generalize (fs.mkdirs (fs.cParent t)).1 = made
  generalize (if made.openUpdate (cTmp t) then some made
    else made.openTruncate (cTmp t)) = opened
  cases opened with
  | none => rfl
  | some opened =>
    dsimp only
    simp only [if_true]
    split
    · rfl
    · exact ok_run_writeTmpCall t offset.toNat data opened

theorem writeFileAtomic_eq_run (ht : fm.resolvePath p = .ok t) (fs : FileSystem) (data : Bytes) :
    fm.writeFileAtomic fs p data = .ok ((writeFileCalls t data).run fs) := by
  rw [FileManager.writeFileAtomic, tmpPathFor_of_resolvePath ht,
    ensureParentDirs_of_resolvePath ht, writeFileCalls]
  simp only [Except.ok_bind, Script.run_bind, run_makeParentCalls, cStr_append_tmpSuffix]
  generalize (fs.mkdirs (fs.cParent t)).1 = made
  rw [Script.run_attempt]
  cases made.openTruncate (cTmp t) with
  | none => rfl
  | some opened => exact ok_run_writeTmpCall t 0 data opened

/-- What a rename returns, and the disk after it. -/
theorem atomicRenameTmp_eq_run (ht : fm.resolvePath p = .ok t) (fs : FileSystem) :
    fm.atomicRenameTmp fs p =
      ((renameTmpCalls t).run fs).1.map fun done => (done, ((renameTmpCalls t).run fs).2) := by
  rw [FileManager.atomicRenameTmp, tmpPathFor_of_resolvePath ht, ht, renameTmpCalls]
  simp only [Except.ok_bind, Script.run_bind, Script.run_look]
  cases existsOrThrow fs (t ++ tmpSuffix) with
  | error e => rfl
  | ok found =>
    cases found with
    | false => rfl
    | true => exact ok_run_attempt (fun fs => fs.rename (cTmp t) (cStr t)) fs

/-- A rename that throws has only looked. -/
theorem run_renameTmpCalls_of_error {e : Crash} (h : ((renameTmpCalls t).run fs).1 = .error e) :
    ((renameTmpCalls t).run fs).2 = fs := by
  rw [renameTmpCalls, Script.run_bind, Script.run_look] at h ⊢
  cases hfound : existsOrThrow fs (t ++ tmpSuffix) with
  | error e => rfl
  | ok found =>
    rw [hfound] at h
    cases found with
    | false => rfl
    | true => exact absurd h (by simp)

theorem run_finalizeCalls (ht : fm.resolvePath p = .ok t) (h : DeltaSyncHandler)
    (fs : FileSystem) {r : DeltaSyncHandler.BlockOutcome}
    (hr : DeltaSyncHandler.finalize fm h fs p = r) :
    (finalizeCalls h p t).run fs = ((r.result, r.handler), r.fs) := by
  subst hr
  rw [finalizeCalls, Script.run_bind, Script.run_look, DeltaSyncHandler.finalize,
    tmpPathFor_of_resolvePath ht]
  dsimp only
  rw [cStr_append_tmpSuffix]
  cases fs.openRead (cTmp t) with
  | none => rfl
  | some node =>
    dsimp only
    rw [Script.run_bind, Script.run_look]
    cases FileManager.readToEnd fs (t ++ tmpSuffix) node with
    | error e => rfl
    | ok b =>
      dsimp only
      rw [Script.run_bind, atomicRenameTmp_eq_run ht]
      cases hrename : ((renameTmpCalls t).run fs).1 with
      | error e =>
        -- the handler keeps the path when the rename throws
        rw [run_renameTmpCalls_of_error hrename]
        rfl
      | ok done => cases done <;> rfl

/-- **The calls of a block**, alone, are `handle_block_data`. -/
theorem run_blockCalls (p : String) (s : BlockStore) (c : BlockCall) :
    (blockCalls sha256 fm p s.handler c).run s.fs =
      (((s.call sha256 fm p c).result, (s.call sha256 fm p c).handler),
        (s.call sha256 fm p c).fs) := by
  rw [blockCalls, BlockStore.call, DeltaSyncHandler.handleBlockData]
  split
  · rfl
  cases ht : fm.resolvePath p with
  | error e =>
    -- a path that does not resolve is found out before anything is called
    rw [FileManager.writeBlockAtomic, FileManager.tmpPathFor, ht]
    rfl
  | ok t =>
    dsimp only
    rw [Script.run_bind, writeBlockAtomic_eq_run ht]
    generalize (writeBlockCalls t c.offset c.data).run s.fs = written
    obtain ⟨ok, fs'⟩ := written
    cases ok with
    | false => rfl
    | true =>
      dsimp only
      simp only [if_true]
      split
      · exact run_finalizeCalls ht _ _ rfl
      · rfl

/-- **The calls of an upload's end**, alone, are the two functions it calls. -/
theorem run_saveUploadCalls (p : String) (data : Bytes) (fs : FileSystem) :
    (saveUploadCalls fm p data).run fs = saveUpload fm fs p data := by
  rw [saveUploadCalls, saveUpload]
  cases ht : fm.resolvePath p with
  | error e =>
    rw [FileManager.writeFileAtomic, FileManager.tmpPathFor, ht]
    rfl
  | ok t =>
    dsimp only
    rw [Script.run_bind, writeFileAtomic_eq_run ht]
    generalize (writeFileCalls t data).run fs = written
    obtain ⟨ok, fs'⟩ := written
    cases ok with
    | false => rfl
    | true =>
      dsimp only
      simp only [if_true, Script.run_bind, atomicRenameTmp_eq_run ht]
      cases hrename : ((renameTmpCalls t).run fs').1 with
      | error e =>
        rw [run_renameTmpCalls_of_error hrename]
        rfl
      | ok done => rfl

/-- What `saveUpload` does is what the end of an upload does to the store. -/
theorem finishUpload_eq_saveUpload {env : Env} {srv : Server}
    (hall : srv.session.uploadState.received = srv.session.uploadState.totalSize) :
    (Server.finishUpload env srv).1.fs =
      (saveUpload env.fm srv.fs srv.session.uploadState.relativePath
        srv.session.uploadState.buffer).2 := by
  unfold Server.finishUpload saveUpload
  simp only [hall, if_true]
  cases env.fm.writeFileAtomic srv.fs srv.session.uploadState.relativePath
    srv.session.uploadState.buffer with
  | error e => rfl
  | ok written =>
    obtain ⟨ok, fs'⟩ := written
    cases ok with
    | false => rfl
    | true =>
      dsimp only
      cases env.fm.atomicRenameTmp fs' srv.session.uploadState.relativePath with
      | error e => rfl
      | ok renamed => rfl

theorem run_workCalls (s : BlockStore) (p : String) (work : Work) :
    (workCalls sha256 fm s.handler p work).run s.fs =
      (((s.work sha256 fm p work).1, (s.work sha256 fm p work).2.handler),
        (s.work sha256 fm p work).2.fs) := by
  cases work with
  | block c => exact run_blockCalls p s c
  | upload data =>
    rw [workCalls, Script.run_bind, run_saveUploadCalls]
    rfl

/-- **The calls of a session**, alone, do its work piece by piece. -/
theorem run_sessionCalls (works : List (String × Work)) : ∀ (s : BlockStore),
    (sessionCalls sha256 fm s.handler works).run s.fs =
      (((s.works sha256 fm works).1, (s.works sha256 fm works).2.handler),
        (s.works sha256 fm works).2.fs) := by
  induction works with
  | nil => exact fun _ => rfl
  | cons head rest ih =>
    -- what is left is done from the handler and the disk of the first piece
    obtain ⟨p, work⟩ := head
    intro s
    rw [sessionCalls, BlockStore.works, Script.run_bind, run_workCalls]
    generalize s.work sha256 fm p work = done
    obtain ⟨r, s'⟩ := done
    cases r with
    | error e => rfl
    | ok status =>
      dsimp only
      rw [Script.run_bind, ih s']
      rfl

end Alone

end AdaptiveSync
