import AdaptiveSync.Lib.Scratch
import AdaptiveSync.Server.Effects

/-!
# What an aborted transfer leaves to the next one

Blocks are written to the scratch file `p.tmp`, which is opened without being cut. A client
that leaves in the middle of a synchronisation leaves its blocks there, and the next
synchronisation of `p`, over whatever session, writes its own blocks among them.

On a store where the file operations on `p` succeed, a synchronisation does to the file and
its scratch file what `Blocks.Target.run` does (`Tracks.run`), unless U+0000 makes the two one
file. So after two histories that have left the same file at `p`, the same later
synchronisation leaves the same file exactly when it hides what the two have left in `p.tmp`
(`later_sync_same_iff`).
-/

namespace AdaptiveSync

open Fs Blocks
open LexPath (cStr nul)

/-! ### What a synchronisation writes -/

/-- The frame belongs to a synchronisation of `p`: the signatures of the client's file, or
one of its blocks. -/
def DeltaFrame (env : Env) (p : String) (frame : WireFrame) : Prop :=
  match incoming env.proto frame with
  | .deltaSyncSignatureRequest m => m.relativePath = p
  | .deltaSyncBlockData m => m.relativePath = p
  | _ => False

/-- The write a block leads to. A block whose hash does not match is not written, nor one
that reaches past the last offset a file can have. -/
def blockWrite (env : Env) (m : DeltaSyncBlockData) (final : Bool) : List (Write UInt8) :=
  if env.sha256 m.data = m.strongHash ∧ m.blockOffset.toNat + m.data.length < maxOffset then
    [⟨m.blockOffset.toNat, m.data, final⟩]
  else []

/-- The write a frame leads to. A block that is shorter than the negotiated size is final. -/
def syncWrite (env : Env) (negotiated : UInt32) (frame : WireFrame) : List (Write UInt8) :=
  match incoming env.proto frame with
  | .deltaSyncBlockData m => blockWrite env m (m.data.length < negotiated.toNat)
  | _ => []

/-- The frame ends the process: it asks for blocks of size zero. -/
def asksZero (env : Env) (frame : WireFrame) : Bool :=
  match incoming env.proto frame with
  | .deltaSyncSignatureRequest m => m.blockSize = 0
  | _ => false

/-- The writes of a synchronisation. -/
def syncWrites (env : Env) (negotiated : UInt32) : List WireFrame → List (Write UInt8)
  | [] => []
  | frame :: frames =>
    if asksZero env frame then []
    else syncWrite env negotiated frame ++ syncWrites env negotiated frames

/-- What a block does to a file and its scratch file. Where U+0000 cuts the suffix off, they are
one file, which is there once it has been opened. -/
def blockEffect (env : Env) (t : LexPath.Text) (m : DeltaSyncBlockData) (final : Bool)
    (s : Target UInt8) : Target UInt8 :=
  if nul ∉ t then s.run 0 (blockWrite env m final)
  else if env.sha256 m.data = m.strongHash then
    let b :=
      if m.blockOffset.toNat + m.data.length < maxOffset then
        writeAt 0 s.scratch m.blockOffset.toNat m.data
      else s.scratch
    ⟨some b, b⟩
  else s

/-- What a frame does to them. -/
def syncEffect (env : Env) (t : LexPath.Text) (negotiated : UInt32) (frame : WireFrame)
    (s : Target UInt8) : Target UInt8 :=
  match incoming env.proto frame with
  | .deltaSyncBlockData m => blockEffect env t m (m.data.length < negotiated.toNat) s
  | _ => s

/-- What a synchronisation does to them. -/
def syncEffects (env : Env) (t : LexPath.Text) (negotiated : UInt32) :
    List WireFrame → Target UInt8 → Target UInt8
  | [], s => s
  | frame :: frames, s =>
    if asksZero env frame then s
    else syncEffects env t negotiated frames (syncEffect env t negotiated frame s)

section Effects

variable {env : Env} {t : LexPath.Text} {negotiated : UInt32} {m : DeltaSyncBlockData}

theorem blockEffect_of_ne (h : env.sha256 m.data ≠ m.strongHash) (final : Bool)
    (s : Target UInt8) : blockEffect env t m final s = s := by
  simp only [blockEffect, blockWrite, h, false_and, if_false]
  exact ite_self s

theorem blockEffect_far (h : env.sha256 m.data = m.strongHash)
    (hoff : ¬ m.blockOffset.toNat + m.data.length < maxOffset) (final : Bool)
    (s : Target UInt8) :
    blockEffect env t m final s = if nul ∉ t then s else ⟨some s.scratch, s.scratch⟩ := by
  simp only [blockEffect, blockWrite, h, hoff, and_false, if_false, if_true]
  rfl

theorem blockEffect_of_written (h : env.sha256 m.data = m.strongHash)
    (hoff : m.blockOffset.toNat + m.data.length < maxOffset) (final : Bool)
    (s : Target UInt8) :
    blockEffect env t m final s =
      if nul ∉ t then s.run 0 [⟨m.blockOffset.toNat, m.data, final⟩]
      else ⟨some (writeAt 0 s.scratch m.blockOffset.toNat m.data),
        writeAt 0 s.scratch m.blockOffset.toNat m.data⟩ := by
  simp only [blockEffect, blockWrite, h, hoff, and_self, if_true]

theorem syncEffect_eq_run (h : nul ∉ t) (frame : WireFrame) (s : Target UInt8) :
    syncEffect env t negotiated frame s = s.run 0 (syncWrite env negotiated frame) := by
  unfold syncEffect syncWrite
  split
  · exact if_pos h
  · rfl

/-- Two files are written to as the writes say. -/
theorem syncEffects_eq_run (h : nul ∉ t) (frames : List WireFrame) :
    ∀ s : Target UInt8,
      syncEffects env t negotiated frames s = s.run 0 (syncWrites env negotiated frames) := by
  induction frames with
  | nil => exact fun _ => rfl
  | cons frame frames ih =>
    intro s
    rw [syncEffects, syncWrites]
    split
    · rfl
    · rw [ih, syncEffect_eq_run h, Target.run_append]

end Effects

/-! ### The store follows the writes -/

/-- The file at `p` and its scratch file are as the target says, and can be written. -/
structure Tracks (fm : FileManager) (fs : FileSystem) (p : String) (t : LexPath.Text)
    (s : Target UInt8) : Prop where
  writable : fm.Writable fs p t
  file : fs.node (fs.locate (cStr t)) = s.file.map .file
  scratch : fs.bytesAt (fs.locate (cTmp t)) = s.scratch

section Tracks

variable {env : Env} {srv : Server} {fs : FileSystem} {p : String} {t : LexPath.Text}
  {s : Target UInt8} {frame : WireFrame} {frames : List WireFrame}

/-- The directories can be made before the first block. -/
theorem Tracks.made (h : Tracks env.fm fs p t s) :
    ∃ made, made = (fs.mkdirs (fs.cParent t)).1 ∧ env.fm.Ready made p t ∧
      Tracks env.fm made p t s := by
  refine ⟨_, rfl, h.writable, FileManager.Ready.writable h.writable, ?_, ?_⟩
  · rw [FileSystem.mkdirs_locate, h.writable.node_mkdirs.1, h.file]
  · rw [FileSystem.mkdirs_locate, ← h.scratch, FileSystem.bytesAt, FileSystem.bytesAt,
      h.writable.node_mkdirs.2]

/-- What a block that is not written does: the scratch file may have been created. -/
theorem Tracks.far (h : Tracks env.fm fs p t s) (hready : env.fm.Ready fs p t) {fs' : FileSystem}
    (hfs' : fs.node (fs.locate (cTmp t)) ≠ none ∧ fs' = fs ∨
      fs.node (fs.locate (cTmp t)) = none ∧ fs' = fs.set (fs.locate (cTmp t)) (.file [])) :
    Tracks env.fm fs' p t (if nul ∉ t then s else ⟨some s.scratch, s.scratch⟩) := by
  by_cases hnul : nul ∈ t
  · -- there is one file, and it is there now
    have hsame := (locate_cTmp_eq_iff fs t).mpr hnul
    have hscratch := h.scratch
    rw [if_neg (not_not.mpr hnul)]
    rw [hsame] at hfs' hscratch
    obtain ⟨hthere, rfl⟩ | ⟨hnone, rfl⟩ := hfs'
    · obtain ⟨b, hb⟩ := FileSystem.exists_file hthere hready.not_dir
      obtain rfl := (FileSystem.bytesAt_of_file hb).symm.trans hscratch
      exact ⟨h.writable, hb, h.scratch⟩
    · obtain hempty : [] = s.scratch := (FileSystem.bytesAt_of_none hnone).symm.trans hscratch
      have hnode : (fs.set (fs.locate (cStr t)) (.file [])).node (fs.locate (cStr t)) =
          some (.file []) := FileSystem.node_set_self hready.not_dir
      rw [← hempty]
      refine ⟨(hready.set (.inl rfl)).writable, hnode, ?_⟩
      rw [FileSystem.set_locate, hsame]
      exact FileSystem.bytesAt_of_file hnode
  · rw [if_pos hnul]
    obtain ⟨-, rfl⟩ | ⟨hnone, rfl⟩ := hfs'
    · exact h
    · refine ⟨(hready.set (.inr rfl)).writable, ?_, ?_⟩
      · rw [FileSystem.set_locate, FileSystem.node_set_of_ne (locate_cTmp_ne hnul fs).symm]
        exact h.file
      · rw [FileSystem.set_locate, ← h.scratch, FileSystem.bytesAt_of_none hnone]
        exact FileSystem.bytesAt_of_file (FileSystem.node_set_self hready.tmp_not_dir)

/-- What the handler does with a block. After a final one the file can be read. -/
theorem Tracks.handleBlockData (h : Tracks env.fm fs p t s) (handler : DeltaSyncHandler)
    (m : DeltaSyncBlockData) (final : Bool) :
    ∃ status r, handler.handleBlockData env.sha256 env.fm fs p m.blockIndex m.blockOffset m.data
        m.strongHash final = r ∧ r.result = .ok status ∧
      Tracks env.fm r.fs p t (blockEffect env t m final s) ∧
      (status = .ok → final = true → ∃ b, env.fm.computeSha256 env.sha256 r.fs p = .ok b) := by
  by_cases hhash : env.sha256 m.data = m.strongHash
  swap
  · -- the block is refused
    refine ⟨.checksumMismatch, _, if_pos hhash, rfl, ?_, by simp⟩
    rw [blockEffect_of_ne hhash]
    exact h
  obtain ⟨made, hmade, hready, hkeep⟩ := h.made
  by_cases hoff : m.blockOffset.toNat + m.data.length < maxOffset
  swap
  · -- nothing is written
    obtain ⟨fs', hfails, hfs'⟩ := hready.writeBlockAtomic_far (Nat.le_of_not_lt hoff)
    rw [hmade, ← h.writable.writeBlockAtomic_eq] at hfails
    rw [blockEffect_far hhash hoff, ← hhash]
    exact ⟨.error, _, DeltaSyncHandler.handleBlockData_far handler m.blockIndex hfails final, rfl,
      hkeep.far hready hfs', by simp⟩
  obtain ⟨fs', hcall, hready', hos, hfile, hscratch⟩ :=
    @DeltaSyncHandler.handleBlockData_of_match env.sha256 _ _ _ _ handler h.writable
      m.blockIndex _ _ hoff final
  -- the scratch file was what the effects say, and the block is merged into that
  rw [DeltaSyncHandler.merged, h.scratch] at hfile hscratch
  rw [blockEffect_of_written hhash hoff, ← hhash]
  refine ⟨.ok, _, hcall, rfl, ⟨hready'.writable, ?_, ?_⟩, ?_⟩
  · rw [FileSystem.locate_congr hos, hfile, h.file]
    by_cases hnul : nul ∈ t
    · simp [hnul]
    · cases final <;> simp [hnul, Target.run, Target.step]
  · rw [FileSystem.locate_congr hos, FileSystem.bytesAt, hscratch]
    by_cases hnul : nul ∈ t
    · simp [hnul]
    · cases final <;> simp [hnul, Target.run, Target.step]
  · rintro - rfl
    rw [if_pos (.inl rfl), ← FileSystem.locate_congr hos] at hfile
    exact ⟨_, (hready'.legible hfile).computeSha256 env.sha256⟩

/-- What a block does. -/
theorem Tracks.block (h : Tracks env.fm srv.fs p t s) (hidle : Idle srv) {m : DeltaSyncBlockData}
    (hin : incoming env.proto frame = .deltaSyncBlockData m) (hpath : m.relativePath = p) :
    Idle (Server.step env srv frame).1 ∧
      (Server.step env srv frame).1.session.negotiatedBlockSize =
        srv.session.negotiatedBlockSize ∧
      Tracks env.fm (Server.step env srv frame).1.fs p t
        (syncEffect env t srv.session.negotiatedBlockSize frame s) := by
  obtain ⟨status, r, hr, hstatus, htracks, hhash⟩ :=
    h.handleBlockData srv.session.deltaSyncHandler m (srv.isFinal m.data)
  have hdispatch := dispatch_incoming env srv frame
  rw [hin] at hdispatch
  rw [Server.step_of_idle hidle.waiting, hdispatch.2, Server.handleDeltaSyncBlockData, hdispatch.1,
    syncEffect, hin]
  simp only [hpath, hr, hstatus]
  split
  · next hanswer =>
    split
    · next hok =>
      -- the acknowledgment carries the hash of the file, which is there
      obtain ⟨b, hb⟩ := hhash hok (hanswer.resolve_right fun hne => hne hok)
      rw [hb]
      exact ⟨⟨hidle.waiting, hidle.up⟩, rfl, htracks⟩
    · exact ⟨⟨hidle.waiting, hidle.up⟩, rfl, htracks⟩
  · exact ⟨⟨hidle.waiting, hidle.up⟩, rfl, htracks⟩

/-- What signatures do: nothing, unless they end the process. -/
theorem Tracks.signatures (h : Tracks env.fm srv.fs p t s) (hidle : Idle srv)
    {m : DeltaSyncSignatureRequest}
    (hin : incoming env.proto frame = .deltaSyncSignatureRequest m) (hpath : m.relativePath = p) :
    (Server.step env srv frame).1.fs = srv.fs ∧
      (Server.step env srv frame).1.uploading = false ∧
      (Server.step env srv frame).1.session.negotiatedBlockSize =
        srv.session.negotiatedBlockSize ∧
      ((Server.step env srv frame).1.crash = none ↔ m.blockSize ≠ 0) := by
  have hquery : srv.writes env frame = none := by simp [Server.writes, hidle.waiting, hin]
  obtain ⟨hfs, hwaiting⟩ := fs_step_of_query hquery
  have hqueryable : Queryable env.fm srv.fs m.relativePath := by
    rw [hpath]
    refine ⟨t, h.writable.resolves, ?_⟩
    cases hf : s.file with
    | none =>
      have hnode := h.file
      rw [hf] at hnode
      simp [h.writable.stat_of_none hnode]
    | some b =>
      have hnode := h.file
      rw [hf] at hnode
      simp [h.writable.stat_of_file hnode]
  refine ⟨hfs, hwaiting, ?_, ?_⟩
  · have hdispatch := dispatch_incoming env srv frame
    rw [hin] at hdispatch
    rw [Server.step_of_idle hidle.waiting, hdispatch.2, Server.handleDeltaSyncSignatureRequest,
      hdispatch.1]
    dsimp only
    split <;> rfl
  · rw [crash_step_iff hidle.up, Harmless, hidle.waiting, hin]
    simp only [Bool.false_eq_true, if_false, Incoming.Harmless, hqueryable, true_and]

/-- **A synchronisation does what its frames do**, one after another. -/
theorem Tracks.run (h : Tracks env.fm srv.fs p t s) (hidle : Idle srv)
    (hframes : ∀ frame ∈ frames, DeltaFrame env p frame) :
    Tracks env.fm (Server.run env srv frames).1.fs p t
      (syncEffects env t srv.session.negotiatedBlockSize frames s) := by
  induction frames generalizing srv s with
  | nil => exact h
  | cons frame frames ih =>
    have hframe := hframes frame List.mem_cons_self
    have hrest : ∀ f ∈ frames, DeltaFrame env p f :=
      fun f hf => hframes f (List.mem_cons_of_mem frame hf)
    rw [Server.run_cons hidle.up, syncEffects]
    unfold DeltaFrame at hframe
    cases hin : incoming env.proto frame with
    | deltaSyncSignatureRequest m =>
      rw [hin] at hframe
      obtain ⟨hfs, hwaiting, hsize, hup⟩ := h.signatures hidle hin hframe
      have hkeep : Tracks env.fm (Server.step env srv frame).1.fs p t s := by
        rw [hfs]
        exact h
      -- a request for signatures changes no file, but may end the process
      have hzero : asksZero env frame = decide (m.blockSize = 0) := by rw [asksZero, hin]
      have hnone : syncEffect env t srv.session.negotiatedBlockSize frame s = s := by
        rw [syncEffect, hin]
      by_cases hb : m.blockSize = 0
      · -- the process has ended, and takes no more frames
        have hdown : (Server.step env srv frame).1.crash.isSome = true := by
          rw [Option.isSome_iff_ne_none, ne_eq, hup]
          simpa using hb
        rw [hzero, decide_eq_true hb, if_pos rfl, Server.run_of_down hdown]
        exact hkeep
      · rw [hzero, decide_eq_false hb, if_neg (by simp), hnone, ← hsize]
        exact ih hkeep ⟨hwaiting, hup.mpr hb⟩ hrest
    | deltaSyncBlockData m =>
      rw [hin] at hframe
      obtain ⟨hidle', hsize, hstep⟩ := h.block hidle hin hframe
      have hzero : asksZero env frame = false := by rw [asksZero, hin]
      rw [hzero, if_neg (by simp), ← hsize]
      rw [← hsize] at hstep
      exact ih hstep hidle' hrest
    | clientHello | negotiationRequest | zeroCopyDownloadRequest | zeroCopyUploadRequest
    | listFilesRequest | malformed =>
      rw [hin] at hframe
      exact hframe.elim

end Tracks

/-! ### Two histories -/

/-- What is at the text after the session has received the frames, on the store. -/
def fileAfter (env : Env) (srv : Server) (t : LexPath.Text) (frames : List WireFrame)
    (fs : FileSystem) : Option Node :=
  let fs' := (Server.run env { srv with fs := fs } frames).1.fs
  fs'.node (fs'.locate (cStr t))

/-- What is in the scratch file of the text. -/
def leftover (fs : FileSystem) (t : LexPath.Text) : Bytes :=
  fs.bytesAt (fs.locate (cTmp t))

section Histories

variable {env : Env} {srv : Server} {p : String} {t : LexPath.Text} {frames : List WireFrame}
  {fs₁ fs₂ : FileSystem}

theorem tracks_of_writable {fs : FileSystem} (hwritable : env.fm.Writable fs p t) :
    ∃ f : Option Bytes, fs.node (fs.locate (cStr t)) = f.map .file ∧
      Tracks env.fm fs p t ⟨f, leftover fs t⟩ := by
  cases hnode : fs.node (fs.locate (cStr t)) with
  | none => exact ⟨none, rfl, hwritable, hnode, rfl⟩
  | some n =>
    cases n with
    | file b => exact ⟨some b, rfl, hwritable, hnode, rfl⟩
    | dir =>
      have hdir := hwritable.node_mkdirs.1.trans hnode
      exact absurd hdir (by rw [← FileSystem.mkdirs_locate]; exact hwritable.not_dir)

/-- On two stores with the same file, a synchronisation leaves the same file exactly when it
hides the leftovers. -/
theorem fileAfter_eq_iff (hidle : Idle srv) (hwritable₁ : env.fm.Writable fs₁ p t)
    (hwritable₂ : env.fm.Writable fs₂ p t)
    (hsame : fs₁.node (fs₁.locate (cStr t)) = fs₂.node (fs₂.locate (cStr t)))
    (hframes : ∀ frame ∈ frames, DeltaFrame env p frame) :
    fileAfter env srv t frames fs₁ = fileAfter env srv t frames fs₂ ↔
      Hidden 0 (syncWrites env srv.session.negotiatedBlockSize frames) (leftover fs₁ t)
        (leftover fs₂ t) := by
  have hinj : Function.Injective (Option.map Node.file) :=
    Option.map_injective fun _ _ => Node.file.inj
  obtain ⟨f, hf, htracks₁⟩ := tracks_of_writable hwritable₁
  obtain ⟨g, hg, htracks₂⟩ := tracks_of_writable hwritable₂
  obtain rfl : f = g := hinj (hf.symm.trans (hsame.trans hg))
  by_cases hnul : nul ∈ t
  · -- what was left is the file
    have hleft : leftover fs₁ t = leftover fs₂ t := by
      rw [leftover, leftover, FileSystem.bytesAt, FileSystem.bytesAt, cTmp_of_mem hnul, hsame]
    refine iff_of_true ?_ ?_
    · rw [fileAfter, fileAfter, (@Tracks.run env { srv with fs := fs₁ } p t _ frames htracks₁
        ⟨hidle.waiting, hidle.up⟩ hframes).file, (@Tracks.run env { srv with fs := fs₂ } p t _
          frames htracks₂ ⟨hidle.waiting, hidle.up⟩ hframes).file, hleft]
    · rw [hleft]
      exact (Target.file_run_eq_iff _ f _ _).mp rfl
  have hafter₁ := (@Tracks.run env { srv with fs := fs₁ } p t _ frames htracks₁
    ⟨hidle.waiting, hidle.up⟩ hframes).file
  have hafter₂ := (@Tracks.run env { srv with fs := fs₂ } p t _ frames htracks₂
    ⟨hidle.waiting, hidle.up⟩ hframes).file
  rw [syncEffects_eq_run hnul] at hafter₁ hafter₂
  rw [← Target.file_run_eq_iff _ f, fileAfter, fileAfter, hafter₁, hafter₂, hinj.eq_iff]

end Histories

/-- **What an aborted transfer leaves to the next one.** After two histories that have left
the same file at `p`, a synchronisation of `p` with the same messages leaves the same file
exactly when it hides what the two have left in the scratch file. -/
theorem later_sync_same_iff {env : Env} {srv : Server} {fs : FileSystem} {p : String}
    {t : LexPath.Text} {visits₁ visits₂ : List Visit} {frames : List WireFrame}
    (hidle : Idle srv) (hwritable₁ : env.fm.Writable (history env fs visits₁) p t)
    (hwritable₂ : env.fm.Writable (history env fs visits₂) p t)
    (hsame : (history env fs visits₁).node ((history env fs visits₁).locate (cStr t)) =
      (history env fs visits₂).node ((history env fs visits₂).locate (cStr t)))
    (hframes : ∀ frame ∈ frames, DeltaFrame env p frame) :
    fileAfter env srv t frames (history env fs visits₁) =
        fileAfter env srv t frames (history env fs visits₂) ↔
      Hidden 0 (syncWrites env srv.session.negotiatedBlockSize frames)
        (leftover (history env fs visits₁) t) (leftover (history env fs visits₂) t) :=
  fileAfter_eq_iff hidle hwritable₁ hwritable₂ hsame hframes

/-! ### A client that left -/

/-- The client sends `data` as a block of `f`, with its hash. -/
def blockOfF (offset : UInt64) (data : Bytes) : WireFrame :=
  message protobuf.deltaSyncBlockData .deltaSyncBlockData ⟨"f", 0, offset, data, sha256Hex data⟩

/-- A client that sends one block and leaves. -/
def aborted (data : Bytes) : Visit := ⟨4096, [blockOfF 0 data]⟩

/-- A store that does not have `f`. -/
def emptyStore : FileSystem := FileSystem.single ['s'] ['f'] none

/-- The store can take `f` but does not have it, and has `left` in its scratch file. -/
structure LeftBehind (fs : FileSystem) (left : Bytes) : Prop where
  writable : storageEnv.fm.Writable fs "f" "s/f".toList
  file : fs.node (fs.locate "s/f".toList) = none
  scratch : leftover fs "s/f".toList = left

section Aborted

variable {offset : UInt64} {data : Bytes}

theorem incoming_blockOfF : incoming storageEnv.proto (blockOfF offset data) =
    .deltaSyncBlockData ⟨"f", 0, offset, data, sha256Hex data⟩ :=
  incoming_deltaSyncBlockData protobuf _

theorem deltaFrame_blockOfF : DeltaFrame storageEnv "f" (blockOfF offset data) := by
  rw [DeltaFrame, incoming_blockOfF]

theorem syncWrite_blockOfF (hoff : offset.toNat + data.length < maxOffset) (negotiated : UInt32) :
    syncWrite storageEnv negotiated (blockOfF offset data) =
      [⟨offset.toNat, data, data.length < negotiated.toNat⟩] := by
  rw [syncWrite, incoming_blockOfF]
  exact if_pos ⟨rfl, hoff⟩

theorem syncWrites_blockOfF (hoff : offset.toNat + data.length < maxOffset) (negotiated : UInt32)
    (frames : List WireFrame) :
    syncWrites storageEnv negotiated (blockOfF offset data :: frames) =
      ⟨offset.toNat, data, data.length < negotiated.toNat⟩ ::
        syncWrites storageEnv negotiated frames := by
  have hzero : asksZero storageEnv (blockOfF offset data) = false := by
    rw [asksZero, incoming_blockOfF]
  rw [syncWrites, hzero, if_neg (by simp), syncWrite_blockOfF hoff]
  rfl

theorem ready_emptyStore : storageEnv.fm.Ready emptyStore "f" "s/f".toList :=
  .of_single (by decide) (by decide) (by decide) rfl rfl rfl

theorem tracks_emptyStore : Tracks storageEnv.fm emptyStore "f" "s/f".toList ⟨none, []⟩ where
  writable := ready_emptyStore.writable
  file := by
    change emptyStore.node _ = none
    rw [emptyStore, show FileSystem.locate _ _ = [['s'], ['f']] from by rfl,
      FileSystem.node_single]
    simp
  scratch := by
    refine FileSystem.bytesAt_of_none ?_
    rw [emptyStore, show FileSystem.locate _ _ = [['s'], "f.tmp".toList] from by rfl,
      FileSystem.node_single]
    simp

/-- A full block is left in the scratch file. -/
theorem history_aborted (hfull : data.length = 4096) :
    LeftBehind (history storageEnv emptyStore [aborted data]) data := by
  have hoff : (0 : UInt64).toNat + data.length < maxOffset := by
    rw [hfull]
    decide
  obtain ⟨hidle, -, htracks⟩ := @Tracks.block storageEnv (Server.new 4096 emptyStore) "f"
    "s/f".toList _ _ tracks_emptyStore ⟨rfl, rfl⟩ _ (@incoming_blockOfF 0 data) rfl
  -- the client leaves outside an upload, so the store stays as the block left it
  have hleaves : history storageEnv emptyStore [aborted data] =
      (Server.step storageEnv (Server.new 4096 emptyStore) (blockOfF 0 data)).1.fs := by
    change Visit.leaves storageEnv emptyStore (aborted data) = _
    unfold Visit.leaves aborted
    dsimp only
    rw [Server.run_cons rfl, Server.run, hidle.up]
    simp [Server.onEof, hidle.waiting, Server.setState]
  have hscratch : Target.run 0 ⟨none, []⟩ (syncWrite storageEnv 4096 (blockOfF 0 data)) =
      (⟨none, data⟩ : Target UInt8) := by
    rw [syncWrite_blockOfF hoff]
    simp [Target.run, Target.step, hfull]
  rw [syncEffect_eq_run (by decide)] at htracks
  rw [hleaves]
  refine ⟨htracks.writable, ?_, htracks.scratch.trans (congrArg Target.scratch hscratch)⟩
  exact htracks.file.trans (congrArg (Option.map Node.file ·.file) hscratch)

/-- The store without an earlier visit. -/
theorem history_nothing : LeftBehind (history storageEnv emptyStore []) [] :=
  ⟨ready_emptyStore.writable, tracks_emptyStore.file, tracks_emptyStore.scratch⟩

/-- A block sent again, with one byte behind it, hides a block that was left. -/
theorem hidden_block_again {left : Bytes} (hleft : left.length = 4096)
    (hfull : data.length = 4096) :
    Hidden 0 (syncWrites storageEnv 4096 [blockOfF 0 data, blockOfF 4096 [7]]) left [] := by
  have hoff : (0 : UInt64).toNat + data.length < maxOffset := by
    rw [hfull]
    decide
  rw [syncWrites_blockOfF hoff, syncWrites_blockOfF (by decide)]
  refine .inr ⟨[⟨0, data, data.length < 4096⟩], ⟨4096, [7], true⟩, [], rfl, ?_, rfl, .inl ⟨?_, ?_⟩⟩
  · simp [hfull]
  · -- both end behind the byte
    have hne : data ≠ [] := List.ne_nil_of_length_pos (by omega)
    simp [extent, Write.place, hleft, hfull, hne]
  · -- what was left ends where the byte stands
    intro j hj
    have hout : left.length ≤ j := by
      by_contra hin
      exact hj ⟨(0, data), by simp [Write.place], by simp, by simp only; omega⟩
    simp [List.getD_eq_getElem?_getD, List.getElem?_eq_none hout]

/-- One byte does not hide a block that was left: the file would end behind the block. -/
theorem not_hidden_byte {left : Bytes} (hleft : left.length = 4096) :
    ¬ Hidden 0 (syncWrites storageEnv 4096 [blockOfF 0 [7]]) left [] := by
  rw [syncWrites_blockOfF (by decide)]
  have hrun := @Target.file_run_eq_iff _ (0 : UInt8) [⟨0, [7], true⟩] none left []
  intro h
  obtain hlen := congrArg (Option.map List.length) (hrun.mpr h)
  simp [Target.run, Target.step, length_writeAt, hleft] at hlen

end Aborted

/-- A later synchronisation that sends the block again, and one byte behind it, leaves the
same file with and without the client that left. -/
theorem later_sync_same_covered :
    fileAfter storageEnv (Server.new 4096 emptyStore) "s/f".toList
        [blockOfF 0 (List.replicate 4096 1), blockOfF 4096 [7]]
        (history storageEnv emptyStore [aborted (List.replicate 4096 2)]) =
      fileAfter storageEnv (Server.new 4096 emptyStore) "s/f".toList
        [blockOfF 0 (List.replicate 4096 1), blockOfF 4096 [7]]
        (history storageEnv emptyStore []) := by
  have h₁ := @history_aborted (List.replicate 4096 2) List.length_replicate
  have h₂ := history_nothing
  have hfile := h₁.file.trans h₂.file.symm
  refine (later_sync_same_iff (p := "f") ⟨rfl, rfl⟩ h₁.writable h₂.writable hfile ?_).mpr ?_
  · intro frame hframe
    obtain rfl | hframe := List.mem_cons.mp hframe
    · exact deltaFrame_blockOfF
    · obtain rfl := List.mem_singleton.mp hframe
      exact deltaFrame_blockOfF
  · rw [h₁.scratch, h₂.scratch]
    exact hidden_block_again List.length_replicate List.length_replicate

/-- After a client that sent one full block and left, the synchronisation of a file of one
byte leaves another file than without it, though neither history has left a file. -/
theorem not_later_sync_same_aborted :
    storageEnv.fm.Writable (history storageEnv emptyStore [aborted (List.replicate 4096 1)]) "f"
        "s/f".toList ∧
      storageEnv.fm.Writable (history storageEnv emptyStore []) "f" "s/f".toList ∧
      (history storageEnv emptyStore [aborted (List.replicate 4096 1)]).node
          ((history storageEnv emptyStore [aborted (List.replicate 4096 1)]).locate
            "s/f".toList) = none ∧
      (history storageEnv emptyStore []).node
          ((history storageEnv emptyStore []).locate "s/f".toList) = none ∧
      fileAfter storageEnv (Server.new 4096 emptyStore) "s/f".toList [blockOfF 0 [7]]
          (history storageEnv emptyStore [aborted (List.replicate 4096 1)]) ≠
        fileAfter storageEnv (Server.new 4096 emptyStore) "s/f".toList [blockOfF 0 [7]]
          (history storageEnv emptyStore []) := by
  have h₁ := @history_aborted (List.replicate 4096 1) List.length_replicate
  have h₂ := history_nothing
  have hframes : ∀ frame ∈ [blockOfF 0 [7]], DeltaFrame storageEnv "f" frame := by
    intro frame hframe
    obtain rfl := List.mem_singleton.mp hframe
    exact deltaFrame_blockOfF
  refine ⟨h₁.writable, h₂.writable, h₁.file, h₂.file, ?_⟩
  have hfile := h₁.file.trans h₂.file.symm
  rw [ne_eq, fileAfter_eq_iff ⟨rfl, rfl⟩ h₁.writable h₂.writable hfile hframes, h₁.scratch,
    h₂.scratch]
  exact not_hidden_byte List.length_replicate

end AdaptiveSync
