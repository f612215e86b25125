import AdaptiveSync.Server.Negotiation

/-!
# Before the handshake

A session starts in the state `AWAITING_HELLO` and moves on when a `ClientHello` arrives. The
dispatch does not look at the state: a session gives the same answers and leaves the same
store whatever state it is in (`run_setState`). So requests are served before the handshake
as they are after it.

Nothing is given away before the handshake as long as no request is served: what arrives
does not parse, or asks for what cannot be given (`Unanswered`, `nothing_before_hello`). A
request for information that can be given is answered (`discloses_of_query`).
-/

namespace AdaptiveSync

open Fs
open LexPath (cStr)

/-! ### The state is not looked at -/

/-- The second outcome is the first but for the state of the session. -/
def UpToState (r r' : Server × List Sent) : Prop := ∃ st, r' = (r.1.setState st, r.2)

section State

variable {env : Env} {srv : Server} {payload : Bytes} (st : SessionState)

theorem finishUpload_setState :
    UpToState (Server.finishUpload env srv) (Server.finishUpload env (srv.setState st)) := by
  unfold Server.finishUpload
  by_cases hdone : srv.session.uploadState.received = srv.session.uploadState.totalSize
  · simp only [Server.setState, hdone, if_true]
    cases env.fm.writeFileAtomic srv.fs srv.session.uploadState.relativePath
      srv.session.uploadState.buffer with
    | error e => exact ⟨st, rfl⟩
    | ok r =>
      obtain ⟨written, fs'⟩ := r
      cases written with
      | false => exact ⟨.ready, rfl⟩
      | true =>
        dsimp only
        cases env.fm.atomicRenameTmp fs' srv.session.uploadState.relativePath with
        | error e => exact ⟨st, rfl⟩
        | ok r => exact ⟨.ready, rfl⟩
  · simp only [Server.setState, hdone, if_false]
    exact ⟨.ready, rfl⟩

theorem uploadLoop_setState :
    UpToState (Server.uploadLoop env srv) (Server.uploadLoop env (srv.setState st)) := by
  unfold Server.uploadLoop
  by_cases hmore : srv.session.uploadState.received < srv.session.uploadState.totalSize
  · simp only [Server.setState, hmore, if_true]
    exact ⟨st, rfl⟩
  · have hfinish := @finishUpload_setState env srv st
    simp only [Server.setState, hmore, if_false] at hfinish ⊢
    exact hfinish

theorem uploadFrame_setState (frame : WireFrame) :
    UpToState (Server.uploadFrame env srv frame)
      (Server.uploadFrame env (srv.setState st) frame) := by
  unfold Server.uploadFrame
  by_cases hraw : frame.messageType = MSG_RAW_DATA
  · obtain ⟨st', hloop⟩ := @uploadLoop_setState env { srv with
      session := { srv.session with uploadState := { srv.session.uploadState with
        buffer := srv.session.uploadState.buffer ++ frame.payload
        received := srv.session.uploadState.received + UInt64.ofNat frame.payload.length } }
      ticks := srv.ticks + 1 } st
    refine ⟨st', ?_⟩
    simp only [Server.setState, hraw, if_true] at hloop ⊢
    rw [hloop]
  · have hloop := @uploadLoop_setState env srv st
    simp only [Server.setState, hraw, if_false] at hloop ⊢
    exact hloop

theorem handleNegotiationRequest_setState :
    UpToState (Server.handleNegotiationRequest env srv payload)
      (Server.handleNegotiationRequest env (srv.setState st) payload) := by
  unfold Server.handleNegotiationRequest
  dsimp only [Server.setState]
  split
  · exact ⟨st, rfl⟩
  · split <;> exact ⟨_, rfl⟩

theorem handleZeroCopyUploadRequest_setState :
    UpToState (Server.handleZeroCopyUploadRequest env srv payload)
      (Server.handleZeroCopyUploadRequest env (srv.setState st) payload) := by
  unfold Server.handleZeroCopyUploadRequest
  dsimp only [Server.setState]
  split
  · exact ⟨st, rfl⟩
  · -- the request sets the state itself
    exact ⟨_, rfl⟩

theorem handleZeroCopyDownloadRequest_setState :
    UpToState (Server.handleZeroCopyDownloadRequest env srv payload)
      (Server.handleZeroCopyDownloadRequest env (srv.setState st) payload) := by
  unfold Server.handleZeroCopyDownloadRequest
  dsimp only [Server.setState]
  split
  · exact ⟨st, rfl⟩
  · split <;> exact ⟨_, rfl⟩

theorem handleDeltaSyncSignatureRequest_setState :
    UpToState (Server.handleDeltaSyncSignatureRequest env srv payload)
      (Server.handleDeltaSyncSignatureRequest env (srv.setState st) payload) := by
  unfold Server.handleDeltaSyncSignatureRequest
  dsimp only [Server.setState]
  split
  · exact ⟨st, rfl⟩
  · split <;> exact ⟨_, rfl⟩

theorem handleDeltaSyncBlockData_setState :
    UpToState (Server.handleDeltaSyncBlockData env srv payload)
      (Server.handleDeltaSyncBlockData env (srv.setState st) payload) := by
  unfold Server.handleDeltaSyncBlockData
  dsimp only [Server.setState, Server.isFinal]
  split
  · exact ⟨st, rfl⟩
  · exact ⟨_, rfl⟩

theorem handleListFilesRequest_setState :
    UpToState (Server.handleListFilesRequest env srv payload)
      (Server.handleListFilesRequest env (srv.setState st) payload) := by
  unfold Server.handleListFilesRequest
  dsimp only [Server.setState]
  split
  · exact ⟨st, rfl⟩
  · split <;> exact ⟨_, rfl⟩

theorem handleClientHello_setState :
    UpToState (Server.handleClientHello env srv payload)
      (Server.handleClientHello env (srv.setState st) payload) := by
  unfold Server.handleClientHello
  dsimp only [Server.setState]
  split <;> exact ⟨_, rfl⟩

theorem dispatch_setState (frame : WireFrame) :
    UpToState (Server.dispatch env srv frame) (Server.dispatch env (srv.setState st) frame) := by
  have h := dispatch_incoming env srv frame
  have h' := dispatch_incoming env (srv.setState st) frame
  cases hin : incoming env.proto frame with
  | clientHello m =>
    rw [hin] at h h'
    rw [h.2, h'.2]
    exact handleClientHello_setState st
  | negotiationRequest m =>
    rw [hin] at h h'
    rw [h.2, h'.2]
    exact handleNegotiationRequest_setState st
  | zeroCopyDownloadRequest m =>
    rw [hin] at h h'
    rw [h.2, h'.2]
    exact handleZeroCopyDownloadRequest_setState st
  | zeroCopyUploadRequest m =>
    rw [hin] at h h'
    rw [h.2, h'.2]
    exact handleZeroCopyUploadRequest_setState st
  | deltaSyncSignatureRequest m =>
    rw [hin] at h h'
    rw [h.2, h'.2]
    exact handleDeltaSyncSignatureRequest_setState st
  | deltaSyncBlockData m =>
    rw [hin] at h h'
    rw [h.2, h'.2]
    exact handleDeltaSyncBlockData_setState st
  | listFilesRequest m =>
    rw [hin] at h h'
    rw [h.2, h'.2]
    exact handleListFilesRequest_setState st
  | malformed text =>
    rw [hin] at h h'
    rw [h, h']
    exact ⟨st, rfl⟩

theorem step_setState (frame : WireFrame) :
    UpToState (Server.step env srv frame) (Server.step env (srv.setState st) frame) := by
  cases hup : srv.uploading with
  | true =>
    have hup' : (srv.setState st).uploading = true := hup
    rw [Server.step, Server.step, if_pos hup, if_pos hup']
    exact uploadFrame_setState st frame
  | false =>
    have hup' : (srv.setState st).uploading = false := hup
    rw [Server.step_of_idle hup, Server.step_of_idle hup']
    exact dispatch_setState st frame

/-- **The state of a session is not looked at**: over a run of any length it changes neither
what is sent nor what happens to the store. -/
theorem run_setState (frames : List WireFrame) :
    UpToState (Server.run env srv frames) (Server.run env (srv.setState st) frames) := by
  induction frames generalizing srv st with
  | nil => exact ⟨st, rfl⟩
  | cons frame frames ih =>
    by_cases hdown : srv.crash.isSome = true
    · have hdown' : (srv.setState st).crash.isSome = true := hdown
      rw [Server.run_of_down hdown, Server.run_of_down hdown']
      exact ⟨st, rfl⟩
    · have hup : srv.crash = none := by simpa using hdown
      have hup' : (srv.setState st).crash = none := hup
      obtain ⟨st₁, hstep⟩ := @step_setState env srv st frame
      obtain ⟨st₂, hrun⟩ := @ih (Server.step env srv frame).1 st₁
      rw [Server.run_cons hup, Server.run_cons hup', hstep, hrun]
      exact ⟨st₂, rfl⟩

end State

/-! ### What is given away -/

/-- What is sent carries content, metadata or hashes of files, or indices of blocks. The
other messages of the server are its hello, errors, and the acknowledgement of an upload. -/
def Sent.Discloses : Sent → Prop
  | .raw _ _ => True
  | .frame f => f.messageType ∈ [MSG_RAW_DATA, MessageType.negotiationResponse.code,
      MessageType.zeroCopyDownloadHeader.code, MessageType.deltaSyncBlockRequest.code,
      MessageType.deltaSyncComplete.code, MessageType.listFilesResponse.code,
      MessageType.progress.code]

/-- The run leaves the store as it is, and gives nothing away. -/
def Silent (env : Env) (srv : Server) (frames : List WireFrame) : Prop :=
  (Server.run env srv frames).1.fs = srv.fs ∧
    ∀ s ∈ (Server.run env srv frames).2, ¬ s.Discloses

/-- There is something to send: a file that is longer than the offset and can be hashed. -/
def Servable (env : Env) (fs : FileSystem) (m : ZeroCopyDownloadRequest) : Prop :=
  ∃ t b, env.fm.resolvePath m.relativePath = .ok t ∧ fs.stat (cStr t) = .file b ∧
    m.offset < UInt64.ofNat b.length ∧ Hashable env.fm fs m.relativePath

/-- The frame is not served: it does not parse, or it asks for what cannot be given, because
a file operation throws or there is nothing to send. -/
def Unanswered (env : Env) (fs : FileSystem) (frame : WireFrame) : Prop :=
  match incoming env.proto frame with
  | .malformed _ => True
  | .negotiationRequest m =>
    ¬ (Queryable env.fm fs m.relativePath ∧ Hashable env.fm fs m.relativePath)
  | .zeroCopyDownloadRequest m => ¬ Servable env fs m
  | .deltaSyncSignatureRequest m => ¬ (Queryable env.fm fs m.relativePath ∧ m.blockSize ≠ 0)
  | .listFilesRequest m => ¬ ListableRoot env.fm fs m.directoryPrefix m.recursive
  | .clientHello _ => False
  | .zeroCopyUploadRequest _ => False
  | .deltaSyncBlockData _ => False

section Silent

variable {env : Env} {srv : Server} {frame : WireFrame} {fs : FileSystem}

theorem not_discloses_sendError (code : StatusCode) (text : String) :
    ¬ (Server.sendError env code text).Discloses := by
  simp [Server.sendError, Sent.Discloses, message, MessageType.code, MSG_RAW_DATA]

theorem query_of_unanswered (h : Unanswered env fs frame) : Query env frame := by
  unfold Unanswered at h
  unfold Query
  split at h <;> simp_all

/-- Nothing goes out exactly when there is nothing to send. -/
theorem sendFile_silent_iff (m : ZeroCopyDownloadRequest) :
    (sendFile env fs m.relativePath m.offset).2 = [] ↔ ¬ Servable env fs m := by
  cases hp : env.fm.resolvePath m.relativePath with
  | error e => simp [sendFile, Servable, hp]
  | ok t =>
    have hservable : Servable env fs m ↔ ∃ b, fs.stat (cStr t) = .file b ∧
        m.offset < UInt64.ofNat b.length ∧ Hashable env.fm fs m.relativePath := by
      simp [Servable, hp]
    rw [hservable]
    cases hs : fs.stat (cStr t) with
    | failed => simp [sendFile, FileManager.fileExists, hp, existsOrThrow, hs]
    | dir =>
      simp [sendFile, FileManager.fileExists, FileManager.getFileSize, hp, existsOrThrow, hs]
    | notFound => simp [sendFile, FileManager.fileExists, hp, existsOrThrow, hs]
    | file b =>
      rw [← @computeSha256_returns env.sha256]
      obtain ⟨hle, heq⟩ | ⟨hlt, ⟨e, hhash, heq⟩ | ⟨hash, ok, header, rest, hhash, heq⟩⟩ :=
        sendFile_file_cases hp hs m.offset
      · simp [heq, UInt64.not_lt.mpr hle]
      · simp [heq, hhash]
      · simp [heq, hhash, hlt]

/-- What a download sends is the header or the data of a file. -/
theorem discloses_of_mem_sendFile {path : String} {offset : UInt64} {s : Sent}
    (hs : s ∈ (sendFile env fs path offset).2) : s.Discloses := by
  unfold sendFile at hs
  dsimp only at hs
  repeat' split at hs
  all_goals simp only [List.mem_cons, List.not_mem_nil, or_false] at hs
  all_goals
    obtain rfl | rfl := hs
    · simp [Sent.Discloses, message]
    · trivial

/-- A frame that is not served gives nothing away. -/
theorem step_of_unanswered (hwaiting : srv.uploading = false) (h : Unanswered env srv.fs frame) :
    ∀ s ∈ (Server.step env srv frame).2, ¬ s.Discloses := by
  have hdispatch := dispatch_incoming env srv frame
  rw [Server.step_of_idle hwaiting]
  unfold Unanswered at h
  cases hin : incoming env.proto frame with
  | malformed text =>
    rw [hin] at hdispatch
    rw [hdispatch]
    intro s hs
    rw [List.mem_singleton.mp hs]
    exact not_discloses_sendError _ _
  | negotiationRequest m =>
    rw [hin] at hdispatch h
    rw [hdispatch.2, Server.handleNegotiationRequest, hdispatch.1]
    dsimp only at h ⊢
    -- not served means that the negotiator throws, and nothing is sent then
    rw [← @negotiate_returns env.sha256 _ _ _ srv.session.negotiator m.clientSha256Hash] at h
    split
    · simp
    · next r hr => exact absurd ⟨r, hr⟩ h
  | zeroCopyDownloadRequest m =>
    rw [hin] at hdispatch h
    rw [hdispatch.2, Server.handleZeroCopyDownloadRequest, hdispatch.1]
    dsimp only at h ⊢
    rw [← sendFile_silent_iff] at h
    split
    · next hsend => simp_all
    · next hsend => simp_all
    · next out hsend =>
      -- the transfer has failed before its header, so the error is all that is sent
      obtain rfl : out = [] := by simpa [hsend] using h
      intro s hs
      rw [List.nil_append] at hs
      rw [List.mem_singleton.mp hs]
      exact not_discloses_sendError _ _
  | deltaSyncSignatureRequest m =>
    rw [hin] at hdispatch h
    rw [hdispatch.2, Server.handleDeltaSyncSignatureRequest, hdispatch.1]
    dsimp only at h ⊢
    split
    · simp
    · next r hr => exact absurd (handleSignatureRequest_returns.mp ⟨r, hr⟩) h
  | listFilesRequest m =>
    rw [hin] at hdispatch h
    rw [hdispatch.2, Server.handleListFilesRequest, hdispatch.1]
    dsimp only at h ⊢
    split
    · simp
    · next r hr => exact absurd (listFiles_returns.mp ⟨r, hr⟩) h
  | clientHello m =>
    rw [hin] at h
    exact h.elim
  | zeroCopyUploadRequest m =>
    rw [hin] at h
    exact h.elim
  | deltaSyncBlockData m =>
    rw [hin] at h
    exact h.elim

/-- The frame only asks, it is no hello, and what it asks for does not end the process. -/
structure Asks (env : Env) (fs : FileSystem) (frame : WireFrame) : Prop where
  query : Query env frame
  not_hello : ∀ m, incoming env.proto frame ≠ .clientHello m
  harmless : ∀ srv : Server, srv.fs = fs → (incoming env.proto frame).Harmless env srv

/-- A question that can be answered is answered. -/
theorem discloses_of_query (hwaiting : srv.uploading = false) (hasks : Asks env srv.fs frame)
    (h : ¬ Unanswered env srv.fs frame) : ∃ s ∈ (Server.step env srv frame).2, s.Discloses := by
  have hdispatch := dispatch_incoming env srv frame
  have hquery := hasks.query
  have hharmless := hasks.harmless srv rfl
  rw [Server.step_of_idle hwaiting]
  unfold Unanswered at h
  unfold Query at hquery
  cases hin : incoming env.proto frame with
  | malformed text =>
    rw [hin] at h
    exact absurd trivial h
  | negotiationRequest m =>
    rw [hin] at hdispatch hharmless
    rw [hdispatch.2, Server.handleNegotiationRequest, hdispatch.1]
    -- harmless means that the negotiator returns, and what it returns is sent
    obtain ⟨r, hr⟩ := (@negotiate_returns env.sha256 _ _ _ srv.session.negotiator
      m.clientSha256Hash).mpr hharmless
    simp only [hr]
    exact ⟨_, List.mem_singleton_self _, by simp [Sent.Discloses, message]⟩
  | zeroCopyDownloadRequest m =>
    rw [hin] at hdispatch h
    rw [hdispatch.2, Server.handleZeroCopyDownloadRequest, hdispatch.1]
    dsimp only at h ⊢
    rw [← sendFile_silent_iff] at h
    -- something is sent of the file, and however the transfer ends it stays sent
    obtain ⟨s, hs⟩ := List.exists_mem_of_ne_nil _ h
    have hdisclosed := discloses_of_mem_sendFile hs
    split
    · next hsend => exact ⟨s, by rwa [hsend] at hs, hdisclosed⟩
    · next hsend => exact ⟨s, by rwa [hsend] at hs, hdisclosed⟩
    · next hsend =>
      rw [hsend] at hs
      exact ⟨s, List.mem_append_left _ hs, hdisclosed⟩
  | deltaSyncSignatureRequest m =>
    rw [hin] at hdispatch hharmless
    rw [hdispatch.2, Server.handleDeltaSyncSignatureRequest, hdispatch.1]
    dsimp only
    split
    · next e he =>
      obtain ⟨r, hr⟩ := (@handleSignatureRequest_returns env.sha256 _ _ _ _ _ _).mpr hharmless
      exact absurd (he.symm.trans hr) (by simp)
    · exact ⟨_, List.mem_singleton_self _, by simp [Sent.Discloses, message]⟩
  | listFilesRequest m =>
    rw [hin] at hdispatch hharmless
    rw [hdispatch.2, Server.handleListFilesRequest, hdispatch.1]
    obtain ⟨r, hr⟩ := (@listFiles_returns env.sha256 _ _ _ _).mpr hharmless
    simp only [hr]
    exact ⟨_, List.mem_singleton_self _, by simp [Sent.Discloses, message]⟩
  | clientHello m => exact absurd hin (hasks.not_hello m)
  | zeroCopyUploadRequest m =>
    rw [hin] at hquery
    exact hquery.elim
  | deltaSyncBlockData m =>
    rw [hin] at hquery
    exact hquery.elim

/-- Frames that are not served give nothing away, over a run of any length. -/
theorem silent_of_unanswered {frames : List WireFrame} (hwaiting : srv.uploading = false)
    (h : ∀ frame ∈ frames, Unanswered env srv.fs frame) : Silent env srv frames := by
  induction frames generalizing srv with
  | nil => exact ⟨rfl, by simp [Server.run]⟩
  | cons frame frames ih =>
    by_cases hdown : srv.crash.isSome = true
    · rw [Silent, Server.run_of_down hdown]
      exact ⟨rfl, by simp⟩
    have hframe := h frame List.mem_cons_self
    obtain ⟨hfs, hwaiting'⟩ := fs_step_of_query (writes_of_query hwaiting
      (query_of_unanswered hframe))
    have hrest := @ih (Server.step env srv frame).1 hwaiting' fun f hf => by
      rw [hfs]
      exact h f (List.mem_cons_of_mem frame hf)
    rw [Silent, Server.run_cons (by simpa using hdown)]
    refine ⟨hrest.1.trans hfs, fun s hs => ?_⟩
    obtain hs | hs := List.mem_append.mp hs
    · exact step_of_unanswered hwaiting hframe s hs
    · exact hrest.2 s hs

/-- Among questions that do not end the process, a run is silent only if none of them is
served. -/
theorem unanswered_of_silent {frames : List WireFrame} (hidle : Idle srv)
    (hasks : ∀ frame ∈ frames, Asks env srv.fs frame) (h : Silent env srv frames) :
    ∀ frame ∈ frames, Unanswered env srv.fs frame := by
  induction frames generalizing srv with
  | nil => simp
  | cons frame frames ih =>
    have hframe := hasks frame List.mem_cons_self
    obtain ⟨hfs, hwaiting⟩ := fs_step_of_query (writes_of_query hidle.waiting hframe.query)
    have hup : (Server.step env srv frame).1.crash = none := by
      rw [crash_step_iff hidle.up, Harmless, hidle.waiting]
      exact hframe.harmless srv rfl
    rw [Silent, Server.run_cons hidle.up] at h
    obtain ⟨hstore, hsent⟩ := h
    have hrest : ∀ f ∈ frames, Unanswered env srv.fs f := by
      rw [← hfs]
      refine @ih (Server.step env srv frame).1 ⟨hwaiting, hup⟩ (fun f hf => ?_)
        ⟨hstore.trans hfs.symm, fun s hs => hsent s (List.mem_append_right _ hs)⟩
      rw [hfs]
      exact hasks f (List.mem_cons_of_mem frame hf)
    refine List.forall_mem_cons.mpr ⟨?_, hrest⟩
    by_contra hanswered
    obtain ⟨s, hs, hdiscloses⟩ := discloses_of_query hidle.waiting hframe hanswered
    exact hsent s (List.mem_append_left _ hs) hdiscloses

end Silent

/-- **Before the handshake.** A session that has just been accepted leaves the store as it is
and gives nothing away, as long as none of the frames it receives is served. Where the frames
only ask and none of them ends the process, it gives something away as soon as one is. -/
theorem nothing_before_hello {env : Env} {blockSize : UInt32} {fs : FileSystem}
    {frames : List WireFrame} :
    ((∀ frame ∈ frames, Unanswered env fs frame) →
        Silent env (Server.new blockSize fs) frames) ∧
      ((∀ frame ∈ frames, Asks env fs frame) → Silent env (Server.new blockSize fs) frames →
        ∀ frame ∈ frames, Unanswered env fs frame) :=
  ⟨fun h => @silent_of_unanswered env (Server.new blockSize fs) frames rfl h,
    fun hasks h => @unanswered_of_silent env (Server.new blockSize fs) frames ⟨rfl, rfl⟩ hasks h⟩

/-! ### A store with one file -/

/-- A store with the file `g`. -/
def storeG : FileSystem := FileSystem.single ['s'] ['g'] (some [7])

/-- A request to download `f`, which is not there. -/
def downloadF : WireFrame :=
  message protobuf.zeroCopyDownloadRequest .zeroCopyDownloadRequest ⟨"f", 0⟩

/-- A frame of no known type and a request for a file that is not there are not served. -/
theorem nothing_before_hello_refused :
    Silent storageEnv (Server.new 4096 storeG) [⟨99, []⟩, downloadF] := by
  refine nothing_before_hello.1 fun frame hframe => ?_
  obtain rfl | hframe := List.mem_cons.mp hframe
  · have hin : incoming storageEnv.proto ⟨99, []⟩ = .malformed "Unknown message type" := rfl
    rw [Unanswered, hin]
    trivial
  · obtain rfl := List.mem_singleton.mp hframe
    have hin : incoming storageEnv.proto downloadF = .zeroCopyDownloadRequest ⟨"f", 0⟩ :=
      incoming_zeroCopyDownloadRequest protobuf _
    rw [Unanswered, hin]
    rintro ⟨t, b, ht, hstat, -⟩
    obtain rfl : "s/f".toList = t := Except.ok.inj ((by decide :
      storageEnv.fm.resolvePath "f" = .ok "s/f".toList).symm.trans ht)
    have hnone : storeG.stat "s/f".toList = .notFound := by decide
    exact absurd (hnone.symm.trans hstat) (by simp)

/-- A question about `g`. -/
def askG : WireFrame :=
  message protobuf.negotiationRequest .negotiationRequest ⟨"g", 0, 0, ""⟩

theorem ready_storeG : storageEnv.fm.Ready storeG "g" "s/g".toList :=
  .of_single (by decide) (by decide) (by decide) rfl rfl rfl

/-- A client that has not said hello is told the size and the hash of `g`. -/
theorem discloses_before_hello :
    (∀ m, incoming storageEnv.proto askG ≠ .clientHello m) ∧
      (Server.run storageEnv (Server.new 4096 storeG) [askG]).2 =
        [.frame (message protobuf.negotiationResponse .negotiationResponse
          ⟨.modified, .deltaSync, 1, sha256Hex [7], 4096⟩)] ∧
      ¬ Silent storageEnv (Server.new 4096 storeG) [askG] := by
  have hin : incoming storageEnv.proto askG = .negotiationRequest ⟨"g", 0, 0, ""⟩ :=
    incoming_negotiationRequest protobuf _
  have hnode : storeG.node (storeG.locate "s/g".toList) = some (.file [7]) := by
    rw [storeG, show FileSystem.locate _ _ = [['s'], ['g']] from by rfl, FileSystem.node_single]
    simp
  have hanswer := @negotiate_of_file storageEnv.sha256 _ _ _ _ _ ⟨4096⟩ "" ready_storeG hnode
  have hsent : (Server.run storageEnv (Server.new 4096 storeG) [askG]).2 =
      [.frame (message protobuf.negotiationResponse .negotiationResponse
        ⟨.modified, .deltaSync, 1, sha256Hex [7], 4096⟩)] := by
    have hdispatch := dispatch_incoming storageEnv (Server.new 4096 storeG) askG
    rw [hin] at hdispatch
    rw [Server.run_cons rfl, Server.run, List.append_nil, Server.step_of_idle rfl, hdispatch.2,
      Server.handleNegotiationRequest, hdispatch.1]
    dsimp only [Server.new, Session.new]
    rw [hanswer]
    rfl
  refine ⟨fun m hm => by simp [hin] at hm, hsent, fun hsilent => ?_⟩
  rw [Silent, hsent] at hsilent
  exact hsilent.2 _ (List.mem_singleton_self _) (by simp [Sent.Discloses, message])

end AdaptiveSync
