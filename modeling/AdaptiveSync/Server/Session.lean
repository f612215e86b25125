import AdaptiveSync.Protobuf
import AdaptiveSync.Server.DeltaSyncHandler
import AdaptiveSync.Wire

/-!
# One session of the server

`Session` (`server/src/session.cpp`) reads frames from one client and dispatches them to
seven handlers, with the two helpers that only it uses: `Negotiator`
(`server/src/negotiator.cpp`) and `ZeroCopySender` (`server/src/zero_copy_sender.cpp`).

A session is a machine that takes one frame at a time. `Session::run` and the loop inside
`handle_zero_copy_upload_request` both wait in `read_frame`, so the machine remembers in
`uploading` which of the two is waiting; everything between two reads is one step
(`Server.step`). A step returns the state after it and what was put on the socket.

An exception that leaves a handler leaves `handle_client` too, since nothing catches it,
and ends the process: `crash` is set, and the machine takes no more steps. What was sent
and written before stays.

Allocation is taken to succeed, `buffer.reserve` of an announced size included. A step takes a
frame that `read_frame` has delivered, and its sends succeed. Which frames are delivered is
the matter of the byte streams below (`Sockets`, `SessionStream`): `read_exact` gives up on a
raw frame of 4 GiB or more (`recvFrame_fails_of_ge`). A raw frame whose bytes break off is
waited for as a whole by its reader: that the bytes of frames sent later would fill it up is
not modelled.

Not determined by the program are the protobuf runtime, the hash, and the clock that
decides when a progress frame is due. They are gathered in `Env`.
-/

namespace AdaptiveSync

open Fs
open LexPath (cStr)

/-! ### What a session sends -/

/-- A frame written with `write_frame`, or a raw-data header followed by bytes that are
streamed from a file. The bytes are the announced ones unless streaming failed. -/
inductive Sent where
  | frame (f : WireFrame)
  | raw (announced : ℕ) (bytes : Bytes)
  deriving DecidableEq

/-- The frame the client reads, once it is there as a whole. -/
def Sent.view : Sent → Option WireFrame
  | .frame f => some f
  | .raw announced bytes => if bytes.length = announced then some ⟨MSG_RAW_DATA, bytes⟩ else none

theorem Sent.view_raw (bytes : Bytes) :
    (Sent.raw bytes.length bytes).view = some ⟨MSG_RAW_DATA, bytes⟩ := if_pos rfl

/-- A reading of the clock inside an upload, at which a progress frame is due. -/
structure Tick where
  /-- The bits of the rate, a 32-bit float. -/
  rateMbps : UInt32
  elapsedMs : UInt32

/-- What the server program runs on. -/
structure Env where
  proto : Proto
  sha256 : Bytes → String
  fm : FileManager
  /-- The `n`-th reading of the clock; `none` when no whole millisecond has passed. -/
  clock : ℕ → Option Tick

/-- The programs as they are built, the server serving the directory `s`. -/
def storageEnv : Env := ⟨protobuf, sha256Hex, ⟨"s", by decide⟩, fun _ => none⟩

/-- A message as the frame that carries it. -/
def message {α : Type} (c : Codec α) (type : MessageType) (m : α) : WireFrame :=
  ⟨type.code, c.encode m⟩

/-- The frame carries the message `m`. -/
def Carrying {α : Type} (c : Codec α) (type : MessageType) (m : α) (f : WireFrame) : Prop :=
  f.messageType = type.code ∧ c.decode f.payload = some m

theorem carrying_message {α : Type} (c : Codec α) (type : MessageType) (m : α) :
    Carrying c type m (message c type m) :=
  ⟨rfl, c.decode_encode m⟩

/-! ### The negotiator -/

/-- `Negotiator`. -/
structure Negotiator where
  blockSize : UInt32

/-- `NegotiationResult`. -/
structure NegotiationResult where
  fileMode : FileMode
  transferMode : TransferMode
  serverFileSize : UInt64
  serverSha256 : String
  blockSize : UInt32
  deriving DecidableEq

/-- `negotiate`. The client's file size and modification time are not looked at. -/
def Negotiator.negotiate (sha256 : Bytes → String) (fm : FileManager) (n : Negotiator)
    (fs : FileSystem) (relativePath : String) (clientSha256 : String) :
    Except Crash NegotiationResult := do
  if !(← fm.fileExists fs relativePath) then return ⟨.fresh, .zeroCopy, 0, "", n.blockSize⟩
  match ← fm.getFileInfo sha256 fs relativePath with
  | none => return ⟨.fresh, .zeroCopy, 0, "", n.blockSize⟩
  | some info =>
    if clientSha256 ≠ "" ∧ clientSha256 = info.sha256Hex then
      return ⟨.unchanged, .unspecified, info.fileSize, info.sha256Hex, n.blockSize⟩
    -- a file that differs is synchronised block by block
    else return ⟨.modified, .deltaSync, info.fileSize, info.sha256Hex, n.blockSize⟩

/-! ### The zero-copy sender -/

/-- `send_file`: how it ended and what it put on the socket. A file that cannot be opened
or read after its header went out leaves the raw frame without its bytes. -/
def sendFile (env : Env) (fs : FileSystem) (relativePath : String) (offset : UInt64) :
    Except Crash Bool × List Sent :=
  let size : Except Crash (LexPath.Text × Option UInt64) := do
    let fullPath ← env.fm.resolvePath relativePath
    if !(← env.fm.fileExists fs relativePath) then return (fullPath, none)
    return (fullPath, some (← env.fm.getFileSize fs relativePath))
  match size with
  | .error e => (.error e, [])
  | .ok (_, none) => (.ok false, [])
  | .ok (fullPath, some totalSize) =>
    -- an empty file is not served
    if totalSize = 0 then (.ok false, [])
    else if totalSize ≤ offset then (.ok false, [])
    else
      match env.fm.computeSha256 env.sha256 fs relativePath with
      | .error e => (.error e, [])
      | .ok hash =>
        -- both headers go out before the file is opened
        let bytesToSend := totalSize - offset
        let header := Sent.frame (message env.proto.zeroCopyDownloadHeader
          .zeroCopyDownloadHeader ⟨relativePath, totalSize, hash, offset⟩)
        match fs.openRead (cStr fullPath) with
        | some (.file b) =>
          if fs.os.fails .read (fs.locate (cStr fullPath)) then
            (.ok false, [header, .raw bytesToSend.toNat []])
          else
            (.ok true, [header, .raw bytesToSend.toNat
              ((b.drop offset.toNat).take bytesToSend.toNat)])
        | _ => (.ok false, [header, .raw bytesToSend.toNat []])

/-! ### The session -/

/-- `SessionState`. -/
inductive SessionState where
  | awaitingHello | ready | negotiating | transferring | errorState | disconnected
  deriving DecidableEq

/-- `UploadState`. -/
structure UploadState where
  relativePath : String := ""
  totalSize : UInt64 := 0
  received : UInt64 := 0
  expectedSha256 : String := ""
  buffer : Bytes := []
  deriving DecidableEq

/-- `Session`, less its references to what the server owns. -/
structure Session where
  state : SessionState
  clientId : String
  negotiator : Negotiator
  deltaSyncHandler : DeltaSyncHandler
  negotiatedBlockSize : UInt32
  protocolVersion : UInt32
  uploadState : UploadState

/-- The constructor. -/
def Session.new (blockSize : UInt32) : Session where
  state := .awaitingHello
  clientId := ""
  negotiator := ⟨blockSize⟩
  deltaSyncHandler := .new blockSize
  negotiatedBlockSize := blockSize
  protocolVersion := 1
  uploadState := {}

/-- The server process as one session works in it. -/
structure Server where
  session : Session
  /-- The wait for the next frame is the one inside the upload handler. -/
  uploading : Bool
  fs : FileSystem
  /-- How often the clock has been read. -/
  ticks : ℕ
  /-- The exception that ended the process. -/
  crash : Option Crash

/-- A session that was just accepted. -/
def Server.new (blockSize : UInt32) (fs : FileSystem) : Server :=
  ⟨.new blockSize, false, fs, 0, none⟩

namespace Server

variable (env : Env) (srv : Server)

/-- Change the state of the session. -/
def setState (state : SessionState) : Server :=
  { srv with session := { srv.session with state := state } }

/-- An exception leaves the session. -/
def throw (e : Crash) : Server := { srv with crash := some e }

/-- `send_error`. -/
def sendError (code : StatusCode) (text : String) : Sent :=
  .frame (message env.proto.errorPayload .error ⟨code, text, ""⟩)

/-- `send_progress`, with what is due at the `n`-th reading of the clock. -/
def sendProgress (u : UploadState) (n : ℕ) : List Sent :=
  match env.clock n with
  | none => []
  | some tick => [.frame (message env.proto.progressUpdate .progress
      ⟨u.relativePath, u.received, u.totalSize, tick.rateMbps, tick.elapsedMs⟩)]

/-- The block size a client may ask for. -/
def acceptable (blockSize : UInt32) : Bool := 4096 ≤ blockSize && blockSize ≤ 1048576

/-- `handle_client_hello`. -/
def handleClientHello (payload : Bytes) : Server × List Sent :=
  match env.proto.clientHello.decode payload with
  | none => (srv, [sendError env .protocolError "Failed to parse ClientHello"])
  | some hello =>
    -- the negotiator and the handler keep the size they were built with
    let negotiated :=
      if acceptable hello.blockSize then hello.blockSize else srv.session.negotiatedBlockSize
    let session := { srv.session with
      clientId := hello.clientId
      protocolVersion := hello.protocolVersion
      negotiatedBlockSize := negotiated
      state := .ready }
    ({ srv with session := session },
      [.frame (message env.proto.serverHello .serverHello {
        protocolVersion := 1
        serverId := "adaptivesync-cpp-1.0"
        supportedModes := [.zeroCopy, .deltaSync]
        maxConcurrentTransfers := 10
        maxFileSize := 0
        blockSize := negotiated })])

/-- `handle_negotiation_request`. -/
def handleNegotiationRequest (payload : Bytes) : Server × List Sent :=
  match env.proto.negotiationRequest.decode payload with
  | none => (srv, [sendError env .protocolError "Failed to parse NegotiationRequest"])
  | some req =>
    match srv.session.negotiator.negotiate env.sha256 env.fm srv.fs req.relativePath
        req.clientSha256Hash with
    | .error e => ((srv.setState .negotiating).throw e, [])
    | .ok r => (srv.setState .ready,
        [.frame (message env.proto.negotiationResponse .negotiationResponse
          ⟨r.fileMode, r.transferMode, r.serverFileSize, r.serverSha256, r.blockSize⟩)])

/-- `handle_zero_copy_download_request`. -/
def handleZeroCopyDownloadRequest (payload : Bytes) : Server × List Sent :=
  match env.proto.zeroCopyDownloadRequest.decode payload with
  | none => (srv, [sendError env .protocolError "Failed to parse ZeroCopyDownloadRequest"])
  | some req =>
    match sendFile env srv.fs req.relativePath req.offset with
    | (.error e, out) => ((srv.setState .transferring).throw e, out)
    | (.ok true, out) => (srv.setState .ready, out)
    -- an error goes out even after the headers
    | (.ok false, out) => (srv.setState .ready, out ++
        [sendError env .fileNotFound ("File not found or transfer failed: " ++ req.relativePath)])

/-- The end of `handle_zero_copy_upload_request`, after its loop. The outcome of the rename
is not looked at, and neither is the expected hash. -/
def finishUpload : Server × List Sent :=
  let u := srv.session.uploadState
  let done : Server := { srv with uploading := false }
  if u.received = u.totalSize then
    match env.fm.writeFileAtomic srv.fs u.relativePath u.buffer with
    | .error e => (done.throw e, [])
    | .ok (false, fs) =>
      ({ done with fs := fs }.setState .ready,
        [sendError env .error "Failed to save uploaded file"])
    | .ok (true, fs) =>
      match env.fm.atomicRenameTmp fs u.relativePath with
      | .error e => ({ done with fs := fs }.throw e, [])
      | .ok (_, fs) => ({ done with fs := fs }.setState .ready, [])
  else (done.setState .ready, [])

/-- The test of the upload loop: read on, or finish. -/
def uploadLoop : Server × List Sent :=
  if srv.session.uploadState.received < srv.session.uploadState.totalSize then
    ({ srv with uploading := true }, [])
  else finishUpload env srv

/-- `handle_zero_copy_upload_request`, up to its first read. -/
def handleZeroCopyUploadRequest (payload : Bytes) : Server × List Sent :=
  match env.proto.zeroCopyUploadRequest.decode payload with
  | none => (srv, [sendError env .protocolError "Failed to parse ZeroCopyUploadRequest"])
  | some req =>
    let upload : UploadState := {
      relativePath := req.metadata.relativePath
      totalSize := req.metadata.fileSize
      received := 0
      expectedSha256 := req.metadata.sha256Hash
      buffer := [] }
    let accepted : Server := { srv with
      session := { srv.session with uploadState := upload, state := .transferring } }
    -- no resume: the offset is always zero
    let ack := Sent.frame (message env.proto.zeroCopyUploadAck .zeroCopyUploadAck ⟨.ok, "", 0⟩)
    let r := uploadLoop env accepted
    (r.1, ack :: r.2)

/-- The body of the upload loop. Frames other than raw data are dropped. -/
def uploadFrame (frame : WireFrame) : Server × List Sent :=
  if frame.messageType = MSG_RAW_DATA then
    let u := srv.session.uploadState
    let upload : UploadState := { u with
      buffer := u.buffer ++ frame.payload
      received := u.received + UInt64.ofNat frame.payload.length }
    let next : Server := { srv with
      session := { srv.session with uploadState := upload }
      ticks := srv.ticks + 1 }
    let r := uploadLoop env next
    (r.1, sendProgress env upload srv.ticks ++ r.2)
  -- a frame of another type is dropped, and the loop reads on
  else uploadLoop env srv

/-- `handle_delta_sync_signature_request`. -/
def handleDeltaSyncSignatureRequest (payload : Bytes) : Server × List Sent :=
  match env.proto.deltaSyncSignatureRequest.decode payload with
  | none => (srv, [sendError env .protocolError "Failed to parse DeltaSyncSignatureRequest"])
  | some req =>
    let clientSigs : List DeltaBlockSignature := req.signatures.map fun sig =>
      ⟨sig.blockIndex, sig.rollingHash, sig.strongHash, sig.blockOffset, sig.blockSize⟩
    match DeltaSyncHandler.handleSignatureRequest env.sha256 env.fm srv.fs req.relativePath
        req.fileSize req.blockSize clientSigs with
    | .error e => ((srv.setState .negotiating).throw e, [])
    | .ok r => (srv.setState .ready,
        [.frame (message env.proto.deltaSyncBlockRequest .deltaSyncBlockRequest
          ⟨r.relativePath, r.requestedIndices⟩)])

/-- A block is taken for the last one when it is shorter than the negotiated size. -/
def isFinal (data : Bytes) : Bool := data.length < srv.session.negotiatedBlockSize.toNat

/-- `handle_delta_sync_block_data`. -/
def handleDeltaSyncBlockData (payload : Bytes) : Server × List Sent :=
  match env.proto.deltaSyncBlockData.decode payload with
  | none => (srv, [sendError env .protocolError "Failed to parse DeltaSyncBlockData"])
  | some req =>
    let final := srv.isFinal req.data
    let r := srv.session.deltaSyncHandler.handleBlockData env.sha256 env.fm srv.fs
      req.relativePath req.blockIndex req.blockOffset req.data req.strongHash final
    let after : Server := { srv with
      session := { srv.session with deltaSyncHandler := r.handler, state := .transferring }
      fs := r.fs }
    match r.result with
    | .error e => (after.throw e, [])
    | .ok status =>
      -- only a final block and a failure are answered
      if final ∨ status ≠ .ok then
        if status = .ok then
          match env.fm.computeSha256 env.sha256 r.fs req.relativePath with
          | .error e => (after.throw e, [])
          | .ok hash => (after.setState .ready,
              [.frame (message env.proto.deltaSyncComplete .deltaSyncComplete
                ⟨req.relativePath, status, "", hash⟩)])
        else (after.setState .ready,
          [.frame (message env.proto.deltaSyncComplete .deltaSyncComplete
            ⟨req.relativePath, status, "Block write failed", ""⟩)])
      else (after.setState .ready, [])

/-- `handle_list_files_request`. -/
def handleListFilesRequest (payload : Bytes) : Server × List Sent :=
  match env.proto.listFilesRequest.decode payload with
  | none => (srv, [sendError env .protocolError "Failed to parse ListFilesRequest"])
  | some req =>
    match env.fm.listFiles env.sha256 srv.fs req.directoryPrefix req.recursive with
    | .error e => (srv.throw e, [])
    | .ok files => (srv, [.frame (message env.proto.listFilesResponse .listFilesResponse
        ⟨files.map fun fi =>
          ⟨fi.relativePath, fi.fileSize, fi.lastModifiedNs, fi.sha256Hex, .fresh⟩⟩)])

/-- The dispatch of `Session::run`. -/
def dispatch (frame : WireFrame) : Server × List Sent :=
  if frame.messageType = MessageType.clientHello.code then
    handleClientHello env srv frame.payload
  else if frame.messageType = MessageType.negotiationRequest.code then
    handleNegotiationRequest env srv frame.payload
  else if frame.messageType = MessageType.zeroCopyDownloadRequest.code then
    handleZeroCopyDownloadRequest env srv frame.payload
  else if frame.messageType = MessageType.zeroCopyUploadRequest.code then
    handleZeroCopyUploadRequest env srv frame.payload
  else if frame.messageType = MessageType.deltaSyncSignatureRequest.code then
    handleDeltaSyncSignatureRequest env srv frame.payload
  else if frame.messageType = MessageType.deltaSyncBlockData.code then
    handleDeltaSyncBlockData env srv frame.payload
  else if frame.messageType = MessageType.listFilesRequest.code then
    handleListFilesRequest env srv frame.payload
  else (srv, [sendError env .protocolError "Unknown message type"])

/-- **One frame.** What the session does with the next frame it reads, up to its next
read. -/
def step (frame : WireFrame) : Server × List Sent :=
  if srv.uploading then uploadFrame env srv frame else dispatch env srv frame

/-- The client closes the connection. -/
def onEof : Server × List Sent :=
  if srv.uploading then
    -- what has arrived is saved if it happens to be complete
    let r := finishUpload env srv
    (r.1.setState .disconnected, sendError env .error "Connection lost during upload" :: r.2)
  else (srv.setState .disconnected, [])

/-! ### Which handler a message goes to -/

section Dispatch

variable {env srv}

theorem step_of_idle (h : srv.uploading = false) (frame : WireFrame) :
    step env srv frame = dispatch env srv frame := by
  rw [step, h]
  rfl

variable {frame : WireFrame}

theorem dispatch_negotiationRequest (h : frame.messageType = MessageType.negotiationRequest.code) :
    dispatch env srv frame = handleNegotiationRequest env srv frame.payload := by
  simp [dispatch, h, MessageType.code]

theorem dispatch_downloadRequest
    (h : frame.messageType = MessageType.zeroCopyDownloadRequest.code) :
    dispatch env srv frame = handleZeroCopyDownloadRequest env srv frame.payload := by
  simp [dispatch, h, MessageType.code]

theorem dispatch_uploadRequest
    (h : frame.messageType = MessageType.zeroCopyUploadRequest.code) :
    dispatch env srv frame = handleZeroCopyUploadRequest env srv frame.payload := by
  simp [dispatch, h, MessageType.code]

theorem dispatch_rawData (h : frame.messageType = MSG_RAW_DATA) :
    dispatch env srv frame = (srv, [sendError env .protocolError "Unknown message type"]) := by
  simp [dispatch, h, MessageType.code, MSG_RAW_DATA]

theorem dispatch_signatureRequest
    (h : frame.messageType = MessageType.deltaSyncSignatureRequest.code) :
    dispatch env srv frame = handleDeltaSyncSignatureRequest env srv frame.payload := by
  simp [dispatch, h, MessageType.code]

theorem dispatch_blockData (h : frame.messageType = MessageType.deltaSyncBlockData.code) :
    dispatch env srv frame = handleDeltaSyncBlockData env srv frame.payload := by
  simp [dispatch, h, MessageType.code]

end Dispatch

end Server

/-- What the handler makes of a block. -/
def mergeOf (env : Env) (srv : Server) (d : DeltaSyncBlockData) : DeltaSyncHandler.BlockOutcome :=
  srv.session.deltaSyncHandler.handleBlockData env.sha256 env.fm srv.fs d.relativePath
    d.blockIndex d.blockOffset d.data d.strongHash (srv.isFinal d.data)

/-- A session that waits for a request, in a process that is up. -/
structure Idle (srv : Server) : Prop where
  waiting : srv.uploading = false
  up : srv.crash = none

end AdaptiveSync
