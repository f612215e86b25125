import AdaptiveSync.Client.DeltaSync
import AdaptiveSync.Lib.Duplex
import AdaptiveSync.Server.Session

/-!
# The client's operations

`TcpClient` (`client/src/tcp_client.rs`): the handshake and the operations a client runs on
its connection, each as a program that sends frames and waits for frames
(`Duplex.Proc`). The session at the other end is the machine `machine`.

Two ways of waiting occur. `read_expected` skips frames of other types, up to a hundred of
them. The other reads take whatever frame comes next and decode it, without looking at its
type. An operation that has decoded a frame as its response records that (`Accepted`).

The client's local disk is an argument. Only a download changes it.
-/

namespace AdaptiveSync

open Fs Duplex

/-- What an operation takes a frame for. -/
inductive Role where
  | serverHello | negotiation | header | rawData | acknowledgement | blockRequest | completion
  | listing
  deriving DecidableEq

/-- A frame accepted as a response. -/
structure Accepted where
  role : Role
  frame : WireFrame
  deriving DecidableEq

/-- A program of the client. -/
abbrev Prog (α : Type) := Proc WireFrame WireFrame Accepted α

/-- A program of the client that may fail. -/
abbrev Fallible (α : Type) := Prog (Except ClientError α)

/-- The session, as the client's peer. -/
def machine (env : Env) : Machine Server WireFrame Sent where
  step := Server.step env
  down srv := srv.crash.isSome

/-- `TcpClient`. `connected` says that it has a stream. -/
structure TcpClient where
  clientId : String
  blockSize : UInt32
  protocolVersion : UInt32
  fileOps : FileOps
  deltaEngine : DeltaSyncEngine
  connected : Bool

/-! ### Reading -/

/-- The error of a read on a connection the server has closed. -/
def closed : ClientError := .connection "Failed to read frame length: early eof"

/-- The error of a call on a client that has no stream. -/
def notConnected : ClientError := .connection "Not connected"

section Reading

variable {α β : Type}

/-- `wire::read_frame`. -/
def readFrame (k : WireFrame → Fallible α) : Fallible α :=
  .recv fun
    | none => .ret (.error closed)
    | some frame => k frame

/-- `read_expected`, with so many tries left. -/
def readExpected (expected : MessageType) (k : WireFrame → Fallible α) : ℕ → Fallible α
  | 0 => .ret (.error (.protocol
      ("Too many unexpected frames while waiting for type " ++ toString expected.code)))
  | tries + 1 => readFrame fun frame =>
    if frame.messageType = expected.code then k frame else readExpected expected k tries

/-- Decode a frame as a response. The text of the decoder at the end of the error is left
out. -/
def accept (role : Role) (c : Codec β) (what : String) (k : β → Fallible α) (frame : WireFrame) :
    Fallible α :=
  match c.decode frame.payload with
  | none => .ret (.error (.protocol ("Failed to parse " ++ what)))
  | some m => .emit ⟨role, frame⟩ (k m)

/-- Go on with the result of a local computation. -/
def onOk (r : Except ClientError β) (k : β → Fallible α) : Fallible α :=
  match r with
  | .error e => .ret (.error e)
  | .ok b => k b

/-- Send frames, first to last. -/
def sendAll (frames : List WireFrame) (k : Fallible α) : Fallible α :=
  frames.foldr .send k

end Reading

namespace TcpClient

/-- `TcpClient::new`. The two `FileOps` share the root and the block size. -/
def new (clientId syncRoot : String) (blockSize : UInt32) : TcpClient where
  clientId := clientId
  blockSize := blockSize
  protocolVersion := 1
  fileOps := ⟨syncRoot, blockSize⟩
  deltaEngine := ⟨⟨syncRoot, blockSize⟩⟩
  connected := false

variable (proto : Proto) (sha256 : Bytes → String) (cl : TcpClient) (fs : FileSystem)

/-! ### Operations -/

/-- `connect`, on a stream that was opened: the client after the handshake. -/
def connect : Fallible TcpClient :=
  .send (message proto.clientHello .clientHello
    ⟨cl.protocolVersion, cl.clientId, [.zeroCopy, .deltaSync], cl.blockSize⟩) <|
  readFrame fun frame =>
    if frame.messageType ≠ MessageType.serverHello.code then
      .ret (.error (.protocol ("Expected ServerHello, got type " ++ toString frame.messageType)))
    else
      accept .serverHello proto.serverHello "ServerHello" (fun hello =>
        -- the two `FileOps` keep the size the client was created with
        let blockSize := if 4096 ≤ hello.blockSize ∧ hello.blockSize ≤ 1048576
          then hello.blockSize else cl.blockSize
        .ret (.ok { cl with blockSize := blockSize, connected := true })) frame

/-- `negotiate`. Local files that cannot be read count as empty. -/
def negotiate (relativePath : String) : Fallible NegotiationResult :=
  if !cl.connected then .ret (.error notConnected)
  else
    let fileSize := (cl.fileOps.fileSize fs relativePath).toOption.getD 0
    let lastModified := (cl.fileOps.lastModifiedNs fs relativePath).toOption.getD 0
    let hash := (cl.fileOps.sha256File sha256 fs relativePath).toOption.getD ""
    .send (message proto.negotiationRequest .negotiationRequest
      ⟨relativePath, fileSize, lastModified, hash⟩) <|
    readExpected .negotiationResponse
      (accept .negotiation proto.negotiationResponse "NegotiationResponse" fun resp =>
        .ret (.ok ⟨resp.fileMode, resp.transferMode, resp.serverFileSize, resp.serverSha256Hash,
          resp.blockSize⟩)) 100

/-- The transfer of `download_file`: the header and the data. -/
def fetch (relativePath : String) : Fallible (ZeroCopyDownloadHeader × Bytes) :=
  .send (message proto.zeroCopyDownloadRequest .zeroCopyDownloadRequest ⟨relativePath, 0⟩) <|
  readExpected .zeroCopyDownloadHeader
    (accept .header proto.zeroCopyDownloadHeader "header" fun header =>
      -- the type of the next frame is looked at, and nothing is skipped
      readFrame fun raw =>
        if raw.messageType ≠ MSG_RAW_DATA then
          .ret (.error (.protocol "Expected raw data frame"))
        else .emit ⟨.rawData, raw⟩ (.ret (.ok (header, raw.payload)))) 100

/-- The end of `download_file`: the file is written before its hash is checked. -/
def keep (relativePath : String) :
    Except ClientError (ZeroCopyDownloadHeader × Bytes) → Except ClientError String × FileSystem
  | .error e => (.error e, fs)
  | .ok (header, data) =>
    match cl.fileOps.writeFile fs relativePath data with
    | (.error e, fs) => (.error e, fs)
    | (.ok (), fs) =>
      match cl.fileOps.sha256File sha256 fs relativePath with
      | .error e => (.error e, fs)
      | .ok localHash =>
        -- a header without a hash is believed
        if header.sha256Hash ≠ "" ∧ localHash ≠ header.sha256Hash then
          (.error (.hashMismatch header.sha256Hash localHash), fs)
        else (.ok localHash, fs)

/-- `download_file`: how it ended, and the local disk after it. -/
def downloadFile (relativePath : String) : Prog (Except ClientError String × FileSystem) :=
  if !cl.connected then .ret (.error notConnected, fs)
  else (fetch proto relativePath).bind fun r => .ret (cl.keep sha256 fs relativePath r)

/-- `upload_file`. -/
def uploadFile (relativePath : String) : Fallible String :=
  if !cl.connected then .ret (.error notConnected)
  else
    onOk (cl.fileOps.getFileInfo sha256 fs relativePath) fun info =>
    .send (message proto.zeroCopyUploadRequest .zeroCopyUploadRequest
      ⟨⟨info.relativePath, info.fileSize, info.lastModifiedNs, info.sha256Hash, .fresh⟩⟩) <|
    readFrame <| accept .acknowledgement proto.zeroCopyUploadAck "upload ack" fun ack =>
      -- the type of the frame is not looked at, only its status
      if ack.status ≠ .ok then .ret (.error (.serverError ack.status ack.errorMessage))
      else
        onOk (FileOps.readAll fs "Cannot read file" "Cannot read file"
          (cl.fileOps.resolvePath relativePath)) fun fileData =>
        -- nothing is read after the data
        .send ⟨MSG_RAW_DATA, fileData⟩ (.ret (.ok info.sha256Hash))

/-- The messages that carry the requested blocks. -/
def blockFrames (blocks : List DeltaSyncBlockData) : List WireFrame :=
  blocks.map (message proto.deltaSyncBlockData .deltaSyncBlockData)

/-- The end of `delta_sync_upload`: wait for the completion status. -/
def awaitCompletion : Fallible String :=
  readFrame <| accept .completion proto.deltaSyncComplete "completion" fun complete =>
    if complete.status ≠ .ok then
      .ret (.error (.serverError complete.status complete.errorMessage))
    else .ret (.ok complete.finalSha256Hash)

/-- `delta_sync_upload`. -/
def deltaSyncUpload (relativePath : String) : Fallible String :=
  if !cl.connected then .ret (.error notConnected)
  else
    onOk (cl.deltaEngine.computeSignatures sha256 fs relativePath) fun signatures =>
    onOk (cl.fileOps.fileSize fs relativePath) fun fileSize =>
    .send (message proto.deltaSyncSignatureRequest .deltaSyncSignatureRequest
      (DeltaSyncEngine.buildSignatureRequest relativePath fileSize cl.blockSize signatures)) <|
    readFrame <| accept .blockRequest proto.deltaSyncBlockRequest "block request" fun blockReq =>
      onOk (cl.deltaEngine.readRequestedBlocks sha256 fs relativePath
        blockReq.requestedBlockIndices) fun blocks =>
      sendAll (blockFrames proto blocks) (awaitCompletion proto)

/-- `list_server_files`. -/
def listServerFiles (namePrefix : String) (recursive : Bool) : Fallible (List FileMetadata) :=
  if !cl.connected then .ret (.error notConnected)
  else
    .send (message proto.listFilesRequest .listFilesRequest ⟨namePrefix, recursive⟩) <|
    readExpected .listFilesResponse
      (accept .listing proto.listFilesResponse "list response" fun resp =>
        .ret (.ok resp.files)) 100

/-- `sync_file`: how it ended, and the local disk after it. -/
def syncFile (relativePath : String) : Prog (Except ClientError String × FileSystem) :=
  (cl.negotiate proto sha256 fs relativePath).bind fun
    | .error e => .ret (.error e, fs)
    | .ok negotiation =>
      if negotiation.fileMode = .unchanged then .ret (.ok negotiation.serverSha256, fs)
      -- a file the server does not have is asked of the server
      else if negotiation.fileMode = .fresh then cl.downloadFile proto sha256 fs relativePath
      else if negotiation.fileMode = .modified then
        if negotiation.transferMode = .deltaSync then
          (cl.deltaSyncUpload proto sha256 fs relativePath).bind fun r => .ret (r, fs)
        else (cl.uploadFile proto sha256 fs relativePath).bind fun r => .ret (r, fs)
      else .ret (.error (.protocol "Unknown file mode"), fs)

end TcpClient

/-! ### Running the reads -/

section Running

variable {M : Machine Server WireFrame Sent} {α β : Type}
  {l : Link Server WireFrame Sent Accepted}

/-- The next frame is there. -/
theorem exec_readFrame {k : WireFrame → Fallible α} {i : Sent} {rest : List Sent} {f : WireFrame}
    (hl : l.toClient = i :: rest) (hi : i.view = some f) :
    exec M Sent.view (readFrame k) l = exec M Sent.view (k f) { l with toClient := rest } :=
  exec_recv hl hi

/-- A frame that decodes is accepted. -/
theorem exec_accept {role : Role} {c : Codec β} {what : String} {k : β → Fallible α}
    {frame : WireFrame} {m : β} (h : c.decode frame.payload = some m) :
    exec M Sent.view (accept role c what k frame) l =
      exec M Sent.view (k m) { l with log := l.log ++ [⟨role, frame⟩] } := by
  rw [accept, h]
  rfl

end Running

end AdaptiveSync
