import AdaptiveSync.Client.TcpClient

/-!
# Operations one after another

A caller runs operations on one connected client, one after another. An operation that
fails leaves the connection open, so the next one runs on it all the same; what it
returned is dropped here. Between two operations the local disk may change in any way, so
each operation comes with the disk it finds.

`Op.sends` says which frames an operation can put on the connection, whatever it is
answered.
-/

namespace AdaptiveSync

open Fs Duplex

/-- The operations of a connected client. -/
inductive Op where
  | negotiate (relativePath : String)
  | downloadFile (relativePath : String)
  | uploadFile (relativePath : String)
  | deltaSyncUpload (relativePath : String)
  | listServerFiles (namePrefix : String) (recursive : Bool)
  deriving DecidableEq

/-- Run a program for its effects. -/
def discard {α : Type} (p : Prog α) : Prog Unit := p.bind fun _ => .ret ()

section Operations

variable (env : Env) (cl : TcpClient)

/-- Run one operation. -/
def Op.run (fs : FileSystem) : Op → Prog Unit
  | .negotiate p => discard (cl.negotiate env.proto env.sha256 fs p)
  | .downloadFile p => discard (cl.downloadFile env.proto env.sha256 fs p)
  | .uploadFile p => discard (cl.uploadFile env.proto env.sha256 fs p)
  | .deltaSyncUpload p => discard (cl.deltaSyncUpload env.proto env.sha256 fs p)
  | .listServerFiles p recursive => discard (cl.listServerFiles env.proto p recursive)

/-- Run operations one after another, each on the local disk it finds. -/
def runOps : List (Op × FileSystem) → Prog Unit
  | [] => .ret ()
  | (op, fs) :: ops => (op.run env cl fs).bind fun _ => runOps ops

end Operations

/-! ### What is sent -/

section Sends

variable {P : WireFrame → Prop} {α β : Type}

theorem sends_readFrame {k : WireFrame → Fallible α} (hk : ∀ f, (k f).Sends P) :
    (readFrame k).Sends P := by
  intro i
  cases i with
  | none => trivial
  | some f => exact hk f

theorem sends_readExpected {expected : MessageType} {k : WireFrame → Fallible α}
    (hk : ∀ f, (k f).Sends P) : ∀ tries, (readExpected expected k tries).Sends P := by
  intro tries
  induction tries with
  | zero => trivial
  | succ tries ih =>
    refine sends_readFrame fun f => ?_
    split
    · exact hk f
    · exact ih

theorem sends_accept {role : Role} {c : Codec β} {what : String} {k : β → Fallible α}
    (hk : ∀ m, (k m).Sends P) (f : WireFrame) : (accept role c what k f).Sends P := by
  unfold accept
  split
  · trivial
  · exact hk _

theorem sends_onOk {r : Except ClientError β} {k : β → Fallible α}
    (hk : ∀ b, r = .ok b → (k b).Sends P) : (onOk r k).Sends P := by
  cases r with
  | error e => trivial
  | ok b => exact hk b rfl

theorem sends_sendAll {frames : List WireFrame} {k : Fallible α} (hframes : ∀ f ∈ frames, P f)
    (hk : k.Sends P) : (sendAll frames k).Sends P := by
  induction frames with
  | nil => exact hk
  | cons f fs ih =>
    exact ⟨hframes f List.mem_cons_self, ih fun x hx => hframes x (List.mem_cons_of_mem f hx)⟩

end Sends

/-- A frame some operation of the client sends. The block size announced with signatures is
the client's. -/
inductive Request (proto : Proto) (blockSize : UInt32) : WireFrame → Prop
  | negotiation (m : NegotiationRequest) :
      Request proto blockSize (message proto.negotiationRequest .negotiationRequest m)
  | download (m : ZeroCopyDownloadRequest) :
      Request proto blockSize (message proto.zeroCopyDownloadRequest .zeroCopyDownloadRequest m)
  | upload (m : ZeroCopyUploadRequest) :
      Request proto blockSize (message proto.zeroCopyUploadRequest .zeroCopyUploadRequest m)
  | raw (bytes : Bytes) : Request proto blockSize ⟨MSG_RAW_DATA, bytes⟩
  | signatures (m : DeltaSyncSignatureRequest) (h : m.blockSize = blockSize) :
      Request proto blockSize
        (message proto.deltaSyncSignatureRequest .deltaSyncSignatureRequest m)
  | block (m : DeltaSyncBlockData) :
      Request proto blockSize (message proto.deltaSyncBlockData .deltaSyncBlockData m)
  | list (m : ListFilesRequest) :
      Request proto blockSize (message proto.listFilesRequest .listFilesRequest m)

/-- A frame that an operation puts on the connection. Every request for a file is for the file
of the operation. -/
inductive Op.Puts (proto : Proto) (blockSize : UInt32) : Op → WireFrame → Prop
  | negotiation {p : String} (m : NegotiationRequest) (h : m.relativePath = p) :
      Op.Puts proto blockSize (.negotiate p)
        (message proto.negotiationRequest .negotiationRequest m)
  | download {p : String} (m : ZeroCopyDownloadRequest) (h : m.relativePath = p) :
      Op.Puts proto blockSize (.downloadFile p)
        (message proto.zeroCopyDownloadRequest .zeroCopyDownloadRequest m)
  | upload {p : String} (m : ZeroCopyUploadRequest) (h : m.metadata.relativePath = p) :
      Op.Puts proto blockSize (.uploadFile p)
        (message proto.zeroCopyUploadRequest .zeroCopyUploadRequest m)
  | raw {p : String} (bytes : Bytes) :
      Op.Puts proto blockSize (.uploadFile p) ⟨MSG_RAW_DATA, bytes⟩
  | signatures {p : String} (m : DeltaSyncSignatureRequest) (h : m.relativePath = p)
      (hsize : m.blockSize = blockSize) : Op.Puts proto blockSize (.deltaSyncUpload p)
        (message proto.deltaSyncSignatureRequest .deltaSyncSignatureRequest m)
  | block {p : String} (m : DeltaSyncBlockData) (h : m.relativePath = p) :
      Op.Puts proto blockSize (.deltaSyncUpload p)
        (message proto.deltaSyncBlockData .deltaSyncBlockData m)
  | list {p : String} {recursive : Bool} (m : ListFilesRequest) :
      Op.Puts proto blockSize (.listServerFiles p recursive)
        (message proto.listFilesRequest .listFilesRequest m)

theorem Op.Puts.request {proto : Proto} {blockSize : UInt32} {op : Op} {frame : WireFrame}
    (h : op.Puts proto blockSize frame) : Request proto blockSize frame := by
  cases h with
  | negotiation m _ => exact .negotiation m
  | download m _ => exact .download m
  | upload m _ => exact .upload m
  | raw bytes => exact .raw bytes
  | signatures m _ hsize => exact .signatures m hsize
  | block m _ => exact .block m
  | list m => exact .list m

theorem relativePath_of_getFileInfo {ops : FileOps} {sha256 : Bytes → String} {fs : FileSystem}
    {p : String} {info : LocalFileInfo} (h : ops.getFileInfo sha256 fs p = .ok info) :
    info.relativePath = p := by
  obtain ⟨size, -, h⟩ := Except.bind_eq_ok_iff.mp h
  obtain ⟨modified, -, h⟩ := Except.bind_eq_ok_iff.mp h
  obtain ⟨hash, -, h⟩ := Except.bind_eq_ok_iff.mp h
  obtain rfl := Except.ok.inj h
  rfl

theorem relativePath_of_readRequestedBlocks {engine : DeltaSyncEngine} {sha256 : Bytes → String}
    {fs : FileSystem} {p : String} {indices : List UInt32} {blocks : List DeltaSyncBlockData}
    (h : engine.readRequestedBlocks sha256 fs p indices = .ok blocks) :
    ∀ d ∈ blocks, d.relativePath = p := by
  obtain ⟨size, -, h⟩ := Except.bind_eq_ok_iff.mp h
  intro d hd
  obtain ⟨i, -, hi⟩ := (Except.mem_of_mapM_eq_ok h).mp hd
  obtain ⟨data, -, hi⟩ := Except.bind_eq_ok_iff.mp hi
  obtain rfl := Except.ok.inj hi
  rfl

/-- **What an operation sends.** -/
theorem Op.sends_puts (env : Env) (cl : TcpClient) (fs : FileSystem) (op : Op) :
    (op.run env cl fs).Sends (op.Puts env.proto cl.blockSize) := by
  have hdiscard : ∀ {α : Type} {op : Op} {p : Prog α},
      p.Sends (op.Puts env.proto cl.blockSize) →
        (discard p).Sends (op.Puts env.proto cl.blockSize) :=
    fun hp => hp.bind fun _ => trivial
  cases op with
  | negotiate p =>
    refine hdiscard ?_
    unfold TcpClient.negotiate
    split
    · trivial
    · refine ⟨.negotiation _ rfl, sends_readExpected (sends_accept fun _ => ?_) _⟩
      trivial
  | downloadFile p =>
    refine hdiscard ?_
    unfold TcpClient.downloadFile
    split
    · trivial
    refine Proc.Sends.bind ⟨.download _ rfl, sends_readExpected (sends_accept fun _ => ?_) _⟩ ?_
    · refine sends_readFrame fun raw => ?_
      split <;> trivial
    · -- what follows the transfer is local
      intro r
      trivial
  | uploadFile p =>
    refine hdiscard ?_
    unfold TcpClient.uploadFile
    split
    · trivial
    refine sends_onOk fun info hinfo =>
      ⟨.upload _ (relativePath_of_getFileInfo hinfo), sends_readFrame (sends_accept fun ack => ?_)⟩
    split
    · trivial
    · -- the data goes out once the upload was accepted
      exact sends_onOk fun data _ => ⟨.raw _, trivial⟩
  | deltaSyncUpload p =>
    refine hdiscard ?_
    unfold TcpClient.deltaSyncUpload
    split
    · trivial
    -- the request announces the client's own block size, whatever the engine cut with
    refine sends_onOk fun sigs _ => sends_onOk fun size _ => ⟨.signatures _ rfl rfl, ?_⟩
    refine sends_readFrame (sends_accept fun req => sends_onOk fun blocks hblocks => ?_)
    refine sends_sendAll ?_ (sends_readFrame (sends_accept fun complete => ?_))
    · intro f hf
      obtain ⟨d, hd, rfl⟩ := List.mem_map.mp hf
      exact .block d (relativePath_of_readRequestedBlocks hblocks d hd)
    · split <;> trivial
  | listServerFiles p recursive =>
    refine hdiscard ?_
    unfold TcpClient.listServerFiles
    split
    · trivial
    · refine ⟨.list _, sends_readExpected (sends_accept fun _ => ?_) _⟩
      trivial

/-- An operation sends requests only. -/
theorem Op.sends (env : Env) (cl : TcpClient) (fs : FileSystem) (op : Op) :
    (op.run env cl fs).Sends (Request env.proto cl.blockSize) :=
  (op.sends_puts env cl fs).mono fun _ h => h.request

/-- A sequence of operations sends requests only. -/
theorem sends_runOps (env : Env) (cl : TcpClient) (ops : List (Op × FileSystem)) :
    (runOps env cl ops).Sends (Request env.proto cl.blockSize) := by
  induction ops with
  | nil => trivial
  | cons x ops ih => exact (x.1.sends env cl x.2).bind fun _ => ih

end AdaptiveSync
