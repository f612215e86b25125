import AdaptiveSync.Client.Operations
import AdaptiveSync.Lib.Provenance
import AdaptiveSync.Protocol.DeltaRun

/-!
# Every answer belongs to its question

Operations run one after another on one connection. `upload_file` reads nothing after its
acknowledgement, so what the server sends while it receives the data (progress, errors) is
left for the next operation, and so is the rest of an exchange that the client gave up.

`negotiate`, `download_file` and `list_server_files` skip frames of other types, a hundred
at most; `upload_file` and `delta_sync_upload` decode whatever comes next. Which frames an
operation takes for its answer out of those left over is `Op.Takes`, a condition on the
frames that are unread when it starts.

The runs are those of `Duplex.runAll`, in which every operation has a number and every
frame carries the number of the operation whose frame the server was handling when it sent
it. All answers are own, in all interleavings, exactly when no operation takes a frame left
over for it (`answers_belong_iff`). An empty file uploaded twice shows that they need not
be: the server has saved the file before its raw frame arrives, reports that frame as an
unknown message, and the second upload takes the report for its acknowledgement.
-/

namespace AdaptiveSync

open Fs Duplex

/-! ### Which leftovers an operation takes -/

/-- The next unread frame decodes, whatever its type. -/
def NextDecodes {β : Type} (c : Codec β) (unread : List WireFrame) : Prop :=
  ∃ f ∈ unread.head?, (c.decode f.payload).isSome

/-- The first frame of the type among the next hundred unread ones decodes. -/
def ExpectedDecodes {β : Type} (c : Codec β) (type : MessageType) (unread : List WireFrame) :
    Prop :=
  ∃ f ∈ (unread.take 100).find? (fun f => f.messageType = type.code), (c.decode f.payload).isSome

/-- Started with these frames unread, the operation takes one of them for its answer. An
upload gets to its first read only if the local file can be read. -/
def Op.Takes (env : Env) (cl : TcpClient) (fs : FileSystem) (unread : List WireFrame) : Op → Prop
  | .negotiate _ => cl.connected ∧
      ExpectedDecodes env.proto.negotiationResponse .negotiationResponse unread
  | .downloadFile _ => cl.connected ∧
      ExpectedDecodes env.proto.zeroCopyDownloadHeader .zeroCopyDownloadHeader unread
  | .uploadFile p => cl.connected ∧
      (∃ info, cl.fileOps.getFileInfo env.sha256 fs p = .ok info) ∧
      NextDecodes env.proto.zeroCopyUploadAck unread
  | .deltaSyncUpload p => cl.connected ∧
      (∃ sigs, cl.deltaEngine.computeSignatures env.sha256 fs p = .ok sigs) ∧
      (∃ size, cl.fileOps.fileSize fs p = .ok size) ∧
      NextDecodes env.proto.deltaSyncBlockRequest unread
  | .listServerFiles _ _ => cl.connected ∧
      ExpectedDecodes env.proto.listFilesResponse .listFilesResponse unread

section Takes

variable {α β : Type}

theorem takes_accept (role : Role) (c : Codec β) (what : String) (k : β → Fallible α)
    (f : WireFrame) (is : List WireFrame) :
    (accept role c what k f).takes is = (c.decode f.payload).isSome := by
  unfold accept
  cases c.decode f.payload <;> rfl

theorem takes_readFrame_accept (role : Role) (c : Codec β) (what : String) (k : β → Fallible α)
    (is : List WireFrame) :
    (readFrame (accept role c what k)).takes is = true ↔ NextDecodes c is := by
  cases is with
  | nil => simp [readFrame, Proc.takes, NextDecodes]
  | cons f is => simp [readFrame, Proc.takes, NextDecodes, takes_accept]

/-- Skipping frames of other types ends at the first one of the type. -/
theorem takes_readExpected_accept (type : MessageType) (role : Role) (c : Codec β) (what : String)
    (k : β → Fallible α) (tries : ℕ) : ∀ is : List WireFrame,
    (readExpected type (accept role c what k) tries).takes is = true ↔
      ∃ f ∈ (is.take tries).find? (fun f => f.messageType = type.code),
        (c.decode f.payload).isSome := by
  induction tries with
  | zero => simp [readExpected, Proc.takes]
  | succ tries ih =>
    intro is
    cases is with
    | nil => simp [readExpected, readFrame, Proc.takes]
    | cons f is =>
      by_cases hf : f.messageType = type.code
      · -- the first frame of the type decides
        simp [readExpected, readFrame, Proc.takes, hf, takes_accept]
      · simp only [readExpected, readFrame, Proc.takes, if_neg hf, ih, List.take_succ_cons]
        -- another type: one try less
        rw [List.find?_cons_of_neg (by simpa using hf)]

theorem takes_onOk {r : Except ClientError β} {k : β → Fallible α} {is : List WireFrame} :
    (onOk r k).takes is = true ↔ ∃ b, r = .ok b ∧ (k b).takes is = true := by
  cases r with
  | error e => simp [onOk, Proc.takes]
  | ok b => simp [onOk]

end Takes

/-- What an operation takes out of its leftovers, as its program does. -/
theorem Op.takes_iff (env : Env) (cl : TcpClient) (fs : FileSystem) (op : Op)
    (unread : List WireFrame) :
    (op.run env cl fs).takes unread = true ↔ op.Takes env cl fs unread := by
  -- dropping the result takes nothing
  have hdiscard : ∀ {α : Type} (p : Prog α), (discard p).takes unread = p.takes unread :=
    fun p => Proc.takes_bind (fun a => ⟨(), rfl⟩) unread
  cases op with
  | negotiate p =>
    rw [Op.run, hdiscard, TcpClient.negotiate, Op.Takes]
    cases cl.connected with
    | false => simp [Proc.takes]
    | true =>
      simpa [Proc.takes, ExpectedDecodes] using takes_readExpected_accept _ _ _ _ _ 100 unread
  | downloadFile p =>
    rw [Op.run, hdiscard, TcpClient.downloadFile, Op.Takes]
    cases cl.connected with
    | false => simp [Proc.takes]
    | true =>
      simp only [Bool.not_true, Bool.false_eq_true, if_false, true_and]
      rw [Proc.takes_bind]
      · exact takes_readExpected_accept _ _ _ _ _ 100 unread
      · -- what follows the transfer is local
        intro r
        exact ⟨_, rfl⟩
  | uploadFile p =>
    rw [Op.run, hdiscard, TcpClient.uploadFile, Op.Takes]
    cases cl.connected with
    | false => simp [Proc.takes]
    | true =>
      simp only [Bool.not_true, Bool.false_eq_true, if_false, true_and, takes_onOk, Proc.takes,
        takes_readFrame_accept, exists_and_right]
  | deltaSyncUpload p =>
    rw [Op.run, hdiscard, TcpClient.deltaSyncUpload, Op.Takes]
    cases cl.connected with
    | false => simp [Proc.takes]
    | true =>
      simp only [Bool.not_true, Bool.false_eq_true, if_false, true_and, takes_onOk, Proc.takes,
        takes_readFrame_accept, exists_and_right]
  | listServerFiles p recursive =>
    rw [Op.run, hdiscard, TcpClient.listServerFiles, Op.Takes]
    cases cl.connected with
    | false => simp [Proc.takes]
    | true =>
      simpa [Proc.takes, ExpectedDecodes] using takes_readExpected_accept _ _ _ _ _ 100 unread

/-! ### A lost connection ends an operation -/

section Quits

variable {α β : Type}

theorem quits_readFrame {k : WireFrame → Fallible α} (hk : ∀ f, (k f).Quits) :
    (readFrame k).Quits :=
  ⟨⟨_, rfl⟩, hk⟩

theorem quits_readExpected {type : MessageType} {k : WireFrame → Fallible α}
    (hk : ∀ f, (k f).Quits) : ∀ tries, (readExpected type k tries).Quits := by
  intro tries
  induction tries with
  | zero => trivial
  | succ tries ih =>
    refine quits_readFrame fun f => ?_
    split
    · exact hk f
    · exact ih

theorem quits_accept {role : Role} {c : Codec β} {what : String} {k : β → Fallible α}
    (hk : ∀ m, (k m).Quits) (f : WireFrame) : (accept role c what k f).Quits := by
  unfold accept
  split
  · trivial
  · exact hk _

theorem quits_onOk {r : Except ClientError β} {k : β → Fallible α} (hk : ∀ b, (k b).Quits) :
    (onOk r k).Quits := by
  cases r with
  | error e => trivial
  | ok b => exact hk b

theorem quits_sendAll {frames : List WireFrame} {k : Fallible α} (hk : k.Quits) :
    (sendAll frames k).Quits := by
  induction frames with
  | nil => exact hk
  | cons f fs ih => exact ih

end Quits

theorem Op.quits (env : Env) (cl : TcpClient) (fs : FileSystem) (op : Op) :
    (op.run env cl fs).Quits := by
  -- each operation is a call with its result thrown away
  have hdiscard : ∀ {α : Type} {p : Prog α}, p.Quits → (discard p).Quits :=
    fun hp => hp.bind fun a => ⟨(), rfl⟩
  cases op with
  | negotiate p =>
    refine hdiscard ?_
    unfold TcpClient.negotiate
    split
    · trivial
    · refine quits_readExpected (quits_accept fun _ => ?_) _
      trivial
  | downloadFile p =>
    refine hdiscard ?_
    unfold TcpClient.downloadFile
    split
    · trivial
    -- the header, the raw frame behind it, and what is then done on the disk
    refine Proc.Quits.bind (quits_readExpected (quits_accept fun _ => ?_) _) ?_
    · refine quits_readFrame fun raw => ?_
      split <;> trivial
    · intro r
      exact ⟨_, rfl⟩
  | uploadFile p =>
    refine hdiscard ?_
    unfold TcpClient.uploadFile
    split
    · trivial
    refine quits_onOk fun info => quits_readFrame (quits_accept fun ack => ?_)
    split
    · trivial
    · refine quits_onOk fun data => ?_
      trivial
  | deltaSyncUpload p =>
    refine hdiscard ?_
    unfold TcpClient.deltaSyncUpload
    split
    · trivial
    refine quits_onOk fun sigs => quits_onOk fun size => ?_
    refine quits_readFrame (quits_accept fun req => ?_)
    refine quits_onOk fun blocks => ?_
    refine quits_sendAll (quits_readFrame (quits_accept fun complete => ?_))
    split <;> trivial
  | listServerFiles p recursive =>
    refine hdiscard ?_
    unfold TcpClient.listServerFiles
    split
    · trivial
    · refine quits_readExpected (quits_accept fun _ => ?_) _
      trivial

/-! ### Sequences of operations -/

/-- The frames a client can read before it has to wait. -/
def unread (l : Link Server WireFrame Sent Accepted) : List WireFrame :=
  readable Sent.view l.toClient

/-- No operation of the sequence takes a frame that is unread when it starts. The
operations are followed along the schedule in which the server answers at once, so unread
is everything the server sends for the operations before. -/
def OpsUndisturbed (env : Env) (cl : TcpClient) :
    List (Op × FileSystem) → Link Server WireFrame Sent Accepted → Prop
  | [], _ => True
  | (op, fs) :: ops, l => ¬ op.Takes env cl fs (unread l) ∧
      ∀ l', exec (machine env) Sent.view (op.run env cl fs) l = ⟨.ret (), l'⟩ →
        OpsUndisturbed env cl ops l'

/-- In every interleaving of the client and the session, every frame that an operation has
accepted was sent while the session handled a frame of the same operation. -/
def AnswersBelong (env : Env) (cl : TcpClient) (ops : List (Op × FileSystem)) (srv : Server) :
    Prop :=
  ∀ c, Reach (machine env).tagged (taggedView Sent.view)
      ⟨runAll 0 (ops.map fun x => x.1.run env cl x.2), Link.start srv⟩ c →
    ∀ x ∈ c.link.log, x.Own

theorem undisturbed_iff (env : Env) (cl : TcpClient) (ops : List (Op × FileSystem)) :
    ∀ l, Undisturbed (machine env) Sent.view (ops.map fun x => x.1.run env cl x.2) l ↔
      OpsUndisturbed env cl ops l := by
  induction ops with
  | nil =>
    intro l
    exact Iff.rfl
  | cons x ops ih =>
    intro l
    simp only [List.map_cons, Undisturbed, OpsUndisturbed, ih]
    rw [← Op.takes_iff, Bool.not_eq_true]
    rfl

theorem answersBelong_iff_undisturbed (env : Env) (cl : TcpClient) (ops : List (Op × FileSystem))
    (srv : Server) :
    AnswersBelong env cl ops srv ↔
      Undisturbed (machine env) Sent.view (ops.map fun x => x.1.run env cl x.2)
        (Link.start srv) := by
  have hquits : ∀ p ∈ ops.map (fun x => x.1.run env cl x.2), p.Quits := by
    intro p hp
    obtain ⟨x, -, rfl⟩ := List.mem_map.mp hp
    exact x.1.quits env cl x.2
  exact own_iff_undisturbed hquits srv

/-- **Every answer belongs to its question** exactly when no operation takes a frame that
an earlier one has left over. -/
theorem answers_belong_iff (env : Env) (cl : TcpClient) (ops : List (Op × FileSystem))
    (srv : Server) :
    AnswersBelong env cl ops srv ↔ OpsUndisturbed env cl ops (Link.start srv) :=
  (answersBelong_iff_undisturbed env cl ops srv).trans (undisturbed_iff env cl ops _)

/-! ### An empty file -/

section Empty

variable {env : Env} {cl : TcpClient} {fsC : FileSystem} {srv : Server} {p : String}
  {t : LexPath.Text}

/-- The report of a raw frame that came outside an upload. -/
def strayRaw (env : Env) : WireFrame :=
  message env.proto.errorPayload .error ⟨.protocolError, "Unknown message type", ""⟩

/-- An upload of an empty file is acknowledged and saved at once. -/
theorem step_uploadEmpty (hidle : srv.uploading = false) (hready : env.fm.Ready srv.fs p t)
    (mtime : UInt64) (hash : String) :
    ∃ srv', Server.step env srv (message env.proto.zeroCopyUploadRequest .zeroCopyUploadRequest
        ⟨⟨p, 0, mtime, hash, .fresh⟩⟩) =
      (srv', [.frame (message env.proto.zeroCopyUploadAck .zeroCopyUploadAck ⟨.ok, "", 0⟩)]) ∧
      srv'.uploading = false ∧ srv'.crash = srv.crash := by
  -- the loop ends before its first read, so the file is saved at once
  have hsaved := hready.writeFileAtomic (show ([] : Bytes).length < maxOffset by decide)
  have hwritten : env.fm.Ready (srv.fs.set (srv.fs.locate (cTmp t)) (.file [])) p t :=
    hready.set (Or.inr rfl)
  have hrenamed := hwritten.atomicRenameTmp (FileSystem.node_set_self hready.tmp_not_dir)
  rw [Server.step_of_idle hidle, Server.dispatch_uploadRequest rfl,
    Server.handleZeroCopyUploadRequest]
  simp only [message, Codec.decode_encode, Server.uploadLoop, Server.finishUpload, if_true,
    hsaved, hrenamed]
  exact ⟨_, rfl, rfl, rfl⟩

/-- **What an empty upload leaves behind**: the report of its raw frame. -/
theorem exec_uploadEmpty (hconnected : cl.connected = true)
    (hlocal : cl.fileOps.Readable fsC p []) (hidle : srv.uploading = false)
    (hup : srv.crash = none) (hready : env.fm.Ready srv.fs p t) :
    ∃ l', exec (machine env) Sent.view (Op.run env cl fsC (.uploadFile p)) (Link.start srv) =
        ⟨.ret (), l'⟩ ∧ unread l' = [strayRaw env] := by
  obtain ⟨srv', hstep, hidle', hup'⟩ := step_uploadEmpty hidle hready
    (fsC.os.mtime (fsC.locate (cl.fileOps.resolvePath p))) (env.sha256 [])
  -- the raw frame then arrives outside the upload
  have hraw : Server.step env srv' ⟨MSG_RAW_DATA, []⟩ = (srv', [.frame (strayRaw env)]) := by
    rw [Server.step_of_idle hidle', Server.dispatch_rawData rfl]
    rfl
  have hdown : (machine env).down srv = false := by simp [machine, hup]
  have hdown' : (machine env).down srv' = false := by simp [machine, hup', hup]
  let request := message env.proto.zeroCopyUploadRequest .zeroCopyUploadRequest
    ⟨⟨p, 0, fsC.os.mtime (fsC.locate (cl.fileOps.resolvePath p)), env.sha256 [], .fresh⟩⟩
  let ack := message env.proto.zeroCopyUploadAck .zeroCopyUploadAck ⟨.ok, "", 0⟩
  have hfirst : (Link.start srv : Link Server WireFrame Sent Accepted).deliver (machine env)
        request =
      ⟨[], [.frame ack], srv', [request], [.frame ack], []⟩ := by
    rw [Link.deliver_of_up hdown]
    simp only [machine, Link.start, request, hstep, List.nil_append, ack]
  have hsecond : (⟨[], [], srv', [request], [.frame ack], [⟨.acknowledgement, ack⟩]⟩ :
      Link Server WireFrame Sent Accepted).deliver (machine env) ⟨MSG_RAW_DATA, []⟩ =
      ⟨[], [.frame (strayRaw env)], srv', [request, ⟨MSG_RAW_DATA, []⟩],
        [.frame ack, .frame (strayRaw env)], [⟨.acknowledgement, ack⟩]⟩ := by
    rw [Link.deliver_of_up hdown']
    simp only [machine, hraw, List.nil_append, List.cons_append]
  let l : Link Server WireFrame Sent Accepted := ⟨[], [.frame (strayRaw env)], srv',
    [request, ⟨MSG_RAW_DATA, []⟩], [.frame ack, .frame (strayRaw env)], [⟨.acknowledgement, ack⟩]⟩
  have hupload : exec (machine env) Sent.view (cl.uploadFile env.proto env.sha256 fsC p)
      (Link.start srv) = ⟨.ret (.ok (env.sha256 [])), l⟩ := by
    simp only [TcpClient.uploadFile, hconnected, Bool.not_true, Bool.false_eq_true, if_false,
      hlocal.getFileInfo, onOk, exec]
    change exec _ _ _ (Link.deliver _ _ request) = _
    rw [hfirst, exec_readFrame rfl rfl, exec_accept (Codec.decode_encode _ _)]
    simp only [ne_eq, not_true_eq_false, if_false, hlocal.readAll, exec, List.nil_append]
    rw [hsecond]
  refine ⟨l, ?_, rfl⟩
  rw [Op.run, discard, exec_bind, hupload]
  rfl

end Empty

/-- An empty file uploaded twice: the second upload takes the report of the first one's raw
frame for its acknowledgement. -/
theorem not_answersBelong_empty_twice :
    ¬ AnswersBelong storageEnv (sampleClient 4096)
      [(.uploadFile "f", FileSystem.single ['c'] ['f'] (some [])),
        (.uploadFile "f", FileSystem.single ['c'] ['f'] (some []))]
      (Server.new 4096 (FileSystem.single ['s'] ['f'] none)) := by
  intro h
  have hlocal : (sampleClient 4096).fileOps.Readable
      (FileSystem.single ['c'] ['f'] (some [])) "f" [] := readable_single 4096 (by decide)
  have hund := (undisturbed_iff _ _ _ _).mp ((answersBelong_iff_undisturbed _ _ _ _).mp h)
  obtain ⟨l, hexec, hunread⟩ := @exec_uploadEmpty storageEnv (sampleClient 4096) _
    (Server.new 4096 (FileSystem.single ['s'] ['f'] none)) _ _ rfl hlocal rfl rfl ready_single_none
  -- the report parses as an acknowledgement: its two fields have the numbers and types of one
  refine (hund.2 l hexec).1 ⟨rfl, ⟨_, hlocal.getFileInfo _⟩, strayRaw storageEnv, ?_, ?_⟩
  · rw [hunread]
    rfl
  · decide +kernel

end AdaptiveSync
