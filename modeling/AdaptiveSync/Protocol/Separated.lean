import Mathlib.Data.List.Chain
import AdaptiveSync.Protocol.Answers

/-!
# Operations kept apart

`upload_file` and `delta_sync_upload` decode whatever frame comes next, so they need a
connection on which nothing is left unread. `negotiate`, `download_file` and
`list_server_files` skip what is left, and leave nothing themselves when they return
(`toClient_of_drains`). So when each of the former directly follows one of the latter
(`Separated`), every answer belongs to its question, whatever the files, the store and the
clock are (`answers_belong_of_separated`).

What is skipped is a hundred frames at most. An upload leaves a few, but a delta sync one for
each block that could not be written, of which there can be more.
-/

namespace AdaptiveSync

open Fs Duplex

/-! ### What the server answers -/

/-- The types of answers that an operation skips other frames for. -/
def MessageType.Awaited (type : MessageType) : Prop :=
  type = .negotiationResponse ∨ type = .zeroCopyDownloadHeader ∨ type = .listFilesResponse

/-- The types of the requests for them. -/
def MessageType.Asks (type : MessageType) : Prop :=
  type = .negotiationRequest ∨ type = .zeroCopyDownloadRequest ∨ type = .listFilesRequest

/-- The frame is a request for an answer of such a type. -/
def WireFrame.Asks (frame : WireFrame) : Prop :=
  ∃ type : MessageType, type.Asks ∧ frame.messageType = type.code

/-- A frame of another type. -/
def Sent.Stray (i : Sent) : Prop :=
  ∃ frame, i = .frame frame ∧ ∀ type : MessageType, type.Awaited → frame.messageType ≠ type.code

section Server

variable {env : Env} {srv : Server}

/-- No two types are sent as one byte. -/
theorem MessageType.code_injective : Function.Injective MessageType.code := by
  intro a b h
  cases a <;> cases b <;> first | rfl | exact absurd h (by decide)

theorem stray_message {α : Type} (c : Codec α) {type : MessageType} (m : α)
    (h : ¬ type.Awaited) : (Sent.frame (message c type m)).Stray := by
  refine ⟨_, rfl, fun type' hawaited hcode => h ?_⟩
  rwa [MessageType.code_injective hcode]

theorem stray_sendError (code : StatusCode) (text : String) :
    (Server.sendError env code text).Stray :=
  stray_message _ _ (by simp [MessageType.Awaited])

theorem stray_finishUpload : ∀ i ∈ (Server.finishUpload env srv).2, i.Stray := by
  unfold Server.finishUpload
  dsimp only
  repeat' split
  all_goals simp [stray_sendError]

theorem stray_uploadLoop : ∀ i ∈ (Server.uploadLoop env srv).2, i.Stray := by
  unfold Server.uploadLoop
  split
  · simp
  · exact stray_finishUpload

theorem stray_sendProgress (u : UploadState) (n : ℕ) :
    ∀ i ∈ Server.sendProgress env u n, i.Stray := by
  unfold Server.sendProgress
  split
  · simp
  · intro i hi
    rw [List.mem_singleton.mp hi]
    exact stray_message _ _ (by simp [MessageType.Awaited])

theorem stray_uploadFrame (frame : WireFrame) :
    ∀ i ∈ (Server.uploadFrame env srv frame).2, i.Stray := by
  unfold Server.uploadFrame
  split
  · intro i hi
    exact (List.mem_append.mp hi).elim (stray_sendProgress _ _ i) (stray_uploadLoop i)
  · exact stray_uploadLoop

/-- **Only a request for it is answered by what an operation waits for.** -/
theorem stray_step {frame : WireFrame} (h : srv.uploading = true ∨ ¬ frame.Asks) :
    ∀ i ∈ (Server.step env srv frame).2, i.Stray := by
  unfold Server.step
  split
  · exact stray_uploadFrame frame
  next hidle =>
  have hasks := h.resolve_left hidle
  unfold Server.dispatch
  split
  · -- the hello
    unfold Server.handleClientHello
    split
    · simp [stray_sendError]
    · simpa using stray_message _ _ (by simp [MessageType.Awaited])
  split
  · next htype => exact absurd ⟨_, .inl rfl, htype⟩ hasks
  split
  · next htype => exact absurd ⟨_, .inr (.inl rfl), htype⟩ hasks
  split
  · -- the request of an upload
    unfold Server.handleZeroCopyUploadRequest
    split
    · simp [stray_sendError]
    · intro i hi
      obtain rfl | hi := List.mem_cons.mp hi
      · exact stray_message _ _ (by simp [MessageType.Awaited])
      · exact stray_uploadLoop i hi
  split
  · -- signatures
    unfold Server.handleDeltaSyncSignatureRequest
    split
    · simp [stray_sendError]
    · dsimp only
      split
      · simp
      · simpa using stray_message _ _ (by simp [MessageType.Awaited])
  split
  · -- a block
    unfold Server.handleDeltaSyncBlockData
    split
    · simp [stray_sendError]
    · have hcomplete : ∀ m : DeltaSyncComplete,
          (Sent.frame (message env.proto.deltaSyncComplete .deltaSyncComplete m)).Stray :=
        fun m => stray_message _ m (by simp [MessageType.Awaited])
      dsimp only
      repeat' split
      all_goals simp [hcomplete]
  split
  · next htype => exact absurd ⟨_, .inr (.inr rfl), htype⟩ hasks
  · simp [stray_sendError]

theorem length_finishUpload_le : (Server.finishUpload env srv).2.length ≤ 1 := by
  unfold Server.finishUpload
  dsimp only
  repeat' split
  all_goals simp

theorem length_uploadLoop_le : (Server.uploadLoop env srv).2.length ≤ 1 := by
  unfold Server.uploadLoop
  split
  · simp
  · exact length_finishUpload_le

theorem length_uploadFrame_le (frame : WireFrame) :
    (Server.uploadFrame env srv frame).2.length ≤ 2 := by
  have hprogress : ∀ u n, (Server.sendProgress env u n).length ≤ 1 := by
    intro u n
    unfold Server.sendProgress
    split <;> simp
  unfold Server.uploadFrame
  split
  · rw [List.length_append]
    exact Nat.add_le_add (hprogress _ _) length_uploadLoop_le
  · exact length_uploadLoop_le.trans (Nat.le_succ 1)

theorem length_sendFile_le (fs : FileSystem) (path : String) (offset : UInt64) :
    (sendFile env fs path offset).2.length ≤ 2 := by
  unfold sendFile
  dsimp only
  repeat' split
  all_goals simp

/-- A frame has three answers at most. -/
theorem length_step_le (frame : WireFrame) : (Server.step env srv frame).2.length ≤ 3 := by
  unfold Server.step
  split
  · exact (length_uploadFrame_le frame).trans (Nat.le_succ 2)
  unfold Server.dispatch
  split
  · unfold Server.handleClientHello
    split <;> simp
  split
  · unfold Server.handleNegotiationRequest
    split
    · simp
    · split <;> simp
  split
  · unfold Server.handleZeroCopyDownloadRequest
    split
    · simp
    · next req _ =>
      -- a header, the data, and an error if the data break off
      have hsend := @length_sendFile_le env srv.fs req.relativePath req.offset
      split <;> next h => rw [h] at hsend; simp at hsend ⊢; omega
  split
  · unfold Server.handleZeroCopyUploadRequest
    split
    · simp
    · exact Nat.succ_le_succ (length_uploadLoop_le.trans (Nat.le_succ 1))
  split
  · unfold Server.handleDeltaSyncSignatureRequest
    split
    · simp
    · dsimp only
      split <;> simp
  split
  · unfold Server.handleDeltaSyncBlockData
    split
    · simp
    · dsimp only
      repeat' split
      all_goals simp
  split
  · unfold Server.handleListFilesRequest
    split
    · simp
    · split <;> simp
  · simp

end Server

/-! ### What an operation leaves -/

/-- The operation skips the frames that are left. -/
def Op.Drains : Op → Prop
  | .negotiate _ => True
  | .downloadFile _ => True
  | .listServerFiles _ _ => True
  | _ => False

instance : DecidablePred Op.Drains := fun op => by
  cases op <;> unfold Op.Drains <;> infer_instance

section Client

variable {env : Env} {cl : TcpClient} {fs : FileSystem} {op : Op} {α : Type}
  {M : Machine Server WireFrame Sent} {l l' : Link Server WireFrame Sent Accepted}

/-- The others send no such request. -/
theorem Op.sends_of_not_drains (h : ¬ op.Drains) :
    (op.run env cl fs).Sends fun frame => ¬ frame.Asks := by
  have hmessage : ∀ {β : Type} (c : Codec β) (type : MessageType) (m : β), ¬ type.Asks →
      ¬ (message c type m).Asks := by
    rintro β c type m htype ⟨type', hasks, hcode⟩
    rw [← MessageType.code_injective hcode] at hasks
    exact htype hasks
  refine (op.sends_puts env cl fs).mono fun frame hputs => ?_
  cases hputs with
  | negotiation => exact absurd trivial h
  | download => exact absurd trivial h
  | list => exact absurd trivial h
  | upload => exact hmessage _ _ _ (by simp [MessageType.Asks])
  | signatures => exact hmessage _ _ _ (by simp [MessageType.Asks])
  | block => exact hmessage _ _ _ (by simp [MessageType.Asks])
  | raw bytes =>
    rintro ⟨type, hasks, hcode⟩
    obtain rfl | rfl | rfl := hasks <;> simp [MSG_RAW_DATA, MessageType.code] at hcode

/-- What they leave is not waited for by any other. -/
theorem stray_of_not_drains (h : ¬ op.Drains) (hl : ∀ i ∈ l.toClient, i.Stray) :
    ∀ i ∈ (exec (machine env) Sent.view (op.run env cl fs) l).link.toClient, i.Stray :=
  forall_toClient_exec (fun _ _ hasks => stray_step (.inr hasks)) _ (op.sends_of_not_drains h) hl

section AtMost

variable {n : ℕ} {β : Type}

theorem sendsAtMost_discard {p : Prog α} (hp : p.SendsAtMost n) : (discard p).SendsAtMost n := by
  induction p generalizing n with
  | ret a => trivial
  | send o k ih =>
    cases n with
    | zero => exact absurd hp id
    | succ n => exact ih hp
  | emit e k ih => exact ih hp
  | recv k ih => exact fun i => ih i (hp i)

theorem sendsAtMost_readFrame {k : WireFrame → Fallible α} (hk : ∀ f, (k f).SendsAtMost n) :
    (readFrame k).SendsAtMost n := by
  intro i
  cases i with
  | none => trivial
  | some f => exact hk f

theorem sendsAtMost_accept {role : Role} {c : Codec β} {what : String} {k : β → Fallible α}
    (hk : ∀ m, (k m).SendsAtMost n) (f : WireFrame) : (accept role c what k f).SendsAtMost n := by
  unfold accept
  split
  · trivial
  · exact hk _

theorem sendsAtMost_onOk {r : Except ClientError β} {k : β → Fallible α}
    (hk : ∀ b, (k b).SendsAtMost n) : (onOk r k).SendsAtMost n := by
  cases r with
  | error e => trivial
  | ok b => exact hk b

end AtMost

/-- An upload sends two frames. -/
theorem sendsAtMost_uploadFile (p : String) :
    (Op.run env cl fs (.uploadFile p)).SendsAtMost 2 := by
  refine sendsAtMost_discard ?_
  unfold TcpClient.uploadFile
  split
  · trivial
  refine sendsAtMost_onOk fun info => ?_
  refine @sendsAtMost_readFrame String 1 _ (sendsAtMost_accept fun ack => ?_)
  split
  · trivial
  · exact sendsAtMost_onOk fun data => trivial

/-- So it leaves few. -/
theorem length_toClient_uploadFile (p : String) (hl : l.toClient = []) :
    (exec (machine env) Sent.view (Op.run env cl fs (.uploadFile p)) l).link.toClient.length <
      100 := by
  have hle :
      (exec (machine env) Sent.view (Op.run env cl fs (.uploadFile p)) l).link.toClient.length ≤
        l.toClient.length + 2 * 3 :=
    length_toClient_exec (fun _ frame => length_step_le frame) _ (sendsAtMost_uploadFile p)
  rw [hl] at hle
  exact lt_of_le_of_lt hle (by decide)

end Client

/-! ### Waiting for an answer -/

section Waiting

variable {M : Machine Server WireFrame Sent} {l l' : Link Server WireFrame Sent Accepted}
  {α : Type} {type : MessageType} {k : WireFrame → Fallible α} {r : Except ClientError α}

/-- The frames that are left are skipped. -/
theorem exec_readExpected_stray (htype : type.Awaited) {is : List Sent} (us : List Sent) :
    ∀ {tries : ℕ} {l : Link Server WireFrame Sent Accepted}, (∀ i ∈ us, i.Stray) →
      l.toClient = us ++ is →
      exec M Sent.view (readExpected type k (tries + us.length)) l =
        exec M Sent.view (readExpected type k tries) { l with toClient := is } := by
  induction us with
  | nil =>
    rintro tries l - hl
    obtain rfl : l.toClient = is := hl
    rfl
  | cons i us ih =>
    intro tries l hus hl
    obtain ⟨frame, rfl, hframe⟩ := hus i List.mem_cons_self
    have hnext : l.toClient = .frame frame :: (us ++ is) := hl
    have hskip : exec M Sent.view (readExpected type k (tries + us.length + 1)) l =
        exec M Sent.view (readExpected type k (tries + us.length))
          { l with toClient := us ++ is } := by
      rw [readExpected, exec_readFrame hnext rfl, if_neg (hframe type htype)]
    rw [List.length_cons, ← Nat.add_assoc, hskip]
    exact ih (fun i hi => hus i (List.mem_cons_of_mem _ hi)) rfl

/-- A wait that ends with no answer has read all there is. -/
theorem toClient_of_stray (htype : type.Awaited) {tries : ℕ} (hl : ∀ i ∈ l.toClient, i.Stray)
    (hlen : l.toClient.length ≤ tries)
    (h : exec M Sent.view (readExpected type k tries) l = ⟨.ret r, l'⟩) : l'.toClient = [] := by
  obtain ⟨n, rfl⟩ := Nat.exists_eq_add_of_le' hlen
  rw [exec_readExpected_stray htype l.toClient hl (List.append_nil _).symm] at h
  cases n with
  | zero =>
    rw [← congrArg (fun c => c.link.toClient) h]
    rfl
  | succ n =>
    simp only [readExpected, readFrame, exec, List.head?_nil, Option.bind_none] at h
    split at h
    · rw [← congrArg (fun c => c.link.toClient) h]
    · exact absurd (congrArg Config.client h) (by simp)

/-- A wait comes to its answer. -/
theorem exec_readExpected_answer (htype : type.Awaited) {tries : ℕ} {us is : List Sent}
    {frame : WireFrame} (hus : ∀ i ∈ us, i.Stray) (hlen : us.length < tries)
    (hl : l.toClient = us ++ .frame frame :: is) (hframe : frame.messageType = type.code) :
    exec M Sent.view (readExpected type k tries) l =
      exec M Sent.view (k frame) { l with toClient := is } := by
  obtain ⟨n, rfl⟩ := Nat.exists_eq_add_of_le' (Nat.succ_le_of_lt hlen)
  rw [Nat.add_succ, ← Nat.succ_add, exec_readExpected_stray htype us hus hl, readExpected,
    exec_readFrame rfl rfl, if_pos hframe]

end Waiting

/-! ### The operations that skip -/

section Replies

variable {env : Env} {srv : Server}

theorem reply_of_uploading (hup : srv.uploading = true) {frame : WireFrame}
    (hraw : frame.messageType ≠ MSG_RAW_DATA) :
    (∀ i ∈ (Server.step env srv frame).2, i.Stray) ∧
      (Server.step env srv frame).2.length ≤ 1 := by
  refine ⟨stray_step (.inl hup), ?_⟩
  rw [Server.step, if_pos hup, Server.uploadFrame, if_neg hraw]
  exact length_uploadLoop_le

theorem reply_negotiation (hidle : srv.uploading = false) (m : NegotiationRequest) :
    (Server.step env srv (message env.proto.negotiationRequest .negotiationRequest m)).2 = [] ∨
      ∃ r, (Server.step env srv (message env.proto.negotiationRequest .negotiationRequest m)).2 =
        [.frame (message env.proto.negotiationResponse .negotiationResponse r)] := by
  rw [Server.step_of_idle hidle, Server.dispatch_negotiationRequest rfl,
    Server.handleNegotiationRequest]
  simp only [message, Codec.decode_encode]
  split
  · exact .inl rfl
  · exact .inr ⟨_, rfl⟩

theorem reply_listing (hidle : srv.uploading = false) (m : ListFilesRequest) :
    (Server.step env srv (message env.proto.listFilesRequest .listFilesRequest m)).2 = [] ∨
      ∃ r, (Server.step env srv (message env.proto.listFilesRequest .listFilesRequest m)).2 =
        [.frame (message env.proto.listFilesResponse .listFilesResponse r)] := by
  have hdispatch : Server.dispatch env srv (message env.proto.listFilesRequest .listFilesRequest m)
      = Server.handleListFilesRequest env srv (env.proto.listFilesRequest.encode m) := by
    simp [Server.dispatch, message, MessageType.code]
  rw [Server.step_of_idle hidle, hdispatch, Server.handleListFilesRequest]
  simp only [Codec.decode_encode]
  split
  · exact .inl rfl
  · exact .inr ⟨_, rfl⟩

/-- After the header of a download come its data and nothing else, or less than the data. -/
theorem sendFile_data (fs : FileSystem) (path : String) (offset : UInt64) :
    (sendFile env fs path offset).2 = [] ∧ (sendFile env fs path offset).1 ≠ .ok true ∨
      ∃ header n bytes, (sendFile env fs path offset).2 =
          [.frame (message env.proto.zeroCopyDownloadHeader .zeroCopyDownloadHeader header),
            .raw n bytes] ∧
        ((sendFile env fs path offset).1 = .ok true ∨
          (sendFile env fs path offset).1 = .ok false ∧ bytes.length ≠ n) := by
  unfold sendFile
  dsimp only
  split
  · exact .inl ⟨rfl, by simp⟩
  · exact .inl ⟨rfl, by simp⟩
  next fullPath totalSize _ =>
  split
  · exact .inl ⟨rfl, by simp⟩
  split
  · exact .inl ⟨rfl, by simp⟩
  next hoffset =>
  -- something is announced
  have hpos : ([] : Bytes).length ≠ (totalSize - offset).toNat := by
    have hlt : offset < totalSize := UInt64.not_le.mp hoffset
    rw [UInt64.toNat_sub_of_le _ _ (UInt64.le_of_lt hlt)]
    have hlt := UInt64.lt_iff_toNat_lt.mp hlt
    simp only [List.length_nil]
    omega
  split
  · exact .inl ⟨rfl, by simp⟩
  refine .inr ?_
  split
  · split
    · exact ⟨_, _, _, rfl, .inr ⟨rfl, hpos⟩⟩
    · exact ⟨_, _, _, rfl, .inl rfl⟩
  · exact ⟨_, _, _, rfl, .inr ⟨rfl, hpos⟩⟩

theorem reply_download (hidle : srv.uploading = false) (m : ZeroCopyDownloadRequest) :
    ((∀ i ∈ (Server.step env srv
          (message env.proto.zeroCopyDownloadRequest .zeroCopyDownloadRequest m)).2, i.Stray) ∧
        (Server.step env srv
          (message env.proto.zeroCopyDownloadRequest .zeroCopyDownloadRequest m)).2.length ≤ 1) ∨
      ∃ header n bytes rest, (Server.step env srv
          (message env.proto.zeroCopyDownloadRequest .zeroCopyDownloadRequest m)).2 =
          .frame (message env.proto.zeroCopyDownloadHeader .zeroCopyDownloadHeader header) ::
            .raw n bytes :: rest ∧ (bytes.length = n → rest = []) ∧
        (Server.step env srv
          (message env.proto.zeroCopyDownloadRequest .zeroCopyDownloadRequest m)).1.crash =
            srv.crash := by
  rw [Server.step_of_idle hidle, Server.dispatch_downloadRequest rfl,
    Server.handleZeroCopyDownloadRequest]
  simp only [message, Codec.decode_encode]
  obtain ⟨hnone, hres⟩ | ⟨header, n, bytes, hsent, hres⟩ :=
    @sendFile_data env srv.fs m.relativePath m.offset
  · refine .inl ?_
    split
    · next h => simp [h] at hnone; simp [hnone]
    · next h => exact absurd (by rw [h]) hres
    · next h => simp [h] at hnone; simp [hnone, stray_sendError]
  · refine .inr ⟨header, n, bytes, ?_⟩
    split
    · next h => simp [h] at hres
    · next h =>
      rw [h] at hsent
      exact ⟨[], hsent, fun _ => rfl, rfl⟩
    · next h =>
      rw [h] at hsent hres
      obtain rfl : _ = _ := hsent
      refine ⟨_, rfl, fun hlen => ?_, rfl⟩
      exact absurd hlen (by simpa using hres)

end Replies

section Drains

variable {env : Env} {cl : TcpClient} {fs : FileSystem} {op : Op}
  {l l' : Link Server WireFrame Sent Accepted} {α : Type}

/-- A request and the wait for its answer, when what comes after the answer leaves nothing. -/
theorem toClient_of_asked {type : MessageType} (htype : type.Awaited) {request : WireFrame}
    {k : WireFrame → Fallible α} {r : Except ClientError α} (hl : ∀ i ∈ l.toClient, i.Stray)
    (hroomy : l.toClient.length < 100)
    (hreply : (machine env).down l.server = false →
      ((∀ i ∈ (Server.step env l.server request).2, i.Stray) ∧
        (Server.step env l.server request).2.length ≤ 1) ∨
      ∃ frame rest, (Server.step env l.server request).2 = .frame frame :: rest ∧
        frame.messageType = type.code ∧ ∀ l₀ : Link Server WireFrame Sent Accepted,
          l₀.toClient = rest → l₀.server = (Server.step env l.server request).1 →
          exec (machine env) Sent.view (k frame) l₀ = ⟨.ret r, l'⟩ → l'.toClient = [])
    (h : exec (machine env) Sent.view (.send request (readExpected type k 100)) l =
      ⟨.ret r, l'⟩) : l'.toClient = [] := by
  rw [exec] at h
  -- a server that is down answers nothing, so only what was there can be read
  cases hdown : (machine env).down l.server with
  | true =>
    have hdeliver : (l.deliver (machine env) request).toClient = l.toClient := by
      rw [Link.deliver, hdown]
      rfl
    exact toClient_of_stray htype (hdeliver ▸ hl) (hdeliver ▸ hroomy.le) h
  | false =>
    have hdeliver : (l.deliver (machine env) request).toClient =
        l.toClient ++ (Server.step env l.server request).2 := by
      rw [Link.deliver_of_up hdown]
      rfl
    obtain ⟨hstray, hlen⟩ | ⟨frame, rest, hrest, hframe, hk⟩ := hreply hdown
    · refine toClient_of_stray htype (fun i hi => ?_) ?_ h
      · rw [hdeliver] at hi
        exact (List.mem_append.mp hi).elim (hl i) (hstray i)
      · rw [hdeliver, List.length_append]
        omega
    · rw [hrest] at hdeliver
      rw [exec_readExpected_answer htype hl hroomy hdeliver hframe] at h
      refine hk _ rfl ?_ h
      rw [Link.deliver_of_up hdown]
      rfl

/-- What decodes a frame and returns leaves what is there. -/
theorem toClient_of_accept {β : Type} {role : Role} {c : Codec β} {what : String}
    {f : β → Except ClientError α} {frame : WireFrame} {M : Machine Server WireFrame Sent}
    {r : Except ClientError α}
    (h : exec M Sent.view (accept role c what (fun m => .ret (f m)) frame) l = ⟨.ret r, l'⟩) :
    l'.toClient = l.toClient := by
  unfold accept at h
  split at h <;> exact congrArg (fun c => c.link.toClient) h.symm

/-- A read of raw data that are not followed by anything, or of which the rest never comes. -/
theorem toClient_of_rawData {M : Machine Server WireFrame Sent} {k : WireFrame → Fallible α}
    {r : Except ClientError α} {n : ℕ} {bytes : Bytes} {rest : List Sent}
    (hl : l.toClient = .raw n bytes :: rest) (hrest : bytes.length = n → rest = [])
    (hup : M.down l.server = false)
    (hk : ∀ frame l₀, exec M Sent.view (k frame) l₀ = ⟨.ret r, l'⟩ → l'.toClient = l₀.toClient)
    (h : exec M Sent.view (readFrame k) l = ⟨.ret r, l'⟩) : l'.toClient = [] := by
  by_cases hlen : bytes.length = n
  · have hview : (Sent.raw n bytes).view = some ⟨MSG_RAW_DATA, bytes⟩ := if_pos hlen
    rw [exec_readFrame hl hview] at h
    rw [hk _ _ h]
    exact hrest hlen
  · have hview : (Sent.raw n bytes).view = none := if_neg hlen
    simp only [readFrame, exec, hl, List.head?_cons, Option.bind_some, hview, hup] at h
    exact absurd (congrArg Config.client h) (by simp)

/-- **When it returns, an operation that skips has read everything.** -/
theorem toClient_of_drains (hconn : cl.connected = true) (hdrains : op.Drains)
    (hl : ∀ i ∈ l.toClient, i.Stray) (hroomy : l.toClient.length < 100)
    (h : exec (machine env) Sent.view (op.run env cl fs) l = ⟨.ret (), l'⟩) :
    l'.toClient = [] := by
  have hraw : ∀ (c : UInt8) (payload : Bytes), c ≠ MSG_RAW_DATA →
      (⟨c, payload⟩ : WireFrame).messageType ≠ MSG_RAW_DATA := fun _ _ hc => hc
  cases op with
  | uploadFile p => exact absurd hdrains id
  | deltaSyncUpload p => exact absurd hdrains id
  | negotiate p =>
    obtain ⟨r, l₁, h₁, hret⟩ := exec_bind_eq_ret h
    obtain rfl : l₁ = l' := congrArg Config.link hret
    simp only [TcpClient.negotiate, hconn, Bool.not_true, Bool.false_eq_true, if_false] at h₁
    refine toClient_of_asked (.inl rfl) hl hroomy (fun _ => ?_) h₁
    cases hup : l.server.uploading with
    | true => exact .inl (reply_of_uploading hup (hraw _ _ (by decide)))
    | false =>
      obtain hnone | ⟨m, hm⟩ := reply_negotiation hup _
      · exact .inl (by rw [hnone]; simp)
      · refine .inr ⟨_, [], hm, rfl, fun l₀ hl₀ _ hexec => ?_⟩
        rw [toClient_of_accept hexec, hl₀]
  | listServerFiles p recursive =>
    obtain ⟨r, l₁, h₁, hret⟩ := exec_bind_eq_ret h
    obtain rfl : l₁ = l' := congrArg Config.link hret
    simp only [TcpClient.listServerFiles, hconn, Bool.not_true, Bool.false_eq_true,
      if_false] at h₁
    refine toClient_of_asked (.inr (.inr rfl)) hl hroomy (fun _ => ?_) h₁
    cases hup : l.server.uploading with
    | true => exact .inl (reply_of_uploading hup (hraw _ _ (by decide)))
    | false =>
      obtain hnone | ⟨m, hm⟩ := reply_listing hup _
      · exact .inl (by rw [hnone]; simp)
      · refine .inr ⟨_, [], hm, rfl, fun l₀ hl₀ _ hexec => ?_⟩
        rw [toClient_of_accept hexec, hl₀]
  | downloadFile p =>
    obtain ⟨r, l₁, h₁, hret⟩ := exec_bind_eq_ret h
    obtain rfl : l₁ = l' := congrArg Config.link hret
    simp only [TcpClient.downloadFile, hconn, Bool.not_true, Bool.false_eq_true, if_false] at h₁
    -- what follows the data is local
    obtain ⟨r₂, l₂, h₂, hkeep⟩ := exec_bind_eq_ret h₁
    obtain rfl : l₂ = l₁ := congrArg Config.link hkeep
    refine toClient_of_asked (.inr (.inl rfl)) hl hroomy (fun hdown => ?_) h₂
    cases hup : l.server.uploading with
    | true => exact .inl (reply_of_uploading hup (hraw _ _ (by decide)))
    | false =>
      obtain hnone | ⟨header, n, bytes, rest, hm, hrest, hcrash⟩ := reply_download hup _
      · exact .inl hnone
      refine .inr ⟨_, _, hm, rfl, fun l₀ hl₀ hserver hexec => ?_⟩
      rw [exec_accept (Codec.decode_encode _ _)] at hexec
      refine toClient_of_rawData ?_ hrest ?_ (fun frame l₃ h₃ => ?_) hexec
      · exact hl₀
      · show (machine env).down l₀.server = false
        rw [hserver]
        exact (congrArg Option.isSome hcrash).trans hdown
      · split at h₃ <;> exact congrArg (fun c => c.link.toClient) h₃.symm

end Drains

/-! ### Sequences -/

/-- No upload and no delta sync directly follows another: between two of them there is an
operation that skips. -/
def Separated (ops : List Op) : Prop :=
  ops.IsChain fun op op' => op.Drains ∨ op'.Drains

/-- Each delta sync leaves fewer than a hundred frames, in the schedule in which the server
answers at once. -/
def Roomy (env : Env) (cl : TcpClient) :
    List (Op × FileSystem) → Link Server WireFrame Sent Accepted → Prop
  | [], _ => True
  | (op, fs) :: ops, l =>
    ∀ l', exec (machine env) Sent.view (op.run env cl fs) l = ⟨.ret (), l'⟩ →
      ((∃ p, op = .deltaSyncUpload p) → (unread l').length < 100) ∧ Roomy env cl ops l'

section Sequences

variable {env : Env} {cl : TcpClient} {fs : FileSystem} {op : Op}
  {l l' : Link Server WireFrame Sent Accepted}

theorem readable_map_frame (frames : List WireFrame) :
    readable Sent.view (frames.map .frame) = frames := by
  induction frames with
  | nil => rfl
  | cons frame frames ih => exact congrArg (frame :: ·) ih

theorem exists_frames {is : List Sent} (h : ∀ i ∈ is, i.Stray) :
    ∃ frames : List WireFrame, is = frames.map .frame ∧
      ∀ frame ∈ frames, ∀ type : MessageType, type.Awaited → frame.messageType ≠ type.code := by
  induction is with
  | nil => exact ⟨[], rfl, nofun⟩
  | cons i is ih =>
    obtain ⟨frame, rfl, hframe⟩ := h i List.mem_cons_self
    obtain ⟨frames, rfl, hframes⟩ := ih fun j hj => h j (List.mem_cons_of_mem _ hj)
    exact ⟨frame :: frames, rfl, List.forall_mem_cons.mpr ⟨hframe, hframes⟩⟩

/-- What is left can be read, and is of other types. -/
theorem exists_unread (h : ∀ i ∈ l.toClient, i.Stray) :
    (unread l).length = l.toClient.length ∧
      ∀ frame ∈ unread l, ∀ type : MessageType, type.Awaited →
        frame.messageType ≠ type.code := by
  obtain ⟨frames, hl, hframes⟩ := exists_frames h
  rw [unread, hl, readable_map_frame, List.length_map]
  exact ⟨rfl, hframes⟩

theorem not_expectedDecodes {β : Type} (c : Codec β) {type : MessageType} (htype : type.Awaited)
    (h : ∀ i ∈ l.toClient, i.Stray) : ¬ ExpectedDecodes c type (unread l) := by
  rintro ⟨frame, hframe, -⟩
  have hmem := List.mem_of_mem_take (List.mem_of_find?_eq_some hframe)
  refine (exists_unread h).2 frame hmem type htype ?_
  simpa using List.find?_some hframe

/-- An operation takes no frame for its answer that is not of the type it waits for, and
none at all where nothing is left. -/
theorem not_takes (hl : ∀ i ∈ l.toClient, i.Stray) (h : op.Drains ∨ l.toClient = []) :
    ¬ op.Takes env cl fs (unread l) := by
  have hnext : ∀ {β : Type} (c : Codec β), l.toClient = [] → ¬ NextDecodes c (unread l) := by
    rintro β c hnil ⟨f, hf, -⟩
    simp [unread, hnil, readable] at hf
  cases op with
  | negotiate p => exact fun ht => not_expectedDecodes _ (.inl rfl) hl ht.2
  | downloadFile p => exact fun ht => not_expectedDecodes _ (.inr (.inl rfl)) hl ht.2
  | listServerFiles p recursive => exact fun ht => not_expectedDecodes _ (.inr (.inr rfl)) hl ht.2
  | uploadFile p => exact fun ht => hnext _ (h.resolve_left id) ht.2.2
  | deltaSyncUpload p => exact fun ht => hnext _ (h.resolve_left id) ht.2.2.2

/-- Along a sequence: whatever is left when an operation starts is skipped by it. -/
theorem undisturbed_of_separated (hconn : cl.connected = true) (ops : List (Op × FileSystem)) :
    ∀ {l : Link Server WireFrame Sent Accepted}, (∀ i ∈ l.toClient, i.Stray) →
      l.toClient.length < 100 → (∀ x ∈ ops.head?, x.1.Drains ∨ l.toClient = []) →
      Separated (ops.map Prod.fst) → Roomy env cl ops l → OpsUndisturbed env cl ops l := by
  induction ops with
  | nil => exact fun _ _ _ _ _ => trivial
  | cons x ops ih =>
    obtain ⟨op, fs⟩ := x
    intro l hl hlen hfirst hsep hroomy
    -- what is left when the first operation starts is skipped by it, or there is nothing
    have hop : op.Drains ∨ l.toClient = [] := hfirst (op, fs) rfl
    obtain ⟨hnext, hsep⟩ := List.isChain_cons.mp hsep
    refine ⟨not_takes hl hop, fun l' hexec => ?_⟩
    obtain ⟨hroom, hroomy⟩ := hroomy l' hexec
    by_cases hdrains : op.Drains
    · -- everything has been read
      have hnil := toClient_of_drains hconn hdrains hl hlen hexec
      refine ih ?_ ?_ (fun _ _ => .inr hnil) hsep hroomy
      · simp [hnil]
      · simp [hnil]
    · have hstray : ∀ i ∈ l'.toClient, i.Stray := by
        have hleft := @stray_of_not_drains env cl fs op l hdrains hl
        rwa [hexec] at hleft
      refine ih hstray ?_ (fun y hy => .inl ?_) hsep hroomy
      · cases op with
        | uploadFile p =>
          have hleft := @length_toClient_uploadFile env cl fs l p (hop.resolve_left id)
          rwa [hexec] at hleft
        | deltaSyncUpload p =>
          rw [← (exists_unread hstray).1]
          exact hroom ⟨p, rfl⟩
        | _ => exact absurd trivial hdrains
      · -- and the next operation skips it
        refine (hnext y.1 ?_).resolve_left hdrains
        rw [List.head?_map, hy]
        rfl

/-- An operation of a client that has no stream does nothing. -/
theorem undisturbed_of_not_connected (hconn : cl.connected = false)
    (ops : List (Op × FileSystem)) : ∀ l, OpsUndisturbed env cl ops l := by
  induction ops with
  | nil => exact fun _ => trivial
  | cons x ops ih =>
    obtain ⟨op, fs⟩ := x
    refine fun l => ⟨fun htakes => ?_, fun l' _ => ih l'⟩
    cases op <;> exact absurd (hconn.symm.trans htakes.1) (by simp)

/-- A whole sequence, on a new connection. -/
theorem own_of_separated (env : Env) (cl : TcpClient) (ops : List (Op × FileSystem))
    (srv : Server) (hsep : Separated (ops.map Prod.fst))
    (hroomy : Roomy env cl ops (Link.start srv)) : AnswersBelong env cl ops srv := by
  refine (answersBelong_iff_undisturbed env cl ops srv).mpr ((undisturbed_iff _ _ _ _).mpr ?_)
  cases hconn : cl.connected with
  | false => exact undisturbed_of_not_connected hconn ops _
  | true =>
    refine undisturbed_of_separated hconn ops nofun ?_ (fun _ _ => .inr rfl) hsep hroomy
    exact Nat.succ_pos 99

end Sequences

/-- **Operations that are kept apart get their own answers**, in every interleaving of the
client and the session, whatever the local files (of less than 4 GiB, so that the session's
reads deliver them), the store and the clock are. -/
theorem answers_belong_of_separated (env : Env) (cl : TcpClient) (ops : List (Op × FileSystem))
    (srv : Server) (hsep : Separated (ops.map Prod.fst))
    (hroomy : Roomy env cl ops (Link.start srv)) : AnswersBelong env cl ops srv :=
  own_of_separated env cl ops srv hsep hroomy

/-- A sequence without delta syncs has room. -/
theorem roomy_of_no_deltaSync (env : Env) (cl : TcpClient) {ops : List (Op × FileSystem)}
    (h : ∀ x ∈ ops, ∀ p, x.1 ≠ .deltaSyncUpload p) : ∀ l, Roomy env cl ops l := by
  induction ops with
  | nil => exact fun _ => trivial
  | cons x ops ih =>
    obtain ⟨op, fs⟩ := x
    refine fun l l' _ => ⟨fun ⟨p, hp⟩ => ?_, ih (fun y hy => h y (List.mem_cons_of_mem _ hy)) l'⟩
    exact absurd hp (h _ List.mem_cons_self p)

/-- The empty file is uploaded twice, each time after a negotiation. -/
theorem answers_belong_of_separated_empty_twice :
    AnswersBelong storageEnv (sampleClient 4096)
      [(.negotiate "f", FileSystem.single ['c'] ['f'] (some [])),
        (.uploadFile "f", FileSystem.single ['c'] ['f'] (some [])),
        (.negotiate "f", FileSystem.single ['c'] ['f'] (some [])),
        (.uploadFile "f", FileSystem.single ['c'] ['f'] (some []))]
      (Server.new 4096 (FileSystem.single ['s'] ['f'] none)) :=
  answers_belong_of_separated _ _ _ _ (by simp [Separated, Op.Drains])
    (roomy_of_no_deltaSync _ _ (by simp) _)

end AdaptiveSync
