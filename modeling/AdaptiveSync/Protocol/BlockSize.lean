import AdaptiveSync.Client.Operations
import AdaptiveSync.Hash
import AdaptiveSync.Protobuf

/-!
# Agreement on the block size

The block size of a connection is kept in several places. On the server, the session has
`negotiated_block_size_` and its negotiator a copy of its own; on the client, `TcpClient`
has `block_size` and the delta engine the block size of its `FileOps`. It is also sent: in
the hellos, in every negotiation response and in every signature request.

The handshake updates only two of them, the session's and `TcpClient`'s. The negotiator
goes on to announce what the server was configured with, and the delta engine to cut files
as the client was created. So the places agree, whatever is requested after the handshake,
exactly when the two sides were configured alike (`blockSizes_agree_iff`).

When they were, no step of a run changes any of them: the session and its negotiator stay
at the configured size (`Sized`), since every hello and every signature request announces
it (`Announces`), and every negotiation response then repeats it (`Responds`).
-/

namespace AdaptiveSync

open Fs Duplex LexPath

/-! ### The block size on the server -/

/-- The session and its negotiator work with the block size `b`. -/
structure Sized (b : UInt32) (srv : Server) : Prop where
  negotiated : srv.session.negotiatedBlockSize = b
  negotiator : srv.session.negotiator.blockSize = b

/-- Every block size the frame announces to the server is `b`. -/
structure Announces (proto : Proto) (b : UInt32) (f : WireFrame) : Prop where
  hello : ∀ m, Carrying proto.clientHello .clientHello m f → m.blockSize = b
  signatures : ∀ m, Carrying proto.deltaSyncSignatureRequest .deltaSyncSignatureRequest m f →
    m.blockSize = b

/-- If the server sends a negotiation response here, it says `b`. -/
def Responds (proto : Proto) (b : UInt32) (i : Sent) : Prop :=
  ∀ f m, i = .frame f → Carrying proto.negotiationResponse .negotiationResponse m f →
    m.blockSize = b

/-- A reaction that has nothing to do with block sizes. -/
structure Neutral (srv : Server) (r : Server × List Sent) : Prop where
  negotiated : r.1.session.negotiatedBlockSize = srv.session.negotiatedBlockSize
  negotiator : r.1.session.negotiator = srv.session.negotiator
  silent : ∀ f, .frame f ∈ r.2 → f.messageType ≠ MessageType.negotiationResponse.code

namespace Neutral

variable {env : Env} {srv : Server} {b : UInt32} {r : Server × List Sent}

theorem keeps (h : Neutral srv r) (hsrv : Sized b srv) :
    Sized b r.1 ∧ ∀ i ∈ r.2, Responds env.proto b i := by
  refine ⟨⟨h.negotiated.trans hsrv.negotiated, ?_⟩, ?_⟩
  · rw [h.negotiator]
    exact hsrv.negotiator
  · rintro i hi f m rfl hm
    exact absurd hm.1 (h.silent f hi)

theorem finishUpload : Neutral srv (Server.finishUpload env srv) := by
  unfold Server.finishUpload
  simp only
  repeat' split
  all_goals exact ⟨rfl, rfl, by simp [Server.sendError, message, MessageType.code]⟩

theorem uploadLoop : Neutral srv (Server.uploadLoop env srv) := by
  unfold Server.uploadLoop
  split
  · exact ⟨rfl, rfl, by simp⟩
  · exact finishUpload

theorem uploadFrame (frame : WireFrame) : Neutral srv (Server.uploadFrame env srv frame) := by
  unfold Server.uploadFrame
  split
  · obtain ⟨h₁, h₂, h₃⟩ := @uploadLoop env { srv with
      session := { srv.session with
        uploadState := { srv.session.uploadState with
          buffer := srv.session.uploadState.buffer ++ frame.payload
          received := srv.session.uploadState.received + UInt64.ofNat frame.payload.length } }
      ticks := srv.ticks + 1 }
    refine ⟨h₁, h₂, fun f hf => ?_⟩
    rcases List.mem_append.mp hf with hf | hf
    · -- a progress frame
      unfold Server.sendProgress at hf
      split at hf
      · exact absurd hf (by simp)
      · obtain rfl := Sent.frame.inj (List.mem_singleton.mp hf)
        simp [message, MessageType.code]
    · exact h₃ f hf
  · exact uploadLoop

theorem zeroCopyUploadRequest (payload : Bytes) :
    Neutral srv (Server.handleZeroCopyUploadRequest env srv payload) := by
  unfold Server.handleZeroCopyUploadRequest
  split
  · exact ⟨rfl, rfl, by simp [Server.sendError, message, MessageType.code]⟩
  · next req _ =>
    -- the acknowledgement, and what the loop sends when there is nothing to receive
    obtain ⟨h₁, h₂, h₃⟩ := @uploadLoop env { srv with
      session := { srv.session with
        uploadState := {
          relativePath := req.metadata.relativePath
          totalSize := req.metadata.fileSize
          received := 0
          expectedSha256 := req.metadata.sha256Hash
          buffer := [] }
        state := .transferring } }
    refine ⟨h₁, h₂, fun f hf => ?_⟩
    rcases List.mem_cons.mp hf with hf | hf
    · obtain rfl := Sent.frame.inj hf
      simp [message, MessageType.code]
    · exact h₃ f hf

theorem sendFile (env : Env) (fs : FileSystem) (p : String) (offset : UInt64) (f : WireFrame)
    (hf : .frame f ∈ (sendFile env fs p offset).2) :
    f.messageType ≠ MessageType.negotiationResponse.code := by
  unfold AdaptiveSync.sendFile at hf
  simp only at hf
  repeat' split at hf
  all_goals simp at hf
  -- only the download header is a frame
  all_goals
    subst hf
    simp [message, MessageType.code]

theorem zeroCopyDownloadRequest (payload : Bytes) :
    Neutral srv (Server.handleZeroCopyDownloadRequest env srv payload) := by
  unfold Server.handleZeroCopyDownloadRequest
  split
  · exact ⟨rfl, rfl, by simp [Server.sendError, message, MessageType.code]⟩
  · next req _ =>
    have hsend := sendFile env srv.fs req.relativePath req.offset
    split
    · next hr => exact ⟨rfl, rfl, by rw [hr] at hsend; exact hsend⟩
    · next hr => exact ⟨rfl, rfl, by rw [hr] at hsend; exact hsend⟩
    · next hr =>
      rw [hr] at hsend
      refine ⟨rfl, rfl, fun f hf => ?_⟩
      rcases List.mem_append.mp hf with hf | hf
      · exact hsend f hf
      · obtain rfl := Sent.frame.inj (List.mem_singleton.mp hf)
        simp [message, MessageType.code]

theorem deltaSyncSignatureRequest (payload : Bytes) :
    Neutral srv (Server.handleDeltaSyncSignatureRequest env srv payload) := by
  unfold Server.handleDeltaSyncSignatureRequest
  simp only
  repeat' split
  all_goals exact ⟨rfl, rfl, by simp [Server.sendError, message, MessageType.code]⟩

theorem deltaSyncBlockData (payload : Bytes) :
    Neutral srv (Server.handleDeltaSyncBlockData env srv payload) := by
  unfold Server.handleDeltaSyncBlockData
  simp only
  repeat' split
  all_goals exact ⟨rfl, rfl, by simp [Server.sendError, message, MessageType.code]⟩

theorem listFilesRequest (payload : Bytes) :
    Neutral srv (Server.handleListFilesRequest env srv payload) := by
  unfold Server.handleListFilesRequest
  repeat' split
  all_goals exact ⟨rfl, rfl, by simp [Server.sendError, message, MessageType.code]⟩

end Neutral

/-- A negotiation announces the negotiator's block size. -/
theorem Negotiator.blockSize_of_negotiate {sha256 : Bytes → String} {fm : FileManager}
    {n : Negotiator} {fs : FileSystem} {p hash : String} {r : NegotiationResult}
    (h : n.negotiate sha256 fm fs p hash = .ok r) : r.blockSize = n.blockSize := by
  unfold negotiate at h
  obtain ⟨found, -, h⟩ := Except.bind_eq_ok_iff.mp h
  split at h
  · obtain rfl := Except.ok.inj h
    rfl
  obtain ⟨info, -, h⟩ := Except.bind_eq_ok_iff.mp h
  cases info with
  | none =>
    obtain rfl := Except.ok.inj h
    rfl
  | some info =>
    simp only at h
    split at h
    · obtain rfl := Except.ok.inj h
      rfl
    · obtain rfl := Except.ok.inj h
      rfl

section React

variable {env : Env} {srv : Server} {b : UInt32}

theorem Sized.clientHello (h : Sized b srv) {f : WireFrame} (hf : Announces env.proto b f)
    (htype : f.messageType = MessageType.clientHello.code) :
    Sized b (Server.handleClientHello env srv f.payload).1 ∧
      ∀ i ∈ (Server.handleClientHello env srv f.payload).2, Responds env.proto b i := by
  unfold Server.handleClientHello
  split
  · exact (⟨rfl, rfl, by simp [Server.sendError, message, MessageType.code]⟩ :
      Neutral srv _).keeps h
  · next m hm =>
    have hsize := hf.hello m ⟨htype, hm⟩
    refine ⟨⟨?_, h.negotiator⟩, ?_⟩
    · -- taken from the hello, or left as it is
      simp only [hsize, h.negotiated, ite_self]
    · rintro i hi g m' rfl hm'
      obtain rfl := Sent.frame.inj (List.mem_singleton.mp hi)
      exact absurd hm'.1 (by simp [message, MessageType.code])

theorem Sized.negotiationRequest (h : Sized b srv) (payload : Bytes) :
    Sized b (Server.handleNegotiationRequest env srv payload).1 ∧
      ∀ i ∈ (Server.handleNegotiationRequest env srv payload).2, Responds env.proto b i := by
  unfold Server.handleNegotiationRequest
  split
  · exact (⟨rfl, rfl, by simp [Server.sendError, message, MessageType.code]⟩ :
      Neutral srv _).keeps h
  split
  · exact (⟨rfl, rfl, by simp⟩ : Neutral srv _).keeps h
  · next r hr =>
    refine ⟨⟨h.negotiated, h.negotiator⟩, ?_⟩
    rintro i hi f m rfl hm
    obtain rfl := Sent.frame.inj (List.mem_singleton.mp hi)
    -- the response decodes to what was encoded, which the negotiator filled in
    have hdecode := hm.2
    simp only [message, Codec.decode_encode] at hdecode
    obtain rfl := Option.some.inj hdecode
    exact (Negotiator.blockSize_of_negotiate hr).trans h.negotiator

/-- **One frame.** A server that works with `b`, given frames that announce `b`, goes on to
work with `b` and announces nothing else. -/
theorem Sized.step (h : Sized b srv) {f : WireFrame} (hf : Announces env.proto b f) :
    Sized b (Server.step env srv f).1 ∧
      ∀ i ∈ (Server.step env srv f).2, Responds env.proto b i := by
  unfold Server.step
  split
  · exact (Neutral.uploadFrame f).keeps h
  unfold Server.dispatch
  split
  · next htype => exact h.clientHello hf htype
  split
  · exact h.negotiationRequest _
  -- the other handlers do not look at block sizes
  repeat' split
  · exact (Neutral.zeroCopyDownloadRequest _).keeps h
  · exact (Neutral.zeroCopyUploadRequest _).keeps h
  · exact (Neutral.deltaSyncSignatureRequest _).keeps h
  · exact (Neutral.deltaSyncBlockData _).keeps h
  · exact (Neutral.listFilesRequest _).keeps h
  · exact (⟨rfl, rfl, by simp [Server.sendError, message, MessageType.code]⟩ :
      Neutral srv _).keeps h

end React

/-! ### The block size on the client -/

/-- A request announces the client's block size, or none. -/
theorem Request.announces {proto : Proto} {b : UInt32} {f : WireFrame} (h : Request proto b f) :
    Announces proto b f := by
  cases h with
  | signatures m hm =>
    refine ⟨fun m' hm' => absurd hm'.1 (by simp [message, MessageType.code]), fun m' hm' => ?_⟩
    have hdecode := hm'.2
    simp only [message, Codec.decode_encode] at hdecode
    obtain rfl := Option.some.inj hdecode
    exact hm
  | _ =>
    exact ⟨fun m' hm' => absurd hm'.1 (by simp [message, MessageType.code, MSG_RAW_DATA]),
      fun m' hm' => absurd hm'.1 (by simp [message, MessageType.code, MSG_RAW_DATA])⟩

/-- The client's hello announces its block size. -/
theorem announces_hello {proto : Proto} (m : ClientHello) :
    Announces proto m.blockSize (message proto.clientHello .clientHello m) := by
  refine ⟨fun m' hm' => ?_, fun m' hm' => absurd hm'.1 (by simp [message, MessageType.code])⟩
  have hdecode := hm'.2
  simp only [message, Codec.decode_encode] at hdecode
  exact congrArg ClientHello.blockSize (Option.some.inj hdecode).symm

/-! ### The handshake -/

/-- The block size a session settles on when the hello asks for `b` and the server was
configured with `configured`. -/
def settled (b configured : UInt32) : UInt32 := if Server.acceptable b then b else configured

/-- A client after the handshake with a server that settled on `n`. -/
def TcpClient.greeted (cl : TcpClient) (n : UInt32) : TcpClient :=
  { cl with blockSize := if 4096 ≤ n ∧ n ≤ 1048576 then n else cl.blockSize, connected := true }

/-- A server after the handshake with a client. -/
def Server.greeted (cl : TcpClient) (configured : UInt32) (fs : FileSystem) : Server :=
  let srv := Server.new configured fs
  { srv with
    session := { srv.session with
      clientId := cl.clientId
      protocolVersion := cl.protocolVersion
      negotiatedBlockSize := settled cl.blockSize configured
      state := .ready } }

variable {env : Env}

/-- What a client greets a server with. -/
def TcpClient.hello (cl : TcpClient) : ClientHello :=
  ⟨cl.protocolVersion, cl.clientId, [.zeroCopy, .deltaSync], cl.blockSize⟩

/-- What a server that settled on `n` answers. -/
def serverHello (n : UInt32) : ServerHello where
  protocolVersion := 1
  serverId := "adaptivesync-cpp-1.0"
  supportedModes := [.zeroCopy, .deltaSync]
  maxConcurrentTransfers := 10
  maxFileSize := 0
  blockSize := n

theorem step_hello (cl : TcpClient) (configured : UInt32) (fs : FileSystem) :
    Server.step env (Server.new configured fs)
        (message env.proto.clientHello .clientHello cl.hello) =
      (Server.greeted cl configured fs, [.frame (message env.proto.serverHello .serverHello
        (serverHello (settled cl.blockSize configured)))]) := by
  have hcode : (message env.proto.clientHello .clientHello cl.hello).messageType =
      MessageType.clientHello.code := rfl
  rw [Server.step_of_idle rfl, Server.dispatch, if_pos hcode, Server.handleClientHello]
  simp only [message, Codec.decode_encode]
  rfl

/-- The link after the handshake. -/
def greetedLink (env : Env) (cl : TcpClient) (configured : UInt32) (fs : FileSystem) :
    Link Server WireFrame Sent Accepted :=
  let reply := message env.proto.serverHello .serverHello
    (serverHello (settled cl.blockSize configured))
  { toServer := []
    toClient := []
    server := Server.greeted cl configured fs
    sent := [message env.proto.clientHello .clientHello cl.hello]
    served := [.frame reply]
    log := [⟨.serverHello, reply⟩] }

/-- The handshake succeeds and leaves nothing on the way. -/
theorem exec_connect (cl : TcpClient) (configured : UInt32) (fs : FileSystem) :
    exec (machine env) Sent.view (cl.connect env.proto) (Link.start (Server.new configured fs)) =
      ⟨.ret (.ok (cl.greeted (settled cl.blockSize configured))),
        greetedLink env cl configured fs⟩ := by
  have hdeliver : (Link.start (Server.new configured fs) :
      Link Server WireFrame Sent Accepted).deliver (machine env)
        (message env.proto.clientHello .clientHello cl.hello) =
      { greetedLink env cl configured fs with
        toClient := [.frame (message env.proto.serverHello .serverHello
          (serverHello (settled cl.blockSize configured)))]
        log := [] } := by
    rw [Link.deliver_of_up rfl]
    simp only [machine, Link.start, step_hello, List.nil_append, greetedLink]
  rw [TcpClient.connect, exec]
  change exec _ _ _ (Link.deliver _ _ (message env.proto.clientHello .clientHello cl.hello)) = _
  rw [hdeliver, exec_readFrame rfl rfl]
  simp only [message, ne_eq, not_true_eq_false, if_false]
  rw [exec_accept (Codec.decode_encode _ _)]
  rfl

/-! ### Agreement -/

/-- All places hold the block size `n`. -/
structure AgreedOn (proto : Proto) (cl : TcpClient) (l : Link Server WireFrame Sent Accepted)
    (n : UInt32) : Prop where
  /-- `negotiated_block_size_`. -/
  session : l.server.session.negotiatedBlockSize = n
  /-- The `block_size` of every negotiation response. -/
  responses : ∀ f m, .frame f ∈ l.served →
    Carrying proto.negotiationResponse .negotiationResponse m f → m.blockSize = n
  /-- `TcpClient.block_size`. -/
  client : cl.blockSize = n
  /-- The `block_size` of every signature request. -/
  requests : ∀ f m, f ∈ l.sent →
    Carrying proto.deltaSyncSignatureRequest .deltaSyncSignatureRequest m f → m.blockSize = n
  /-- What `compute_signatures` and `read_requested_blocks` cut with. -/
  cutters : cl.deltaEngine.fileOps.blockSize = n

/-- However a handshake between a client created with `b` and a server configured with
`configured` went, whatever is requested after it and in every state on the way, all places
agree. -/
def BlockSizesAgree (env : Env) (b configured : UInt32) : Prop :=
  ∀ (clientId syncRoot : String) (fs : FileSystem) (cl : TcpClient)
    (l : Link Server WireFrame Sent Accepted),
    Reach (machine env) Sent.view
        ⟨(TcpClient.new clientId syncRoot b).connect env.proto,
          Link.start (Server.new configured fs)⟩
        ⟨.ret (.ok cl), l⟩ →
      ∀ ops c, Reach (machine env) Sent.view ⟨runOps env cl ops, l⟩ c →
        ∃ n, AgreedOn env.proto cl c.link n

/-- A client created like the server is configured has one block size after the
handshake. -/
theorem client_of_connect {clientId syncRoot : String} {b : UInt32} {fs : FileSystem}
    {cl : TcpClient} {l : Link Server WireFrame Sent Accepted}
    (h : Reach (machine env) Sent.view
      ⟨(TcpClient.new clientId syncRoot b).connect env.proto, Link.start (Server.new b fs)⟩
      ⟨.ret (.ok cl), l⟩) :
    cl.blockSize = b ∧ cl.deltaEngine.fileOps.blockSize = b := by
  have hend := reach_exec (Or.inl rfl) h
  rw [exec_connect] at hend
  have hcl : cl = (TcpClient.new clientId syncRoot b).greeted (settled b b) := by
    have hret := hend.client_ret
    simp only [Proc.ret.injEq, Except.ok.injEq] at hret
    exact hret.symm
  rw [hcl]
  refine ⟨?_, rfl⟩
  simp [TcpClient.greeted, TcpClient.new, settled]

/-- Sides configured alike stay in agreement. -/
theorem blockSizesAgree_self (env : Env) (b : UInt32) : BlockSizesAgree env b b := by
  intro clientId syncRoot fs cl l hconnect ops c hrun
  obtain ⟨hcl, hcut⟩ := client_of_connect hconnect
  have hreact : ∀ (srv : Server) (f : WireFrame), Sized b srv → Announces env.proto b f →
      Sized b ((machine env).step srv f).1 ∧
        ∀ i ∈ ((machine env).step srv f).2, Responds env.proto b i :=
    fun srv f hsrv hf => hsrv.step hf
  -- the handshake keeps the invariant, and so do the operations after it
  have hstart : ((TcpClient.new clientId syncRoot b).connect env.proto).Sends
      (Announces env.proto b) := by
    refine ⟨announces_hello (TcpClient.new clientId syncRoot b).hello, sends_readFrame fun f => ?_⟩
    split
    · trivial
    · refine sends_accept (fun _ => ?_) f
      trivial
  have hfresh : Sized b (Server.new b fs) := ⟨rfl, rfl⟩
  have hgreeted := (Config.Keeps.start hstart hfresh).reach hreact hconnect
  -- after the handshake the client announces what the handshake settled
  have hops : (runOps env cl ops).Sends (Announces env.proto b) := by
    refine (sends_runOps env cl ops).mono fun f hf => ?_
    rw [hcl] at hf
    exact hf.announces
  have hkeeps := (Config.Keeps.mk hops hgreeted.toServer hgreeted.server hgreeted.sent
    hgreeted.served : Config.Keeps _ _ _ ⟨runOps env cl ops, l⟩).reach hreact hrun
  exact ⟨b, {
    session := hkeeps.server.negotiated
    responses := fun f m hf hm => hkeeps.served _ hf f m rfl hm
    client := hcl
    requests := fun f m hf hm => (hkeeps.sent f hf).signatures m hm
    cutters := hcut }⟩

/-! ### Disagreement -/

/-- A disk with nothing on it. -/
def vacant : FileSystem := ⟨∅, Os.calm⟩

/-- On an empty disk no file is found at an absolute path, wherever the storage root is. -/
theorem fileExists_vacant (fm : FileManager) : fm.fileExists vacant "/file" = .ok false := by
  have hclean : lexicallyNormal "/file".toList = "/file".toList := by decide
  -- the path replaces the storage root
  have hresolve : fm.resolvePath "/file" = .ok "/file".toList := by
    unfold FileManager.resolvePath
    simp only [hclean]
    rw [if_neg (by decide), append, if_pos (by decide)]
  have hstat : vacant.stat (cStr "/file".toList) = .notFound := rfl
  rw [FileManager.fileExists, hresolve, Except.ok_bind, existsOrThrow, hstat]

/-- A negotiation on an empty disk announces what the server was configured with. -/
theorem step_negotiation_vacant (cl : TcpClient) (configured : UInt32) (m : NegotiationRequest)
    (hm : m.relativePath = "/file") :
    (Server.step env (Server.greeted cl configured vacant)
        (message env.proto.negotiationRequest .negotiationRequest m)).2 =
      [.frame (message env.proto.negotiationResponse .negotiationResponse
        ⟨.fresh, .zeroCopy, 0, "", configured⟩)] := by
  have hresult : (Server.greeted cl configured vacant).session.negotiator.negotiate env.sha256
      env.fm vacant m.relativePath m.clientSha256Hash =
        .ok ⟨.fresh, .zeroCopy, 0, "", configured⟩ := by
    unfold Negotiator.negotiate
    rw [hm, fileExists_vacant]
    rfl
  rw [Server.step_of_idle rfl, Server.dispatch_negotiationRequest rfl,
    Server.handleNegotiationRequest]
  have hfs : (Server.greeted cl configured vacant).fs = vacant := rfl
  simp only [message, Codec.decode_encode, hfs, hresult]

/-- After the handshake the delta engine cuts with the size the client was created with,
and a negotiation announces the size the server was configured with. -/
theorem negotiation_after_handshake (env : Env) (b configured : UInt32) :
    ∃ cl l c,
      Reach (machine env) Sent.view
        ⟨(TcpClient.new "" "" b).connect env.proto, Link.start (Server.new configured vacant)⟩
        ⟨.ret (.ok cl), l⟩ ∧
      Reach (machine env) Sent.view ⟨runOps env cl [(.negotiate "/file", vacant)], l⟩ c ∧
      cl.deltaEngine.fileOps.blockSize = b ∧
      .frame (message env.proto.negotiationResponse .negotiationResponse
        ⟨.fresh, .zeroCopy, 0, "", configured⟩) ∈ c.link.served := by
  have hconnect : Reach (machine env) Sent.view
      ⟨(TcpClient.new "" "" b).connect env.proto, Link.start (Server.new configured vacant)⟩ _ :=
    exec_reach _ (Or.inl rfl)
  rw [exec_connect] at hconnect
  -- the operation sends its request, and the server answers it
  refine ⟨_, _, _, hconnect, reach_deliver (Or.inl rfl) _ _, rfl, ?_⟩
  rw [Link.deliver_of_up rfl]
  refine List.mem_append_right _ ?_
  change _ ∈ (Server.step env (Server.greeted _ configured vacant) _).2
  rw [step_negotiation_vacant _ _ _ rfl]
  exact List.mem_singleton_self _

/-- What the engine cuts with and what is announced agree only when the sides were
configured alike. -/
theorem BlockSizesAgree.eq {env : Env} {b configured : UInt32}
    (h : BlockSizesAgree env b configured) : b = configured := by
  obtain ⟨cl, l, c, hconnect, hrun, hcut, hserved⟩ := negotiation_after_handshake env b configured
  obtain ⟨n, hn⟩ := h _ _ _ cl l hconnect _ c hrun
  calc b = n := hcut.symm.trans hn.cutters
    _ = configured := (hn.responses _ _ hserved (carrying_message _ _ _)).symm

/-- **Agreement on the block size.** All places that hold the block size agree, on every
store, after every handshake and whatever is requested then, exactly when the client was
created with the block size the server is configured with. -/
theorem blockSizes_agree_iff (env : Env) (b configured : UInt32) :
    BlockSizesAgree env b configured ↔ b = configured := by
  constructor
  · exact BlockSizesAgree.eq
  · rintro rfl
    exact blockSizesAgree_self env b

/-- A client created with blocks of 4096 bytes and a server configured with 65536. -/
theorem not_blockSizesAgree_4096_65536 :
    ¬ BlockSizesAgree ⟨protobuf, sha256Hex, ⟨"./storage", by decide⟩, fun _ => none⟩ 4096 65536 :=
  fun h => absurd h.eq (by decide)

end AdaptiveSync
