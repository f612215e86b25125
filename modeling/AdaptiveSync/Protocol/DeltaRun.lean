import AdaptiveSync.Client.TcpClient
import AdaptiveSync.Protobuf
import AdaptiveSync.Protocol.Delta

/-!
# A delta-sync run

One client runs `delta_sync_upload` against one session, over two FIFO channels and in any
interleaving. Client and server use the same block size, the server has a file at the path,
and every file operation succeeds (`Meeting`).

The client sends the signatures, receives the request, sends the requested blocks that lie
inside its file, and waits for the completion. The server merges each block into the scratch
file and takes a block for the last one when it is short (`Server.isFinal`). Of the blocks of a
file only the one it ends strictly inside of is short, so the run is decided by that block
alone:

* when the file has such a block and it is sent, it is sent last, and the run ends
  (`exec_of_finishes`);
* otherwise no block is final, nothing is answered, and the client waits for ever
  (`exec_of_not_finishes`).

`Finishes` says when, as a condition on the two contents. A run that ends commits the
scratch file. Where there was none before (`Setup`) every block that was not sent is missing
from it: it agrees with the client's file on the blocks sent, and is zero elsewhere.
-/

namespace AdaptiveSync

open Fs Blocks Duplex
open LexPath (cStr nul)

/-! ### Merging -/

/-- The session is idle, and the blocks merged so far are `base`. -/
structure Merging (env : Env) (srv : Server) (p : String) (t : LexPath.Text) (b : UInt32)
    (base : Bytes) : Prop where
  idle : srv.uploading = false
  up : srv.crash = none
  negotiated : srv.session.negotiatedBlockSize = b
  ready : env.fm.Ready srv.fs p t
  scratch : srv.fs.bytesAt (srv.fs.locate (cTmp t)) = base

section Merging

variable {env : Env} {srv : Server} {p : String} {t : LexPath.Text} {b : UInt32} {base : Bytes}
  {d : DeltaSyncBlockData}

/-- The message carries a block for `p`, with its own hash, that fits into a file. -/
structure Carries (sha256 : Bytes → String) (p : String) (d : DeltaSyncBlockData) : Prop where
  path : d.relativePath = p
  hash : d.strongHash = sha256 d.data
  fits : d.blockOffset.toNat + d.data.length < maxOffset

/-- A full block is merged and not answered. -/
theorem Merging.step_full (h : Merging env srv p t b base) (hd : Carries env.sha256 p d)
    (hfull : b.toNat ≤ d.data.length) :
    ∃ srv', Server.step env srv (message env.proto.deltaSyncBlockData .deltaSyncBlockData d) =
      (srv', []) ∧ Merging env srv' p t b (writeAt 0 base d.blockOffset.toNat d.data) ∧
      srv.fs.Grows {srv.fs.locate (cTmp t)} {d | d <+: srv.fs.cParent t} srv'.fs := by
  have hfinal : srv.isFinal d.data = false := by
    rw [Server.isFinal, h.negotiated]
    exact decide_eq_false (Nat.not_lt.mpr hfull)
  rw [Server.step_of_idle h.idle, Server.dispatch_blockData rfl, Server.handleDeltaSyncBlockData]
  simp only [message, Codec.decode_encode, hfinal, hd.path, hd.hash,
    DeltaSyncHandler.handleBlockData_of_ready _ h.ready _ hd.fits]
  -- only the scratch file has changed
  refine ⟨_, rfl, ?_, .set _ rfl⟩
  exact {
    idle := h.idle
    up := h.up
    negotiated := h.negotiated
    ready := h.ready.set (Or.inr rfl)
    scratch := by
      rw [← h.scratch]
      exact FileSystem.bytesAt_of_file (FileSystem.node_set_self h.ready.tmp_not_dir) }

/-- A short block ends the merge: the scratch file takes the file's place, and the client is
told its hash. -/
theorem Merging.step_short (h : Merging env srv p t b base) (hd : Carries env.sha256 p d)
    (hshort : d.data.length < b.toNat) :
    ∃ srv', Server.step env srv (message env.proto.deltaSyncBlockData .deltaSyncBlockData d) =
      (srv', [.frame (message env.proto.deltaSyncComplete .deltaSyncComplete
        ⟨p, .ok, "", env.sha256 (writeAt 0 base d.blockOffset.toNat d.data)⟩)]) ∧
      (∃ left, Merging env srv' p t b left) ∧
      FileManager.Commits srv.fs srv'.fs t (writeAt 0 base d.blockOffset.toNat d.data) := by
  have hfinal : srv.isFinal d.data = true := by
    rw [Server.isFinal, h.negotiated]
    exact decide_eq_true hshort
  have hmerged : DeltaSyncHandler.merged srv.fs t d.blockOffset d.data =
      writeAt 0 base d.blockOffset.toNat d.data := by
    rw [← h.scratch]
    rfl
  rw [Server.step_of_idle h.idle, Server.dispatch_blockData rfl, Server.handleDeltaSyncBlockData]
  simp only [message, Codec.decode_encode, hfinal, hd.path, hd.hash,
    DeltaSyncHandler.handleBlockData_final_of_ready _ h.ready _ hd.fits, hmerged, true_or, if_true]
  -- the disk after the commit
  have hscratch : env.fm.Ready (srv.fs.set (srv.fs.locate (cTmp t))
      (.file (writeAt 0 base d.blockOffset.toNat d.data))) p t := h.ready.set (Or.inr rfl)
  have hcommits := (FileManager.Commits.of_ready hscratch
    (writeAt 0 base d.blockOffset.toNat d.data)).of_grows (.set _ rfl)
  have hcommitted := hscratch.commit (writeAt 0 base d.blockOffset.toNat d.data)
  simp only [FileSystem.set_locate] at hcommitted hcommits
  have hhash := (hcommitted.legible hcommits.node).computeSha256 env.sha256
  simp only [hhash]
  exact ⟨_, rfl, ⟨_, h.idle, h.up, h.negotiated, hcommitted, rfl⟩, hcommits⟩

/-- A run of full blocks is merged without an answer. -/
theorem deliver_full (ds : List DeltaSyncBlockData)
    (hds : ∀ d ∈ ds, Carries env.sha256 p d ∧ b.toNat ≤ d.data.length) :
    ∀ {l : Link Server WireFrame Sent Accepted} {base : Bytes}, Merging env l.server p t b base →
      ∃ srv', Merging env srv' p t b (writeAll 0 base (writesOf ds)) ∧
        l.server.fs.Grows {l.server.fs.locate (cTmp t)} {d | d <+: l.server.fs.cParent t}
          srv'.fs ∧
        (TcpClient.blockFrames env.proto ds).foldl (fun l o => l.deliver (machine env) o) l =
          { l with server := srv', sent := l.sent ++ TcpClient.blockFrames env.proto ds } := by
  induction ds with
  | nil =>
    intro l base h
    exact ⟨l.server, h, .refl _ _ _, by simp [TcpClient.blockFrames]⟩
  | cons d ds ih =>
    intro l base h
    obtain ⟨hd, hfull⟩ := hds d List.mem_cons_self
    -- the first block is merged, and the rest on top of it
    obtain ⟨srv₁, hstep, h₁, hgrows₁⟩ := h.step_full hd hfull
    have hup : (machine env).down l.server = false := by simp [machine, h.up]
    have hdeliver : l.deliver (machine env)
        (message env.proto.deltaSyncBlockData .deltaSyncBlockData d) =
          { l with server := srv₁, sent := l.sent ++
            [message env.proto.deltaSyncBlockData .deltaSyncBlockData d] } := by
      rw [Link.deliver_of_up hup]
      simp [machine, hstep]
    obtain ⟨srv', h', hgrows, hrest⟩ := ih (fun x hx => hds x (List.mem_cons_of_mem d hx))
      (l := { l with server := srv₁, sent := l.sent ++
        [message env.proto.deltaSyncBlockData .deltaSyncBlockData d] }) h₁
    dsimp only at hgrows
    rw [FileSystem.locate_congr hgrows₁.os, FileSystem.cParent_congr hgrows₁.os] at hgrows
    refine ⟨srv', h', hgrows₁.trans hgrows, ?_⟩
    rw [TcpClient.blockFrames, List.map_cons, List.foldl_cons, hdeliver]
    refine hrest.trans ?_
    simp [TcpClient.blockFrames]

end Merging

/-! ### Which blocks are sent -/

section Sent

variable {b : UInt32} {c s : Bytes}

/-- The client's file ends strictly inside a block, whose index fits 32 bits, and which is
not found on the server. -/
def Finishes (b : UInt32) (c s : Bytes) : Prop :=
  c.length % b.toNat ≠ 0 ∧ count b.toNat c.length < 2 ^ 32 ∧
    ¬ (c.length / b.toNat < reported b s.length ∧
      block b.toNat c (c.length / b.toNat) = block b.toNat s (c.length / b.toNat))

/-- The indices of the blocks the client sends. -/
def sentIndices (b : UInt32) (c s : Bytes) : List ℕ :=
  (delta b.toNat c s (reported b c.length) (reported b s.length)).filter
    fun i => i * b.toNat < c.length

theorem lt_of_mem_sentIndices {i : ℕ} (h : i ∈ sentIndices b c s) : i * b.toNat < c.length := by
  simpa using (List.mem_filter.mp h).2

/-- The block in which the file ends is sent exactly when `Finishes` says so. -/
theorem tail_mem_sentIndices_iff (hb : b ≠ 0) (htail : c.length % b.toNat ≠ 0) :
    c.length / b.toNat ∈ sentIndices b c s ↔ Finishes b c s := by
  have hcount := count_eq_of_mod_ne (toNat_pos hb) htail
  have hin : c.length / b.toNat * b.toNat < c.length :=
    (lt_count_iff (toNat_pos hb) _ _).mp (by omega)
  have hC : reported b c.length < 2 ^ 32 := Nat.mod_lt _ (by decide)
  have hS : reported b s.length < 2 ^ 32 := Nat.mod_lt _ (by decide)
  rw [sentIndices, List.mem_filter, mem_delta, Finishes]
  simp only [hin, decide_true, and_true, htail, ne_eq, not_false_eq_true, true_and]
  by_cases hfit : count b.toNat c.length < 2 ^ 32
  · -- the tail is the last block counted
    have hrep : reported b c.length = c.length / b.toNat + 1 := by
      rw [reported, Nat.mod_eq_of_lt hfit, hcount]
    rw [hrep]
    constructor
    · intro h
      exact ⟨hfit, fun hc => h.2 ⟨Nat.lt_succ_self _, hc⟩⟩
    · intro h
      exact ⟨lt_of_lt_of_le (Nat.lt_succ_self _) (le_max_left _ _), fun hc => h.2 hc.2⟩
  · -- the tail's index is past every index either count can name
    constructor
    · intro h
      have := h.1
      omega
    · intro h
      exact absurd h.1 hfit

/-- A block that is sent is short exactly when it is the one the file ends inside of. -/
theorem short_sent_iff (hb : b ≠ 0) {i : ℕ} (hi : i ∈ sentIndices b c s) :
    (block b.toNat c i).length < b.toNat ↔ i = c.length / b.toNat ∧ Finishes b c s := by
  rw [length_block_lt_iff (toNat_pos hb) (lt_of_mem_sentIndices hi)]
  constructor
  · rintro ⟨rfl, htail⟩
    exact ⟨rfl, (tail_mem_sentIndices_iff hb htail).mp hi⟩
  · intro h
    exact ⟨h.1, h.2.1⟩

/-- When the tail is sent, it is sent last. -/
theorem sentIndices_of_finishes (hb : b ≠ 0) (h : Finishes b c s) :
    ∃ init, sentIndices b c s = init ++ [c.length / b.toNat] ∧
      ∀ i ∈ init, i < c.length / b.toNat := by
  refine eq_append_of_sorted ((delta_sorted _ _ _ _ _).filter _)
    ((tail_mem_sentIndices_iff hb h.1).mpr h) fun i hi => ?_
  exact (Nat.le_div_iff_mul_le (toNat_pos hb)).mpr (le_of_lt (lt_of_mem_sentIndices hi))

theorem toNat_mem_sentIndices {js : List UInt32} (hjs : js.map UInt32.toNat = sentIndices b c s)
    {i : UInt32} (hi : i ∈ js) : i.toNat ∈ sentIndices b c s := by
  rw [← hjs]
  exact List.mem_map_of_mem hi

/-- When the tail is sent, the blocks sent are full ones and then the tail. -/
theorem exists_tail_of_finishes (hb : b ≠ 0) (hfin : Finishes b c s) {js : List UInt32}
    (hjs : js.map UInt32.toNat = sentIndices b c s) :
    ∃ init tail, js = init ++ [tail] ∧ (∀ i ∈ init, b.toNat ≤ (block b.toNat c i.toNat).length) ∧
      (block b.toNat c tail.toNat).length < b.toNat := by
  obtain ⟨init, hinit, hlt⟩ := sentIndices_of_finishes hb hfin
  obtain ⟨js', tail, rfl⟩ : ∃ js' tail, js = js' ++ [tail] := by
    refine (List.eq_nil_or_concat' js).resolve_left fun hnil => ?_
    rw [hnil, hinit] at hjs
    simp at hjs
  have hsplit := hjs
  rw [hinit, List.map_append] at hsplit
  obtain ⟨hjs', htail⟩ := List.append_inj' hsplit rfl
  have htail : tail.toNat = c.length / b.toNat := by simpa using htail
  refine ⟨js', tail, rfl, fun i hi => Nat.le_of_not_lt fun hshort => ?_, ?_⟩
  · -- a short block would be the tail, whose index is above this one's
    have hmem := toNat_mem_sentIndices hjs (List.mem_append_left [tail] hi)
    have heq := ((short_sent_iff hb hmem).mp hshort).1
    have hbelow := hlt i.toNat (by rw [← hjs']; exact List.mem_map_of_mem hi)
    omega
  · exact (short_sent_iff hb (toNat_mem_sentIndices hjs (by simp))).mpr ⟨htail, hfin⟩

end Sent

/-! ### The run up to the blocks -/

/-- Both sides use the block size `b`, the client's file at `p` is `c`, the server's is `s`,
and every file operation succeeds. The session may have any history before. -/
structure Meeting (env : Env) (cl : TcpClient) (fsC : FileSystem) (srv : Server) (p : String)
    (t : LexPath.Text) (b : UInt32) (c s : Bytes) : Prop where
  blockSize_ne : b ≠ 0
  connected : cl.connected = true
  blockSize : cl.blockSize = b
  engine_blockSize : cl.deltaEngine.fileOps.blockSize = b
  readable : cl.fileOps.Readable fsC p c
  engine_readable : cl.deltaEngine.fileOps.Readable fsC p c
  idle : srv.uploading = false
  up : srv.crash = none
  negotiated : srv.session.negotiatedBlockSize = b
  ready : env.fm.Ready srv.fs p t
  stored : srv.fs.node (srv.fs.locate (cStr t)) = some (.file s)
  stored_lt : s.length < maxOffset
  no_collision : NoCollision env.sha256 b.toNat c s

/-- Such a run, with no scratch file beside the server's file. -/
structure Setup (env : Env) (cl : TcpClient) (fsC : FileSystem) (srv : Server) (p : String)
    (t : LexPath.Text) (b : UInt32) (c s : Bytes) : Prop extends
    Meeting env cl fsC srv p t b c s where
  no_scratch : srv.fs.node (srv.fs.locate (cTmp t)) = none

/-- Without a scratch file beside it, the file is not its own scratch file. -/
theorem Setup.nul_not_mem {env : Env} {cl : TcpClient} {fsC : FileSystem} {srv : Server}
    {p : String} {t : LexPath.Text} {b : UInt32} {c s : Bytes}
    (h : Setup env cl fsC srv p t b c s) : nul ∉ t := by
  intro hnul
  have hstored := h.stored
  rw [← (locate_cTmp_eq_iff srv.fs t).mpr hnul, h.no_scratch] at hstored
  exact absurd hstored (by simp)

/-- A connected client with the sync root `c`. -/
def sampleClient (b : UInt32) : TcpClient :=
  { TcpClient.new "rust-client-1" "c" b with connected := true }

/-- A session ready to serve the file `f`. -/
def sampleServer (b : UInt32) (s : Bytes) : Server :=
  (Server.new b (FileSystem.single ['s'] ['f'] (some s))).setState .ready

theorem setup_sample {b : UInt32} {c s : Bytes} (hb : b ≠ 0) (hc : c.length < maxOffset)
    (hs : s.length < maxOffset) (hcoll : NoCollision sha256Hex b.toNat c s) :
    Setup storageEnv (sampleClient b) (FileSystem.single ['c'] ['f'] (some c)) (sampleServer b s)
      "f" "s/f".toList b c s where
  blockSize_ne := hb
  connected := rfl
  blockSize := rfl
  engine_blockSize := rfl
  readable := readable_single b hc
  engine_readable := readable_single b hc
  idle := rfl
  up := rfl
  negotiated := rfl
  ready := (serves_single ⟨some s, by simpa using hs⟩).toReady
  stored := (serves_single ⟨some s, by simpa using hs⟩).node
  stored_lt := hs
  no_scratch := by
    change (FileSystem.single ['s'] ['f'] (some s)).node _ = none
    rw [show FileSystem.locate _ _ = [['s'], "f.tmp".toList] from by rfl, FileSystem.node_single]
    simp
  no_collision := hcoll

section Run

variable {env : Env} {cl : TcpClient} {fsC : FileSystem} {srv : Server} {p : String}
  {t : LexPath.Text} {b : UInt32} {c s : Bytes}

/-- `delta_sync_upload` of `p`. -/
def upload (env : Env) (cl : TcpClient) (fsC : FileSystem) (p : String) : Fallible String :=
  cl.deltaSyncUpload env.proto env.sha256 fsC p

/-- The session answers the signatures with what the handler requests. -/
theorem step_signatures (hidle : srv.uploading = false) {size : UInt64}
    {sigs : List ClientBlockSignature} {is : List UInt32}
    (hreq : DeltaSyncHandler.handleSignatureRequest env.sha256 env.fm srv.fs p size b
      (sigs.map ClientBlockSignature.received) = .ok ⟨p, is⟩) :
    Server.step env srv (message env.proto.deltaSyncSignatureRequest .deltaSyncSignatureRequest
      (DeltaSyncEngine.buildSignatureRequest p size b sigs)) =
        (srv.setState .ready, [.frame (message env.proto.deltaSyncBlockRequest
          .deltaSyncBlockRequest ⟨p, is⟩)]) := by
  have hmap : (DeltaSyncEngine.buildSignatureRequest p size b sigs).signatures.map (fun sig =>
      (⟨sig.blockIndex, sig.rollingHash, sig.strongHash, sig.blockOffset, sig.blockSize⟩ :
        DeltaBlockSignature)) = sigs.map ClientBlockSignature.received := by
    simp only [DeltaSyncEngine.buildSignatureRequest, List.map_map]
    rfl
  rw [Server.step_of_idle hidle, Server.dispatch_signatureRequest rfl,
    Server.handleDeltaSyncSignatureRequest]
  simp only [message, Codec.decode_encode, hmap]
  simp only [DeltaSyncEngine.buildSignatureRequest, hreq]

/-- The blocks among the frames a client sent. -/
def blocksOf (env : Env) (sent : List WireFrame) : List DeltaSyncBlockData :=
  sent.filterMap fun f =>
    if f.messageType = MessageType.deltaSyncBlockData.code then
      env.proto.deltaSyncBlockData.decode f.payload
    else none

/-- The completions among what a session sent. -/
def completionsOf (served : List Sent) : List Sent :=
  served.filter fun i =>
    match i with
    | .frame f => f.messageType = MessageType.deltaSyncComplete.code
    | .raw _ _ => false

theorem blocksOf_append (env : Env) (xs ys : List WireFrame) :
    blocksOf env (xs ++ ys) = blocksOf env xs ++ blocksOf env ys := List.filterMap_append

theorem blocksOf_blockFrames (env : Env) (ds : List DeltaSyncBlockData) :
    blocksOf env (TcpClient.blockFrames env.proto ds) = ds := by
  unfold blocksOf TcpClient.blockFrames
  rw [List.filterMap_map]
  refine (List.filterMap_congr fun d _ => ?_).trans List.filterMap_some
  simp [message]

/-- The run up to the point where the requested blocks are about to be sent. -/
theorem exec_upload (h : Meeting env cl fsC srv p t b c s) :
    ∃ (js : List UInt32) (l : Link Server WireFrame Sent Accepted),
      js.map UInt32.toNat = sentIndices b c s ∧
      Merging env l.server p t b (srv.fs.bytesAt (srv.fs.locate (cTmp t))) ∧
      l.server.fs = srv.fs ∧
      l.toServer = [] ∧ l.toClient = [] ∧ blocksOf env l.sent = [] ∧ completionsOf l.served = [] ∧
      exec (machine env) Sent.view (upload env cl fsC p) (Link.start srv) =
        exec (machine env) Sent.view
          (sendAll (TcpClient.blockFrames env.proto (js.map (blockDataAt env.sha256 p b c)))
            (TcpClient.awaitCompletion env.proto)) l := by
  have hserves : Serves env.fm srv.fs p t ⟨some s, by simpa using h.stored_lt⟩ :=
    { h.ready with node := h.stored }
  have hb : cl.deltaEngine.fileOps.blockSize ≠ 0 := by
    rw [h.engine_blockSize]
    exact h.blockSize_ne
  have hcoll : NoCollision env.sha256 cl.deltaEngine.fileOps.blockSize.toNat c s := by
    rw [h.engine_blockSize]
    exact h.no_collision
  -- what the server asks for is the delta
  obtain ⟨sigs, is, hsigs, hreq, his⟩ :=
    handleSignatureRequest_computed h.engine_readable hb hserves hcoll
  have hblocks := DeltaSyncEngine.readRequestedBlocks_eq env.sha256 h.engine_readable is
  rw [h.engine_blockSize] at hreq his hblocks
  change is.map UInt32.toNat =
    delta b.toNat c s (reported b c.length) (reported b s.length) at his
  have hstep := step_signatures h.idle hreq
  have hup : (machine env).down srv = false := by simp [machine, h.up]
  -- one request has gone out, and its answer has been taken
  let l : Link Server WireFrame Sent Accepted := {
    toServer := []
    toClient := []
    server := srv.setState .ready
    sent := [message env.proto.deltaSyncSignatureRequest .deltaSyncSignatureRequest
      (DeltaSyncEngine.buildSignatureRequest p (UInt64.ofNat c.length) b sigs)]
    served := [.frame (message env.proto.deltaSyncBlockRequest .deltaSyncBlockRequest ⟨p, is⟩)]
    log := [⟨.blockRequest,
      message env.proto.deltaSyncBlockRequest .deltaSyncBlockRequest ⟨p, is⟩⟩] }
  refine ⟨is.filter fun i => i.toNat * b.toNat < c.length, l, ?_, ?_, rfl, rfl, rfl, ?_, ?_, ?_⟩
  · rw [sentIndices, ← his, List.filter_map]
    rfl
  · exact {
      idle := h.idle
      up := h.up
      negotiated := h.negotiated
      ready := h.ready
      scratch := rfl }
  · simp [l, blocksOf, message, MessageType.code]
  · simp [l, completionsOf, message, MessageType.code]
  · have hdeliver : (Link.start srv : Link Server WireFrame Sent Accepted).deliver (machine env)
        (message env.proto.deltaSyncSignatureRequest .deltaSyncSignatureRequest
          (DeltaSyncEngine.buildSignatureRequest p (UInt64.ofNat c.length) b sigs)) =
        { l with
          toClient := [.frame (message env.proto.deltaSyncBlockRequest
            .deltaSyncBlockRequest ⟨p, is⟩)]
          log := [] } := by
      rw [Link.deliver_of_up hup]
      simp only [machine, Link.start, hstep, l, List.nil_append]
    simp only [upload, TcpClient.deltaSyncUpload, h.connected, Bool.not_true, Bool.false_eq_true,
      if_false, hsigs, h.readable.fileSize, onOk, h.blockSize, exec, hdeliver]
    rw [exec_readFrame rfl rfl, exec_accept (Codec.decode_encode _ _)]
    simp only [hblocks]
    rfl

/-! ### How the run ends -/

/-- The messages of the run carry blocks of the client's file. -/
theorem carries_blockDataAt (hc : c.length < maxOffset) (p : String) {i : UInt32}
    (hi : i.toNat * b.toNat < c.length) :
    Carries env.sha256 p (blockDataAt env.sha256 p b c i) where
  path := rfl
  hash := rfl
  fits := by
    simp only [blockDataAt, toNat_offset (toNat_mul_lt i b), length_block]
    omega

/-- The client waits for the completion, the server for the next frame, and both channels
are empty. -/
def WaitsForever (env : Env) (cfg : Config Server WireFrame Sent WireFrame Accepted
    (Except ClientError String)) : Prop :=
  cfg.client = TcpClient.awaitCompletion env.proto ∧
    (cfg.link.server.crash = none ∧ cfg.link.server.uploading = false) ∧
    cfg.link.toServer = [] ∧ cfg.link.toClient = []

/-- Of the blocks of the run exactly the last was judged final, and it was answered with
the only completion. -/
def LastAloneFinal (env : Env) (b : UInt32) (l : Link Server WireFrame Sent Accepted) : Prop :=
  (∃ init last, blocksOf env l.sent = init ++ [last] ∧ (∀ d ∈ init, b.toNat ≤ d.data.length) ∧
    last.data.length < b.toNat) ∧ (completionsOf l.served).length = 1

/-- Without a short block nothing is answered, and the client waits for ever. -/
theorem exec_of_not_finishes (h : Meeting env cl fsC srv p t b c s) (hfin : ¬ Finishes b c s) :
    WaitsForever env (exec (machine env) Sent.view (upload env cl fsC p) (Link.start srv)) ∧
      ¬ LastAloneFinal env b
        (exec (machine env) Sent.view (upload env cl fsC p) (Link.start srv)).link := by
  obtain ⟨js, l, hjs, hmerging, -, hts, htc, hblocks, -, hexec⟩ := exec_upload h
  have hmem : ∀ i ∈ js, i.toNat ∈ sentIndices b c s := fun i hi => toNat_mem_sentIndices hjs hi
  -- a short block would be the tail, and the tail is not sent
  have hfull : ∀ d ∈ js.map (blockDataAt env.sha256 p b c),
      Carries env.sha256 p d ∧ b.toNat ≤ d.data.length := by
    intro d hd
    obtain ⟨i, hi, rfl⟩ := List.mem_map.mp hd
    refine ⟨carries_blockDataAt h.readable.length_lt p (lt_of_mem_sentIndices (hmem i hi)), ?_⟩
    refine Nat.le_of_not_lt fun hshort => hfin ?_
    exact ((short_sent_iff h.blockSize_ne (hmem i hi)).mp hshort).2
  obtain ⟨srv', hmerged, -, hfold⟩ := deliver_full _ hfull hmerging
  have hup : (machine env).down srv' = false := by simp [machine, hmerged.up]
  -- nothing was answered, so the client is left waiting
  have hwait : exec (machine env) Sent.view (TcpClient.awaitCompletion env.proto)
      { l with
        server := srv'
        sent := l.sent ++ TcpClient.blockFrames env.proto
          (js.map (blockDataAt env.sha256 p b c)) } =
        ⟨TcpClient.awaitCompletion env.proto, _⟩ := exec_recv_nil htc hup
  rw [hexec, sendAll, exec_sends, hfold, hwait]
  refine ⟨⟨rfl, ⟨hmerged.up, hmerged.idle⟩, hts, htc⟩, ?_⟩
  -- no block sent was short, so none was last and final
  rintro ⟨⟨init, last, hsplit, -, hshort⟩, -⟩
  rw [blocksOf_append, hblocks, blocksOf_blockFrames, List.nil_append] at hsplit
  have := (hfull last (by rw [hsplit]; simp)).2
  omega

/-- What a finished run commits: the blocks that were sent, at their places, over what was in
the scratch file. -/
def committedOver (base : Bytes) (b : UInt32) (c s : Bytes) : Bytes :=
  writeBlocks 0 b.toNat c base (sentIndices b c s)

/-- What it commits where there was no scratch file: zeros between the blocks. -/
def committed (b : UInt32) (c s : Bytes) : Bytes :=
  writeBlocks 0 b.toNat c [] (sentIndices b c s)

/-- With a short block the run ends: the scratch file is committed and its hash returned, and
the session is ready for the next request. -/
theorem exec_finishes (h : Meeting env cl fsC srv p t b c s) (hfin : Finishes b c s) :
    ∃ l x, x = committedOver (srv.fs.bytesAt (srv.fs.locate (cTmp t))) b c s ∧
      exec (machine env) Sent.view (upload env cl fsC p) (Link.start srv) =
        ⟨.ret (.ok (env.sha256 x)), l⟩ ∧ LastAloneFinal env b l ∧
      (∃ left, Merging env l.server p t b left) ∧ l.toServer = [] ∧ l.toClient = [] ∧
      FileManager.Commits srv.fs l.server.fs t x := by
  obtain ⟨js, l, hjs, hmerging, hfs, hts, htc, hblocks, hcomp, hexec⟩ := exec_upload h
  -- the tail is sent last
  obtain ⟨init, tail, rfl, hinit, hshort⟩ := exists_tail_of_finishes h.blockSize_ne hfin hjs
  have hcarries : ∀ i ∈ init ++ [tail], Carries env.sha256 p (blockDataAt env.sha256 p b c i) :=
    fun i hi => carries_blockDataAt h.readable.length_lt p
      (lt_of_mem_sentIndices (toNat_mem_sentIndices hjs hi))
  have hfull : ∀ d ∈ init.map (blockDataAt env.sha256 p b c),
      Carries env.sha256 p d ∧ b.toNat ≤ d.data.length := by
    intro d hd
    obtain ⟨i, hi, rfl⟩ := List.mem_map.mp hd
    exact ⟨hcarries i (List.mem_append_left _ hi), hinit i hi⟩
  obtain ⟨srv₁, hmerged, hgrows, hfold⟩ := deliver_full _ hfull hmerging
  obtain ⟨srv₂, hstep, hready, hcommits⟩ := hmerged.step_short (hcarries tail (by simp)) hshort
  -- the tail completes the blocks merged before it
  have hwritten : writeAt 0 (writeAll 0 (srv.fs.bytesAt (srv.fs.locate (cTmp t)))
      (writesOf (init.map (blockDataAt env.sha256 p b c))))
      (blockDataAt env.sha256 p b c tail).blockOffset.toNat
      (blockDataAt env.sha256 p b c tail).data =
        committedOver (srv.fs.bytesAt (srv.fs.locate (cTmp t))) b c s := by
    have happ := writeAll_writesOf env.sha256 p c (srv.fs.bytesAt (srv.fs.locate (cTmp t)))
      (b := b) (init ++ [tail])
    rw [hjs, List.map_append] at happ
    rw [committedOver, ← happ]
    simp only [writesOf, List.map_append, writeAll_append]
    rfl
  rw [hwritten] at hstep hcommits
  replace hcommits := hcommits.of_grows hgrows
  rw [hfs] at hcommits
  have hup₁ : (machine env).down srv₁ = false := by simp [machine, hmerged.up]
  -- the full blocks are merged silently, the tail is answered, and the answer is taken
  rw [hexec, sendAll, exec_sends, List.map_append, TcpClient.blockFrames, List.map_append,
    List.foldl_append, ← TcpClient.blockFrames, hfold]
  simp only [List.map_cons, List.map_nil, List.foldl_cons, List.foldl_nil]
  rw [Link.deliver_of_up hup₁]
  simp only [machine, hstep]
  rw [TcpClient.awaitCompletion, exec_readFrame (by rw [htc]; rfl) rfl,
    exec_accept (Codec.decode_encode _ _)]
  simp only [ne_eq, not_true_eq_false, if_false]
  refine ⟨_, _, rfl, rfl, ⟨⟨init.map (blockDataAt env.sha256 p b c),
    blockDataAt env.sha256 p b c tail, ?_, fun d hd => (hfull d hd).2, hshort⟩, ?_⟩, hready, hts,
    rfl, hcommits⟩
  · rw [blocksOf_append, blocksOf_append, hblocks, blocksOf_blockFrames]
    simp [blocksOf, message]
  · change (completionsOf (l.served ++ _)).length = 1
    rw [completionsOf, List.filter_append, ← completionsOf, hcomp]
    simp [message]

/-- The end of a run that began without a scratch file. It leaves none. -/
theorem exec_commits (h : Setup env cl fsC srv p t b c s) (hfin : Finishes b c s) :
    ∃ l, exec (machine env) Sent.view (upload env cl fsC p) (Link.start srv) =
        ⟨.ret (.ok (env.sha256 (committed b c s))), l⟩ ∧
      Merging env l.server p t b [] ∧ l.toServer = [] ∧ l.toClient = [] ∧
      FileManager.Commits srv.fs l.server.fs t (committed b c s) := by
  obtain ⟨l, x, hx, hexec, -, ⟨left, hmerging⟩, hts, htc, hcommits⟩ :=
    exec_finishes h.toMeeting hfin
  rw [FileSystem.bytesAt_of_none h.no_scratch, committedOver, ← committed] at hx
  subst hx
  refine ⟨l, hexec, { hmerging with scratch := ?_ }, hts, htc, hcommits⟩
  rw [FileSystem.locate_congr hcommits.grows.os]
  exact FileSystem.bytesAt_of_none (hcommits.no_scratch h.nul_not_mem)

/-- The file such a run leaves. -/
theorem exec_of_finishes (h : Setup env cl fsC srv p t b c s) (hfin : Finishes b c s) :
    ∃ l, exec (machine env) Sent.view (upload env cl fsC p) (Link.start srv) =
        ⟨.ret (.ok (env.sha256 (committed b c s))), l⟩ ∧
      l.server.fs.node (l.server.fs.locate (cStr t)) = some (.file (committed b c s)) := by
  obtain ⟨l, hexec, -, -, -, hcommits⟩ := exec_commits h hfin
  refine ⟨l, hexec, ?_⟩
  rw [FileSystem.locate_congr hcommits.grows.os]
  exact hcommits.node

/-- Every configuration of the run. -/
def Reachable (env : Env) (cl : TcpClient) (fsC : FileSystem) (srv : Server) (p : String) :
    Config Server WireFrame Sent WireFrame Accepted (Except ClientError String) → Prop :=
  Reach (machine env) Sent.view ⟨upload env cl fsC p, Link.start srv⟩

theorem settled_start (env : Env) (srv : Server) :
    (Link.start srv : Link Server WireFrame Sent Accepted).Settled (machine env) := Or.inl rfl

/-- A run that waits for ever has ended where the eager schedule ends. -/
theorem eq_exec_of_waitsForever {cfg : Config Server WireFrame Sent WireFrame Accepted
    (Except ClientError String)} (hreach : Reachable env cl fsC srv p cfg)
    (hwait : WaitsForever env cfg) :
    cfg = exec (machine env) Sent.view (upload env cl fsC p) (Link.start srv) := by
  obtain ⟨hclient, ⟨hup, -⟩, hts, htc⟩ := hwait
  have hstuck : Stuck (machine env) cfg := ⟨⟨_, hclient⟩, by simp [machine, hup], hts, htc⟩
  exact eq_exec_of_terminal (settled_start env srv) hreach hstuck.terminal

/-- **When a run gets stuck.** No interleaving leaves the client waiting for the completion
of a server that waits for the next frame, exactly when the client's file ends in a short
block that is sent; and then, and only then, a run that has ended had its last block alone
judged final and answered by the only completion. -/
theorem never_waits_forever_iff (h : Meeting env cl fsC srv p t b c s) :
    ((¬ ∃ cfg, Reachable env cl fsC srv p cfg ∧ WaitsForever env cfg) ↔ Finishes b c s) ∧
      ∀ cfg, Reachable env cl fsC srv p cfg → Terminal (machine env) Sent.view cfg →
        (LastAloneFinal env b cfg.link ↔ Finishes b c s) := by
  constructor
  · constructor
    · intro hnever
      by_contra hfin
      -- the eager schedule is itself a run that waits
      exact hnever ⟨_, exec_reach _ (settled_start env srv), (exec_of_not_finishes h hfin).1⟩
    · rintro hfin ⟨cfg, hreach, hwait⟩
      obtain ⟨l, x, -, hexec, -⟩ := exec_finishes h hfin
      -- a run that waits ended where the eager one did, and that one returned
      have hclient := hwait.1
      rw [eq_exec_of_waitsForever hreach hwait, hexec] at hclient
      exact absurd hclient (by simp [TcpClient.awaitCompletion, readFrame])
  · intro cfg hreach hterm
    rw [eq_exec_of_terminal (settled_start env srv) hreach hterm]
    constructor
    · intro hlast
      by_contra hfin
      exact (exec_of_not_finishes h hfin).2 hlast
    · intro hfin
      obtain ⟨l, x, -, hexec, hlast, -⟩ := exec_finishes h hfin
      rw [hexec]
      exact hlast

/-- A new one-byte file is answered. -/
theorem never_waits_forever_one_byte :
    ¬ ∃ cfg, Reachable storageEnv (sampleClient 4096) (FileSystem.single ['c'] ['f'] (some [1]))
      (sampleServer 4096 []) "f" cfg ∧ WaitsForever storageEnv cfg :=
  (never_waits_forever_iff (setup_sample (by decide) (by decide) (by decide)
    fun i _ h => absurd h (by simp)).toMeeting).1.mpr ⟨by decide, by decide, by decide⟩

/-- A client whose file has become empty requests a delta sync, is asked for the block the
server still has, has no block to send, and waits. -/
theorem waits_forever_empty_file :
    Meeting storageEnv (sampleClient 4096) (FileSystem.single ['c'] ['f'] (some []))
        (sampleServer 4096 [1]) "f" "s/f".toList 4096 [] [1] ∧
      ∃ cfg, Reachable storageEnv (sampleClient 4096) (FileSystem.single ['c'] ['f'] (some []))
        (sampleServer 4096 [1]) "f" cfg ∧ WaitsForever storageEnv cfg := by
  have h := @setup_sample 4096 [] [1] (by decide) (by decide) (by decide)
    fun i h => absurd h (by simp)
  exact ⟨h.toMeeting, _, exec_reach _ (settled_start _ _),
    (exec_of_not_finishes h.toMeeting (by simp [Finishes])).1⟩

/-! ### What the run leaves on the server -/

/-- Every block of the client's file that the server has at the same index, and that is
therefore not sent, is zero. -/
def UnsentZero (b : UInt32) (c s : Bytes) : Prop :=
  ∀ i, i < count b.toNat c.length → i < reported b s.length →
    block b.toNat c i = block b.toNat s i → ∀ x ∈ block b.toNat c i, x = 0

/-- What is not sent, of a file whose tail is sent. -/
theorem not_mem_sentIndices_iff (hb : b ≠ 0) (hfin : Finishes b c s) {i : ℕ}
    (hi : i * b.toNat < c.length) :
    i ∉ sentIndices b c s ↔
      i < reported b s.length ∧ block b.toNat c i = block b.toNat s i := by
  have hcount : i < count b.toNat c.length := (lt_count_iff (toNat_pos hb) _ _).mpr hi
  have hrep : reported b c.length = count b.toNat c.length := Nat.mod_eq_of_lt hfin.2.1
  rw [sentIndices, List.mem_filter, mem_delta, hrep]
  have hmax : i < max (count b.toNat c.length) (reported b s.length) :=
    lt_of_lt_of_le hcount (le_max_left _ _)
  simp only [hi, hcount, hmax, decide_true, and_true, true_and, not_not]

/-- The committed file is the client's exactly when nothing but zeros was left out. -/
theorem committed_eq_iff (hb : b ≠ 0) (hfin : Finishes b c s) :
    committed b c s = c ↔ UnsentZero b c s := by
  have hpos := toNat_pos hb
  -- the block of the last byte is the tail, so the length is right
  have hlast : (c.length - 1) / b.toNat ∈ sentIndices b c s := by
    have hdiv := Nat.div_add_mod c.length b.toNat
    have hmod := Nat.mod_lt c.length hpos
    have htail := hfin.1
    have heq : (c.length - 1) / b.toNat = c.length / b.toNat := by
      rw [Nat.div_eq_iff hpos, Nat.mul_comm]
      omega
    rw [heq]
    exact (tail_mem_sentIndices_iff hb htail).mpr hfin
  rw [committed, writeBlocks_eq_iff 0 hpos _ _ _ (by simp) (Or.inr hlast)]
  constructor
  · intro h i hi hS heq x hx
    -- byte `k` of an unsent block is cell `i * b + k` of the file, which nobody wrote
    obtain ⟨k, hk, rfl⟩ := List.getElem_of_mem hx
    have hkb : k < b.toNat := by
      rw [length_block] at hk
      omega
    have hcell : i * b.toNat + k < c.length := by
      rw [length_block] at hk
      omega
    have hdiv : (i * b.toNat + k) / b.toNat = i := by
      rw [Nat.div_eq_iff hpos]
      omega
    have hin := (lt_count_iff hpos _ _).mp hi
    have hzero := h _ hcell (by
      rw [hdiv]
      exact (not_mem_sentIndices_iff hb hfin hin).mpr ⟨hS, heq⟩)
    rw [← getD_block 0 b.toNat c i k hkb, List.getD_eq_getElem _ _ hk] at hzero
    exact hzero
  · intro h j hj hout
    -- cell `j` lies in a block that was not sent, and is zero there
    have hin : j / b.toNat * b.toNat < c.length := lt_of_le_of_lt (Nat.div_mul_le_self _ _) hj
    obtain ⟨hS, heq⟩ := (not_mem_sentIndices_iff hb hfin hin).mp hout
    have hmod := Nat.mod_lt j hpos
    have hcell : (block b.toNat c (j / b.toNat)).getD (j % b.toNat) 0 = c.getD j 0 := by
      rw [getD_block 0 b.toNat c _ _ hmod, Nat.mul_comm, Nat.div_add_mod]
    have hlen : j % b.toNat < (block b.toNat c (j / b.toNat)).length := by
      have hdiv := Nat.div_add_mod j b.toNat
      rw [length_block, Nat.mul_comm]
      omega
    rw [← hcell, List.getD_eq_getElem _ _ hlen]
    exact h _ ((lt_count_iff hpos _ _).mpr hin) hS heq _ (List.getElem_mem hlen)

/-- A run that has ended with `Ok(h)` left the client's file on the server, and `h` is its
hash. -/
def Reconstructs (env : Env) (cl : TcpClient) (fsC : FileSystem) (srv : Server) (p : String)
    (t : LexPath.Text) (c : Bytes) : Prop :=
  ∀ cfg hash, Reachable env cl fsC srv p cfg → Terminal (machine env) Sent.view cfg →
    cfg.client = .ret (.ok hash) →
      cfg.link.server.fs.node (cfg.link.server.fs.locate (cStr t)) = some (.file c) ∧
        hash = env.sha256 c

/-- A run that ended and reconstructed the file left out nothing but zeros. -/
theorem Reconstructs.unsentZero (hrec : Reconstructs env cl fsC srv p t c)
    (h : Setup env cl fsC srv p t b c s) (hfin : Finishes b c s) : UnsentZero b c s := by
  obtain ⟨l, hexec, hnode⟩ := exec_of_finishes h hfin
  have hreach : Reachable env cl fsC srv p _ := exec_reach _ (settled_start env srv)
  have hterm : Terminal (machine env) Sent.view
      (exec (machine env) Sent.view (upload env cl fsC p) (Link.start srv)) :=
    exec_terminal _ (settled_start env srv)
  rw [hexec] at hreach hterm
  have hfile := (hrec _ _ hreach hterm rfl).1
  rw [hnode] at hfile
  rw [← committed_eq_iff h.blockSize_ne hfin]
  simpa using hfile

/-- **When a run reconstructs the file.** A run that returns `Ok` has left the client's file
on the server exactly when every block it did not send is zero. -/
theorem reconstructs_iff (h : Setup env cl fsC srv p t b c s) :
    Reconstructs env cl fsC srv p t c ↔ (Finishes b c s → UnsentZero b c s) := by
  constructor
  · intro hrec hfin
    exact hrec.unsentZero h hfin
  · intro hzero cfg hash hreach hterm hclient
    rw [eq_exec_of_terminal (settled_start env srv) hreach hterm] at hclient ⊢
    by_cases hfin : Finishes b c s
    · obtain ⟨l, hexec, hnode⟩ := exec_of_finishes h hfin
      rw [hexec] at hclient ⊢
      rw [(committed_eq_iff h.blockSize_ne hfin).mpr (hzero hfin)] at hclient hnode
      exact ⟨hnode, by simpa using hclient.symm⟩
    · -- a run that does not finish returns nothing
      have hwait := (exec_of_not_finishes h.toMeeting hfin).1.1
      rw [hclient] at hwait
      exact absurd hwait (by simp [TcpClient.awaitCompletion, readFrame])

end Run

/-- A new one-byte file arrives. -/
theorem reconstructs_one_byte :
    Reconstructs storageEnv (sampleClient 4096) (FileSystem.single ['c'] ['f'] (some [1]))
      (sampleServer 4096 []) "f" "s/f".toList [1] :=
  (reconstructs_iff (setup_sample (by decide) (by decide) (by decide)
    fun i _ h => absurd h (by simp))).mpr fun _ i _ h => absurd h (by simp [reported, count])

/-- One block of ones, and the byte `x`. -/
def blockAndByte (b : UInt32) (x : UInt8) : Bytes := List.replicate b.toNat 1 ++ [x]

section BlockAndByte

variable (b : UInt32) (x : UInt8)

theorem length_blockAndByte : (blockAndByte b x).length = b.toNat + 1 := by simp [blockAndByte]

theorem block_zero_blockAndByte :
    block b.toNat (blockAndByte b x) 0 = List.replicate b.toNat 1 := by
  simp [block, blockAndByte]

theorem block_one_blockAndByte (hb : 0 < b.toNat) : block b.toNat (blockAndByte b x) 1 = [x] := by
  simp [block, blockAndByte, List.take_of_length_le, Nat.succ_le_of_lt hb]

end BlockAndByte

/-- Two files with the same first block and different last bytes. The client sends the last
block only, and the server commits it after a block of zeros. -/
theorem not_reconstructs_last_byte :
    Setup storageEnv (sampleClient 4096)
        (FileSystem.single ['c'] ['f'] (some (blockAndByte 4096 1)))
        (sampleServer 4096 (blockAndByte 4096 2)) "f" "s/f".toList 4096
        (blockAndByte 4096 1) (blockAndByte 4096 2) ∧
      ¬ Reconstructs storageEnv (sampleClient 4096)
        (FileSystem.single ['c'] ['f'] (some (blockAndByte 4096 1)))
        (sampleServer 4096 (blockAndByte 4096 2)) "f" "s/f".toList (blockAndByte 4096 1) := by
  have hpos : 0 < (4096 : UInt32).toNat := by decide
  have hcoll : NoCollision sha256Hex (4096 : UInt32).toNat (blockAndByte 4096 1)
      (blockAndByte 4096 2) := by
    intro i hi _ heq
    rw [length_blockAndByte] at hi
    change i * 4096 < 4096 + 1 at hi
    rcases (show i = 0 ∨ i = 1 by omega) with rfl | rfl
    · rw [block_zero_blockAndByte, block_zero_blockAndByte]
    · rw [block_one_blockAndByte _ _ hpos, block_one_blockAndByte _ _ hpos] at heq
      exact absurd heq (by decide +kernel)
  have hlen : ∀ x, (blockAndByte 4096 x).length < maxOffset := fun x => by
    rw [length_blockAndByte]
    decide
  have h := setup_sample (b := 4096) (by decide) (hlen 1) (hlen 2) hcoll
  refine ⟨h, fun hrec => ?_⟩
  have hfin : Finishes 4096 (blockAndByte 4096 1) (blockAndByte 4096 2) := by
    rw [Finishes, length_blockAndByte, show ((4096 : UInt32).toNat + 1) / (4096 : UInt32).toNat = 1
      by decide, block_one_blockAndByte _ _ hpos, block_one_blockAndByte _ _ hpos]
    exact ⟨by decide, by decide, fun hc => absurd hc.2 (by decide)⟩
  -- block 0 is equal on both sides, was not sent, and is not zero
  have hzero := hrec.unsentZero h hfin 0
  rw [length_blockAndByte, length_blockAndByte, block_zero_blockAndByte,
    block_zero_blockAndByte] at hzero
  exact absurd (hzero (by decide) (by decide) rfl 1 (List.mem_replicate.mpr ⟨by decide, rfl⟩))
    (by decide)

end AdaptiveSync
