import AdaptiveSync.Protocol.DeltaRun

/-!
# Downloads, and the first synchronisation of a file

One client runs `download_file` or `sync_file` against one idle session, over two FIFO
channels and in any interleaving.

A file that is there and not empty is sent, written and hashed (`exec_download_served`). The
server refuses everything else with an `ErrorPayload`, and goes back to waiting for a
request. The client is in `read_expected` then, which skips frames of other types: it skips
the refusal and waits for a header that does not come (`exec_download_refused`). Hence a
download ends exactly when there is something to send, or the path ends the server
(`downloadEnds_iff`).

`sync_file` takes the mode `FRESH`, by which the server says that it does not have the file,
for a file that the client does not have, and downloads it. What it asks for is not there,
and so a first synchronisation never returns `Ok` (`not_syncDelivers`).
-/

namespace AdaptiveSync

open Fs Duplex
open LexPath (cStr)

/-! ### What the server sends -/

section SendFile

variable {env : Env} {fs : FileSystem} {p : String} {t : LexPath.Text}

theorem sendFile_of_not_exists (offset : UInt64) (hresolve : env.fm.resolvePath p = .ok t)
    (h : env.fm.fileExists fs p = .ok false) : sendFile env fs p offset = (.ok false, []) := by
  simp only [sendFile, hresolve, h, Except.ok_bind, Bool.not_false, if_true]
  rfl

theorem sendFile_of_unresolved (offset : UInt64) {e : Crash}
    (hresolve : env.fm.resolvePath p = .error e) : sendFile env fs p offset = (.error e, []) := by
  simp only [sendFile, hresolve, Except.error_bind]

theorem sendFile_of_empty (hl : env.fm.Legible fs p t []) (offset : UInt64) :
    sendFile env fs p offset = (.ok false, []) := by
  simp only [sendFile, hl.resolves, hl.fileExists, hl.getFileSize,
    Except.ok_bind, Bool.not_true, Bool.false_eq_true, if_false]
  rfl

/-- The header of a download of the whole file. -/
def downloadHeader (env : Env) (p : String) (d : Bytes) : WireFrame :=
  message env.proto.zeroCopyDownloadHeader .zeroCopyDownloadHeader
    ⟨p, UInt64.ofNat d.length, env.sha256 d, 0⟩

theorem sendFile_of_file {d : Bytes} (hl : env.fm.Legible fs p t d) (hd : d ≠ [])
    (hlt : d.length < maxOffset) :
    sendFile env fs p 0 = (.ok true, [.frame (downloadHeader env p d), .raw d.length d]) := by
  have hsize := toNat_ofNat_of_lt hlt
  have hpos : 0 < d.length := List.length_pos_iff.mpr hd
  have hzero : UInt64.ofNat d.length ≠ 0 := fun hc => by
    rw [hc] at hsize
    exact absurd hsize (by simp; omega)
  have hle : ¬ UInt64.ofNat d.length ≤ 0 := fun hc => by
    rw [UInt64.le_iff_toNat_le, hsize] at hc
    exact absurd hc (by simp; omega)
  simp only [sendFile, hl.resolves, hl.fileExists, hl.getFileSize,
    hl.computeSha256 env.sha256, hl.openRead, hl.reads,
    Except.ok_bind, Bool.not_true, Bool.false_eq_true, if_false, pure, Except.pure, hzero, hle,
    UInt64.sub_zero, hsize]
  simp [downloadHeader]

end SendFile

section Request

variable {env : Env} {srv : Server} {p : String}

/-- The request of `download_file`. -/
def downloadRequest (env : Env) (p : String) : WireFrame :=
  message env.proto.zeroCopyDownloadRequest .zeroCopyDownloadRequest ⟨p, 0⟩

/-- A request that is refused is answered with an error, and nothing else happens. -/
theorem step_download_refused (h : Idle srv) (hsend : sendFile env srv.fs p 0 = (.ok false, [])) :
    Server.step env srv (downloadRequest env p) =
      (srv.setState .ready, [Server.sendError env .fileNotFound
        ("File not found or transfer failed: " ++ p)]) := by
  rw [Server.step_of_idle h.waiting, Server.dispatch_downloadRequest rfl,
    Server.handleZeroCopyDownloadRequest]
  simp only [downloadRequest, message, Codec.decode_encode, hsend, List.nil_append]

/-- A request that is served is answered with what `send_file` sends. -/
theorem step_download_served (h : Idle srv) {out : List Sent}
    (hsend : sendFile env srv.fs p 0 = (.ok true, out)) :
    Server.step env srv (downloadRequest env p) = (srv.setState .ready, out) := by
  rw [Server.step_of_idle h.waiting, Server.dispatch_downloadRequest rfl,
    Server.handleZeroCopyDownloadRequest]
  simp only [downloadRequest, message, Codec.decode_encode, hsend]

/-- A request for a path that is refused with an exception ends the process. -/
theorem step_download_crash (h : Idle srv) {e : Crash}
    (hsend : sendFile env srv.fs p 0 = (.error e, [])) :
    Server.step env srv (downloadRequest env p) = ((srv.setState .transferring).throw e, []) := by
  rw [Server.step_of_idle h.waiting, Server.dispatch_downloadRequest rfl,
    Server.handleZeroCopyDownloadRequest]
  simp only [downloadRequest, message, Codec.decode_encode, hsend]

end Request

/-! ### How a download ends -/

section Exec

variable {env : Env} {cl : TcpClient} {fsC : FileSystem} {p : String}
  {l : Link Server WireFrame Sent Accepted}

/-- The refusal is skipped, and the client waits for a header. -/
theorem exec_fetch_refused (hidle : Idle l.server) (hts : l.toServer = []) (htc : l.toClient = [])
    (hsend : sendFile env l.server.fs p 0 = (.ok false, [])) :
    ∃ k l', exec (machine env) Sent.view (TcpClient.fetch env.proto p) l = ⟨.recv k, l'⟩ ∧
      (machine env).down l'.server = false ∧ l'.toServer = [] ∧ l'.toClient = [] := by
  have hup : (machine env).down l.server = false := by simp [machine, hidle.up]
  have hup' : (machine env).down (l.server.setState .ready) = false := hup
  have hdeliver := Link.deliver_of_up hup (downloadRequest env p)
  simp only [machine, step_download_refused hidle hsend, htc, List.nil_append] at hdeliver
  have hfetch : exec (machine env) Sent.view (TcpClient.fetch env.proto p) l =
      exec (machine env) Sent.view (readExpected .zeroCopyDownloadHeader _ 100)
        (l.deliver (machine env) (downloadRequest env p)) := rfl
  rw [hfetch, machine, hdeliver, readExpected, exec_readFrame rfl rfl,
    if_neg (by simp [message, MessageType.code])]
  -- the channel is empty again
  exact ⟨_, _, exec_recv_nil rfl hup', hup', hts, rfl⟩

/-- **A refused download** leaves the client waiting for a server that waits for it. -/
theorem exec_download_refused (hconn : cl.connected = true) (hidle : Idle l.server)
    (hts : l.toServer = []) (htc : l.toClient = [])
    (hsend : sendFile env l.server.fs p 0 = (.ok false, [])) :
    Stuck (machine env)
      (exec (machine env) Sent.view (cl.downloadFile env.proto env.sha256 fsC p) l) := by
  obtain ⟨k, l', hfetch, hup, hts', htc'⟩ := exec_fetch_refused hidle hts htc hsend
  rw [TcpClient.downloadFile, hconn]
  simp only [Bool.not_true, Bool.false_eq_true, if_false]
  rw [exec_bind_of_recv hfetch]
  exact ⟨⟨_, rfl⟩, hup, hts', htc'⟩

/-- **A download that ends the server** fails with the connection. -/
theorem exec_download_crash (hconn : cl.connected = true) (hidle : Idle l.server)
    (htc : l.toClient = []) {e : Crash} (hsend : sendFile env l.server.fs p 0 = (.error e, [])) :
    ∃ l', exec (machine env) Sent.view (cl.downloadFile env.proto env.sha256 fsC p) l =
      ⟨.ret (.error closed, fsC), l'⟩ := by
  have hup : (machine env).down l.server = false := by simp [machine, hidle.up]
  have hdeliver := Link.deliver_of_up hup (downloadRequest env p)
  simp only [machine, step_download_crash hidle hsend, htc, List.append_nil] at hdeliver
  have hfetch : ∃ l', exec (machine env) Sent.view (TcpClient.fetch env.proto p) l =
      ⟨.ret (.error closed), l'⟩ := by
    change ∃ l', exec (machine env) Sent.view (readExpected .zeroCopyDownloadHeader _ 100)
      (l.deliver (machine env) (downloadRequest env p)) = _
    rw [machine, hdeliver]
    exact ⟨_, rfl⟩
  obtain ⟨l', hfetch⟩ := hfetch
  refine ⟨l', ?_⟩
  rw [TcpClient.downloadFile, hconn]
  simp only [Bool.not_true, Bool.false_eq_true, if_false]
  rw [exec_bind_of_ret hfetch]
  rfl

/-- The header and the data arrive. -/
theorem exec_fetch_served (hidle : Idle l.server) (htc : l.toClient = []) {d : Bytes}
    (hsend : sendFile env l.server.fs p 0 =
      (.ok true, [.frame (downloadHeader env p d), .raw d.length d])) :
    ∃ l', exec (machine env) Sent.view (TcpClient.fetch env.proto p) l =
      ⟨.ret (.ok (⟨p, UInt64.ofNat d.length, env.sha256 d, 0⟩, d)), l'⟩ := by
  have hup : (machine env).down l.server = false := by simp [machine, hidle.up]
  have hdeliver := Link.deliver_of_up hup (downloadRequest env p)
  simp only [machine, step_download_served hidle hsend, htc, List.nil_append] at hdeliver
  have hfetch : exec (machine env) Sent.view (TcpClient.fetch env.proto p) l =
      exec (machine env) Sent.view (readExpected .zeroCopyDownloadHeader _ 100)
        (l.deliver (machine env) (downloadRequest env p)) := rfl
  rw [hfetch, machine, hdeliver, readExpected, exec_readFrame rfl rfl,
    if_pos (by simp [downloadHeader, message, MessageType.code]),
    exec_accept (Codec.decode_encode _ _), exec_readFrame rfl (Sent.view_raw d)]
  exact ⟨_, rfl⟩

/-- What the client makes of a transfer it can write. -/
theorem keep_of_writeFile (sha256 : Bytes → String) {header : ZeroCopyDownloadHeader} {d : Bytes}
    {fsC' : FileSystem} (hquiet : fsC.Quiet)
    (hwrite : cl.fileOps.writeFile fsC p d = (.ok (), fsC')) :
    cl.keep sha256 fsC p (.ok (header, d)) =
      if header.sha256Hash ≠ "" ∧ sha256 d ≠ header.sha256Hash then
        (.error (.hashMismatch header.sha256Hash (sha256 d)), fsC')
      else (.ok (sha256 d), fsC') := by
  obtain ⟨hquiet', hstat⟩ := FileOps.stat_of_writeFile hquiet hwrite
  have hread : cl.fileOps.sha256File sha256 fsC' p = .ok (sha256 d) := by
    simp [FileOps.sha256File, FileOps.readAll, FileSystem.openRead, hquiet' .openRead _,
      hquiet' .read _, hstat]
  simp only [TcpClient.keep, hwrite, hread]

/-- **A served download** returns the hash of the file, and leaves the file on the local
disk. -/
theorem exec_download_served (hconn : cl.connected = true) (hidle : Idle l.server)
    (htc : l.toClient = []) {d : Bytes} {fsC' : FileSystem} (hquiet : fsC.Quiet)
    (hwrite : cl.fileOps.writeFile fsC p d = (.ok (), fsC'))
    (hsend : sendFile env l.server.fs p 0 =
      (.ok true, [.frame (downloadHeader env p d), .raw d.length d])) :
    ∃ l', exec (machine env) Sent.view (cl.downloadFile env.proto env.sha256 fsC p) l =
      ⟨.ret (.ok (env.sha256 d), fsC'), l'⟩ := by
  obtain ⟨l', hfetch⟩ := exec_fetch_served hidle htc hsend
  refine ⟨l', ?_⟩
  rw [TcpClient.downloadFile, hconn]
  simp only [Bool.not_true, Bool.false_eq_true, if_false]
  rw [exec_bind_of_ret hfetch, keep_of_writeFile env.sha256 hquiet hwrite]
  simp [exec]

end Exec

/-! ### When downloads end -/

/-- The data can be written to the path on the local disk. -/
def FileOps.Writable (ops : FileOps) (fs : FileSystem) (p : String) (data : Bytes) : Prop :=
  fs.Quiet ∧ (ops.writeFile fs p data).1 = .ok ()

theorem FileOps.Writable.exists_writeFile {ops : FileOps} {fs : FileSystem} {p : String}
    {data : Bytes} (h : ops.Writable fs p data) : ∃ fs', ops.writeFile fs p data = (.ok (), fs') :=
  ⟨_, Prod.ext h.2 rfl⟩

/-- A connected client and an idle session that has `s` at `p`: nothing, for whatever reason, or
a file that it can read. What is sent can be written. -/
structure DownloadSetup (env : Env) (cl : TcpClient) (fsC : FileSystem) (srv : Server) (p : String)
    (s : Stored) : Prop where
  connected : cl.connected = true
  idle : Idle srv
  offers : ∀ t, env.fm.resolvePath p = .ok t → Offers env.fm srv.fs p t s
  refused : ¬ env.fm.Resolves p → s.content = none
  writable : ∀ d ∈ s.content, cl.fileOps.Writable fsC p d

/-- Every configuration of a download. -/
def DownloadReach (env : Env) (cl : TcpClient) (fsC : FileSystem) (srv : Server) (p : String) :
    Config Server WireFrame Sent WireFrame Accepted (Except ClientError String × FileSystem) →
      Prop :=
  Reach (machine env) Sent.view
    ⟨cl.downloadFile env.proto env.sha256 fsC p, Link.start srv⟩

/-- A download never leaves the client waiting for a server that waits for it; and of a file
that is there it returns the hash, with the file on the local disk. -/
structure DownloadEnds (env : Env) (cl : TcpClient) (fsC : FileSystem) (srv : Server) (p : String)
    (s : Stored) : Prop where
  never_stuck : ∀ cfg, DownloadReach env cl fsC srv p cfg → ¬ Stuck (machine env) cfg
  delivers : ∀ d, s.content = some d → ∀ cfg, DownloadReach env cl fsC srv p cfg →
    Terminal (machine env) Sent.view cfg →
      ∃ fsC', cfg.client = .ret (.ok (env.sha256 d), fsC') ∧
        fsC'.stat (cl.fileOps.resolvePath p) = .file d

section Ends

variable {env : Env} {cl : TcpClient} {fsC : FileSystem} {srv : Server} {p : String}
  {t : LexPath.Text} {s : Stored}

/-- Without a byte to send the server refuses. -/
theorem Offers.refused (h : Offers env.fm srv.fs p t s)
    (hnone : ¬ ∃ d, s.content = some d ∧ d ≠ []) : sendFile env srv.fs p 0 = (.ok false, []) := by
  cases hc : s.content with
  | none =>
    exact sendFile_of_not_exists 0 h.resolves
      (FileManager.fileExists_of_notFound h.resolves (h.absent hc))
  | some d =>
    obtain rfl : d = [] := by
      by_contra hd
      exact hnone ⟨d, hc, hd⟩
    exact sendFile_of_empty (h.legible _ hc) 0

/-- With one it serves. -/
theorem DownloadSetup.served (h : DownloadSetup env cl fsC srv p s) {d : Bytes}
    (hc : s.content = some d) (hd : d ≠ []) :
    ∃ fsC' l', exec (machine env) Sent.view (cl.downloadFile env.proto env.sha256 fsC p)
        (Link.start srv) = ⟨.ret (.ok (env.sha256 d), fsC'), l'⟩ ∧
      fsC'.stat (cl.fileOps.resolvePath p) = .file d := by
  obtain ⟨t, hres⟩ : env.fm.Resolves p := by
    by_contra hres
    rw [h.refused hres] at hc
    exact absurd hc (by simp)
  have hwritable := h.writable d hc
  obtain ⟨fsC', hwrite⟩ := hwritable.exists_writeFile
  have hsend := sendFile_of_file ((h.offers t hres).legible d hc) hd (s.length_lt d hc)
  obtain ⟨l', hexec⟩ :=
    exec_download_served h.connected h.idle rfl hwritable.1 hwrite hsend (l := Link.start srv)
  exact ⟨fsC', l', hexec, (FileOps.stat_of_writeFile hwritable.1 hwrite).2⟩

/-- A path that does not resolve ends the server, and the download with it. -/
theorem DownloadSetup.crashed (h : DownloadSetup env cl fsC srv p s)
    (hres : ¬ env.fm.Resolves p) :
    ∃ l', exec (machine env) Sent.view (cl.downloadFile env.proto env.sha256 fsC p)
        (Link.start srv) = ⟨.ret (.error closed, fsC), l'⟩ := by
  cases hr : env.fm.resolvePath p with
  | ok t => exact absurd ⟨t, hr⟩ hres
  | error e =>
    exact exec_download_crash (l := Link.start srv) h.connected h.idle rfl
      (sendFile_of_unresolved 0 hr)

/-- The eager schedule of a refused download is a run that gets stuck. -/
theorem DownloadSetup.not_ends_of_refused (h : DownloadSetup env cl fsC srv p s)
    (hsend : sendFile env srv.fs p 0 = (.ok false, [])) : ¬ DownloadEnds env cl fsC srv p s :=
  fun hends => hends.never_stuck _ (exec_reach _ (settled_start env srv))
    (exec_download_refused h.connected h.idle rfl rfl hsend)

/-- When the eager schedule returns, no run gets stuck. -/
theorem not_stuck_of_exec {r : Except ClientError String × FileSystem}
    {l : Link Server WireFrame Sent Accepted}
    (hexec : exec (machine env) Sent.view (cl.downloadFile env.proto env.sha256 fsC p)
      (Link.start srv) = ⟨.ret r, l⟩) :
    ∀ cfg, DownloadReach env cl fsC srv p cfg → ¬ Stuck (machine env) cfg := by
  intro cfg hreach hstuck
  obtain ⟨⟨k, hk⟩, -⟩ := id hstuck
  rw [eq_exec_of_terminal (settled_start env srv) hreach hstuck.terminal, hexec] at hk
  exact absurd hk (by simp)

/-- **Which downloads end.** A download ends in every interleaving, with the file if there
is one, exactly when the server has the file and it is not empty, or the path ends the
server. -/
theorem downloadEnds_iff (h : DownloadSetup env cl fsC srv p s) :
    DownloadEnds env cl fsC srv p s ↔
      (∃ d, s.content = some d ∧ d ≠ []) ∨ ¬ env.fm.Resolves p := by
  constructor
  · intro hends
    by_contra hc
    obtain ⟨hnone, hres⟩ := not_or.mp hc
    obtain ⟨t, hres⟩ := not_not.mp hres
    exact h.not_ends_of_refused ((h.offers t hres).refused hnone) hends
  · rintro (⟨d, hc, hd⟩ | hres)
    · obtain ⟨fsC', l', hexec, hstat⟩ := h.served hc hd
      refine ⟨not_stuck_of_exec hexec, fun d' hc' cfg hreach hterm => ?_⟩
      obtain rfl := Option.some.inj (hc.symm.trans hc')
      rw [eq_exec_of_terminal (settled_start env srv) hreach hterm, hexec]
      exact ⟨fsC', rfl, hstat⟩
    · obtain ⟨l', hexec⟩ := h.crashed hres
      refine ⟨not_stuck_of_exec hexec, fun d' hc' => ?_⟩
      rw [h.refused hres] at hc'
      exact absurd hc' (by simp)

/-- The sample programs meet the assumptions of a download. -/
theorem downloadSetup_sample (s : Stored)
    (hwrite : ∀ d ∈ s.content, ((sampleClient 4096).fileOps.writeFile
      (FileSystem.single ['c'] ['f'] none) "f" d).1 = .ok ()) :
    DownloadSetup storageEnv (sampleClient 4096) (FileSystem.single ['c'] ['f'] none)
      ((Server.new 4096 (FileSystem.single ['s'] ['f'] s.content)).setState .ready) "f" s where
  connected := rfl
  idle := ⟨rfl, rfl⟩
  offers t ht := by
    obtain rfl := Except.ok.inj ((serves_single s).resolves.symm.trans ht)
    exact (serves_single s).offers
  refused h := absurd ⟨_, (serves_single s).resolves⟩ h
  writable d hd := ⟨FileSystem.quiet_of_calm rfl, hwrite d hd⟩

/-- A file of one byte is downloaded. -/
theorem downloadEnds_one_byte :
    DownloadEnds storageEnv (sampleClient 4096) (FileSystem.single ['c'] ['f'] none)
      ((Server.new 4096 (FileSystem.single ['s'] ['f'] (some [1]))).setState .ready) "f"
      ⟨some [1], by decide⟩ :=
  (downloadEnds_iff (downloadSetup_sample ⟨some [1], by decide⟩
    (by simp; rfl))).mpr (.inl ⟨[1], rfl, by decide⟩)

/-- A download of an empty file leaves both sides waiting. -/
theorem not_downloadEnds_empty :
    DownloadSetup storageEnv (sampleClient 4096) (FileSystem.single ['c'] ['f'] none)
        ((Server.new 4096 (FileSystem.single ['s'] ['f'] (some []))).setState .ready) "f"
        ⟨some [], by decide⟩ ∧
      ¬ DownloadEnds storageEnv (sampleClient 4096) (FileSystem.single ['c'] ['f'] none)
        ((Server.new 4096 (FileSystem.single ['s'] ['f'] (some []))).setState .ready) "f"
        ⟨some [], by decide⟩ := by
  have h := downloadSetup_sample ⟨some [], by decide⟩ (by simp; rfl)
  exact ⟨h, h.not_ends_of_refused ((serves_single ⟨some [], by decide⟩).offers.refused (by simp))⟩

end Ends

/-! ### The first synchronisation -/

/-- The server has no file at `p`. -/
def NoFile (fm : FileManager) (fs : FileSystem) (p : String) : Prop :=
  ∀ t b, fm.resolvePath p = .ok t → fs.stat (cStr t) ≠ .file b

/-- Every configuration of a synchronisation. -/
def SyncReach (env : Env) (cl : TcpClient) (fsC : FileSystem) (srv : Server) (p : String) :
    Config Server WireFrame Sent WireFrame Accepted (Except ClientError String × FileSystem) →
      Prop :=
  Reach (machine env) Sent.view ⟨cl.syncFile env.proto env.sha256 fsC p, Link.start srv⟩

/-- A synchronisation of the local file `c` returns `Ok`, with `c` on both sides. -/
def SyncDelivers (env : Env) (cl : TcpClient) (fsC : FileSystem) (srv : Server) (p : String)
    (c : Bytes) : Prop :=
  ∀ cfg, SyncReach env cl fsC srv p cfg → Terminal (machine env) Sent.view cfg →
    ∃ hash fsC' t, cfg.client = .ret (.ok hash, fsC') ∧ env.fm.resolvePath p = .ok t ∧
      cfg.link.server.fs.stat (cStr t) = .file c ∧ fsC'.stat (cl.fileOps.resolvePath p) = .file c

section FirstSync

variable {env : Env} {cl : TcpClient} {fsC : FileSystem} {srv : Server} {p : String}

/-- Without a file the negotiator answers `FRESH`, or throws at what it finds instead. -/
theorem negotiate_of_noFile {fs : FileSystem} (sha256 : Bytes → String) {fm : FileManager}
    (n : Negotiator) (clientSha256 : String) (h : NoFile fm fs p) :
    (fm.fileExists fs p = .ok false ∧ n.negotiate sha256 fm fs p clientSha256 =
        .ok ⟨.fresh, .zeroCopy, 0, "", n.blockSize⟩) ∨
      ∃ e, n.negotiate sha256 fm fs p clientSha256 = .error e := by
  cases hres : fm.resolvePath p with
  | error e =>
    refine .inr ⟨e, ?_⟩
    simp [Negotiator.negotiate, FileManager.fileExists, hres]
  | ok t =>
    cases hstat : fs.stat (cStr t) with
    | failed =>
      refine .inr ⟨.filesystemError "status", ?_⟩
      simp [Negotiator.negotiate, FileManager.fileExists, existsOrThrow, hres, hstat]
    | notFound =>
      have hex : fm.fileExists fs p = .ok false := by
        simp [FileManager.fileExists, existsOrThrow, hres, hstat]
      refine .inl ⟨hex, ?_⟩
      simp [Negotiator.negotiate, hex]
      rfl
    | file b => exact absurd hstat (h t b hres)
    | dir =>
      -- a directory exists, and has no size
      refine .inr ⟨.filesystemError "file_size", ?_⟩
      simp [Negotiator.negotiate, FileManager.getFileInfo, FileManager.getFileSize,
        FileManager.fileExists, existsOrThrow, hres, hstat]

/-- A negotiation that is answered. -/
theorem step_negotiation_answered (h : Idle srv) (req : NegotiationRequest)
    {r : NegotiationResult}
    (hneg : srv.session.negotiator.negotiate env.sha256 env.fm srv.fs req.relativePath
      req.clientSha256Hash = .ok r) :
    Server.step env srv (message env.proto.negotiationRequest .negotiationRequest req) =
      (srv.setState .ready, [.frame (message env.proto.negotiationResponse .negotiationResponse
        ⟨r.fileMode, r.transferMode, r.serverFileSize, r.serverSha256, r.blockSize⟩)]) := by
  rw [Server.step_of_idle h.waiting, Server.dispatch_negotiationRequest rfl,
    Server.handleNegotiationRequest]
  simp only [message, Codec.decode_encode, hneg]

/-- A negotiation that ends the process. -/
theorem step_negotiation_crash (h : Idle srv) (req : NegotiationRequest) {e : Crash}
    (hneg : srv.session.negotiator.negotiate env.sha256 env.fm srv.fs req.relativePath
      req.clientSha256Hash = .error e) :
    Server.step env srv (message env.proto.negotiationRequest .negotiationRequest req) =
      ((srv.setState .negotiating).throw e, []) := by
  rw [Server.step_of_idle h.waiting, Server.dispatch_negotiationRequest rfl,
    Server.handleNegotiationRequest]
  simp only [message, Codec.decode_encode, hneg]

/-- The request of `negotiate`. -/
def TcpClient.negotiationRequest (sha256 : Bytes → String) (cl : TcpClient) (fs : FileSystem)
    (p : String) : NegotiationRequest :=
  ⟨p, (cl.fileOps.fileSize fs p).toOption.getD 0, (cl.fileOps.lastModifiedNs fs p).toOption.getD 0,
    (cl.fileOps.sha256File sha256 fs p).toOption.getD ""⟩

/-- `negotiate` sends its request and waits. -/
theorem exec_negotiate (hconn : cl.connected = true) (l : Link Server WireFrame Sent Accepted) :
    exec (machine env) Sent.view (cl.negotiate env.proto env.sha256 fsC p) l =
      exec (machine env) Sent.view (readExpected .negotiationResponse
        (accept .negotiation env.proto.negotiationResponse "NegotiationResponse" fun resp =>
          .ret (.ok ⟨resp.fileMode, resp.transferMode, resp.serverFileSize, resp.serverSha256Hash,
            resp.blockSize⟩)) 100)
        (l.deliver (machine env) (message env.proto.negotiationRequest .negotiationRequest
          (cl.negotiationRequest env.sha256 fsC p))) := by
  rw [TcpClient.negotiate, hconn]
  rfl

/-- A negotiation that crashed the server fails. -/
theorem exec_negotiate_crash {l : Link Server WireFrame Sent Accepted} (hconn : cl.connected = true)
    (hidle : Idle l.server) (htc : l.toClient = []) {e : Crash}
    (hneg : l.server.session.negotiator.negotiate env.sha256 env.fm l.server.fs p
      (cl.negotiationRequest env.sha256 fsC p).clientSha256Hash = .error e) :
    ∃ l', exec (machine env) Sent.view (cl.negotiate env.proto env.sha256 fsC p) l =
      ⟨.ret (.error closed), l'⟩ := by
  have hup : (machine env).down l.server = false := by simp [machine, hidle.up]
  have hdeliver := Link.deliver_of_up hup (message env.proto.negotiationRequest .negotiationRequest
    (cl.negotiationRequest env.sha256 fsC p))
  simp only [machine, step_negotiation_crash hidle (cl.negotiationRequest env.sha256 fsC p) hneg,
    htc, List.append_nil] at hdeliver
  rw [exec_negotiate hconn, machine, hdeliver]
  exact ⟨_, rfl⟩

/-- A negotiation that is answered returns what the negotiator said. -/
theorem exec_negotiate_answered {l : Link Server WireFrame Sent Accepted}
    (hconn : cl.connected = true) (hidle : Idle l.server) (hts : l.toServer = [])
    (htc : l.toClient = []) {r : NegotiationResult}
    (hneg : l.server.session.negotiator.negotiate env.sha256 env.fm l.server.fs p
      (cl.negotiationRequest env.sha256 fsC p).clientSha256Hash = .ok r) :
    ∃ l', exec (machine env) Sent.view (cl.negotiate env.proto env.sha256 fsC p) l =
      ⟨.ret (.ok r), l'⟩ ∧ l'.server = l.server.setState .ready ∧ l'.toServer = [] ∧
        l'.toClient = [] := by
  have hup : (machine env).down l.server = false := by simp [machine, hidle.up]
  have hdeliver := Link.deliver_of_up hup (message env.proto.negotiationRequest .negotiationRequest
    (cl.negotiationRequest env.sha256 fsC p))
  simp only [machine, step_negotiation_answered hidle (cl.negotiationRequest env.sha256 fsC p) hneg,
    htc, List.nil_append] at hdeliver
  rw [exec_negotiate hconn, machine, hdeliver, readExpected, exec_readFrame rfl rfl,
    if_pos (by simp [message, MessageType.code]), exec_accept (Codec.decode_encode _ _)]
  exact ⟨_, rfl, rfl, hts, rfl⟩

/-- **A first synchronisation fails**: no run of it returns `Ok`. -/
theorem exec_sync_noFile (hidle : Idle srv) (hno : NoFile env.fm srv.fs p) (hash : String)
    (fsC' : FileSystem) :
    (exec (machine env) Sent.view (cl.syncFile env.proto env.sha256 fsC p)
      (Link.start srv)).client ≠ .ret (.ok hash, fsC') := by
  cases hconn : cl.connected with
  | false =>
    rw [TcpClient.syncFile, TcpClient.negotiate, hconn]
    simp [Proc.bind, exec]
  | true =>
    obtain ⟨hex, hneg⟩ | ⟨e, hneg⟩ := negotiate_of_noFile env.sha256 srv.session.negotiator
      (cl.negotiationRequest env.sha256 fsC p).clientSha256Hash hno
    · -- `FRESH` is answered with a download, which is refused
      obtain ⟨l', hexec, hsrv, hts, htc⟩ := exec_negotiate_answered (l := Link.start srv) hconn
        hidle rfl rfl hneg
      obtain ⟨t, hres⟩ : ∃ t, env.fm.resolvePath p = .ok t := by
        obtain ⟨t, hres, -⟩ := Except.bind_eq_ok_iff.mp hex
        exact ⟨t, hres⟩
      have hidle' : Idle l'.server := by
        rw [hsrv]
        exact ⟨hidle.waiting, hidle.up⟩
      have hsend : sendFile env l'.server.fs p 0 = (.ok false, []) := by
        rw [hsrv]
        exact sendFile_of_not_exists 0 hres hex
      obtain ⟨⟨k, hk⟩, -⟩ := @exec_download_refused env _ fsC _ _ hconn hidle' hts htc hsend
      rw [TcpClient.syncFile, exec_bind_of_ret hexec]
      simp only [reduceCtorEq, if_false, if_true]
      rw [hk]
      simp
    · obtain ⟨l', hexec⟩ := exec_negotiate_crash (l := Link.start srv) hconn hidle rfl hneg
      rw [TcpClient.syncFile, exec_bind_of_ret hexec]
      simp [exec]

/-- **First synchronisations never deliver.** Whatever the client has at a path where the
server has no file, no run of `sync_file` ends with `Ok`. -/
theorem not_syncDelivers (hidle : Idle srv) (hno : NoFile env.fm srv.fs p) (c : Bytes) :
    ¬ SyncDelivers env cl fsC srv p c := by
  intro h
  obtain ⟨hash, fsC', t, hret, -⟩ := h _ (exec_reach _ (settled_start env srv))
    (exec_terminal _ (settled_start env srv))
  exact exec_sync_noFile hidle hno hash fsC' hret

/-- The sample server without its file. -/
theorem noFile_sample : NoFile storageEnv.fm (FileSystem.single ['s'] ['f'] none) "f" := by
  intro t b ht
  have hready := (serves_single ⟨none, by simp⟩).toReady
  obtain rfl := Except.ok.inj (hready.resolves.symm.trans ht)
  rw [hready.stat_of_none (serves_single ⟨none, by simp⟩).node]
  simp

/-- A client with an empty file, at a server without it. -/
theorem not_syncDelivers_empty :
    NoFile storageEnv.fm (FileSystem.single ['s'] ['f'] none) "f" ∧
      ¬ SyncDelivers storageEnv (sampleClient 4096) (FileSystem.single ['c'] ['f'] (some []))
        ((Server.new 4096 (FileSystem.single ['s'] ['f'] none)).setState .ready) "f" [] :=
  ⟨noFile_sample, not_syncDelivers ⟨rfl, rfl⟩ noFile_sample []⟩

/-- A client with a file of one byte, at a server without it. -/
theorem sync_fails_one_byte :
    (sampleClient 4096).fileOps.Readable (FileSystem.single ['c'] ['f'] (some [1])) "f" [1] ∧
      NoFile storageEnv.fm (FileSystem.single ['s'] ['f'] none) "f" ∧
      ¬ SyncDelivers storageEnv (sampleClient 4096) (FileSystem.single ['c'] ['f'] (some [1]))
        ((Server.new 4096 (FileSystem.single ['s'] ['f'] none)).setState .ready) "f" [1] := by
  refine ⟨readable_single 4096 (by decide), noFile_sample, fun h => ?_⟩
  obtain ⟨hash, fsC', t, hret, -⟩ := h _ (exec_reach _ (settled_start _ _))
    (exec_terminal _ (settled_start _ _))
  exact exec_sync_noFile ⟨rfl, rfl⟩ noFile_sample hash fsC' hret

end FirstSync

end AdaptiveSync
