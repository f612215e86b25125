import AdaptiveSync.Client.Operations
import AdaptiveSync.Lib.Stream
import AdaptiveSync.Protocol.Download

/-!
# Downloads of a file that is being replaced

`send_file` asks for the size of a file, hashes it, sends two headers, opens the file and
streams it, and takes no lock. Other sessions may replace the file between any two of these
calls, so the announced size, the announced hash and the bytes may belong to three versions
of it; and the streaming may break off, after which an `ErrorPayload` frame goes out where
the client expects file data.

Here `send_file` is taken call by call (`SendStep`), in any interleaving with replacements of
the file, and the socket byte by byte: the client cuts its frames off the bytes that have
arrived (`Wire.readFrame?`). What the session does once the request is answered is left out,
since a download makes one request.

The bytes of the server begin with a header that carries the hash of what was hashed, or are
a refusal (`SendStep.inv`). The client compares the hash of what it wrote with that header,
whatever bytes came behind it. So what it keeps is what was hashed
(`download_keeps_hashed`), as long as `compute_sha256` could open the file: it returns the
empty string when it could not, `send_file` announces that, and the client takes it for no
hash at all (`not_download_keeps_unopened`).
-/

namespace AdaptiveSync

open Fs Duplex
open LexPath (cStr)

/-- The server has the file `d` at `p`. Whether it may be opened and read is left open. -/
def Present (fm : FileManager) (fs : FileSystem) (p : String) (d : Bytes) : Prop :=
  ∃ t, fm.resolvePath p = .ok t ∧ fs.stat (cStr t) = .file d

/-- `compute_sha256` can open the file at `p`. -/
def Opens (fm : FileManager) (fs : FileSystem) (p : String) : Prop :=
  ∀ t, fm.resolvePath p = .ok t → (fs.openRead (cStr t)).isSome

section Present

variable {fm : FileManager} {fs : FileSystem} {p : String} {t : LexPath.Text} {d : Bytes}

theorem FileManager.Legible.present (h : fm.Legible fs p t d) : Present fm fs p d :=
  ⟨t, h.resolves, h.stat⟩

theorem FileManager.Legible.opens_path (h : fm.Legible fs p t d) : Opens fm fs p := fun t' ht' => by
  obtain rfl := Except.ok.inj (h.resolves.symm.trans ht')
  simp [h.openRead]

theorem Present.storedAt_eq (h : Present fm fs p d) : storedAt fm fs p = some d := by
  obtain ⟨t, hres, hstat⟩ := h
  simp only [storedAt, hres, FileSystem.fileAt, FileSystem.node_of_stat hstat]

theorem Present.fileExists (h : Present fm fs p d) : fm.fileExists fs p = .ok true := by
  obtain ⟨t, hres, hstat⟩ := h
  simp [FileManager.fileExists, hres, existsOrThrow, hstat]

theorem Present.getFileSize (h : Present fm fs p d) :
    fm.getFileSize fs p = .ok (UInt64.ofNat d.length) := by
  obtain ⟨t, hres, hstat⟩ := h
  simp [FileManager.getFileSize, hres, existsOrThrow, hstat]
  rfl

/-- A file that could be opened is hashed, unless a read throws. -/
theorem Present.computeSha256_of_opens (h : Present fm fs p d) (hopens : Opens fm fs p)
    {sha256 : Bytes → String} {hash : String} (hhash : fm.computeSha256 sha256 fs p = .ok hash) :
    hash = sha256 d := by
  obtain ⟨t, hres, hstat⟩ := h
  obtain ⟨n, hn⟩ := Option.isSome_iff_exists.mp (hopens t hres)
  have hfile : n = .file d := by
    unfold FileSystem.openRead at hn
    split at hn
    · exact absurd hn (by simp)
    · rw [hstat] at hn
      exact (Option.some.inj hn).symm
  subst hfile
  simp only [FileManager.computeSha256, hres, Except.ok_bind, hn, FileManager.readToEnd] at hhash
  split at hhash
  · exact absurd hhash (by simp)
  · exact (Except.ok.inj hhash).symm

end Present

/-! ### The sender, call by call -/

/-- Where `handle_zero_copy_download_request` is. -/
inductive SendPhase where
  /-- It waits for the request. -/
  | waiting
  /-- About to call `file_exists`. -/
  | checking (path : String) (offset : UInt64)
  /-- About to call `get_file_size`. -/
  | sizing (path : String) (offset : UInt64)
  /-- About to call `compute_sha256`, and to send both headers. -/
  | hashing (path : String) (offset totalSize : UInt64)
  /-- About to open the file. -/
  | opening (path : String) (offset bytesToSend : UInt64)
  /-- So many bytes are still to be sent, and these are left of the open file. -/
  | streaming (path : String) (rest : Bytes) (remaining : ℕ)
  /-- `send_file` has returned `false`. -/
  | failed (path : String)
  /-- The request is answered, or the process has ended. -/
  | done
  deriving DecidableEq

/-- The server at work on one download. -/
structure Sender where
  fs : FileSystem
  phase : SendPhase
  /-- What it has put on the socket. -/
  written : Bytes
  /-- What the file held when `compute_sha256` was called. -/
  hashed : Option Bytes

/-- The bytes of the header frame. -/
def headerBytes (env : Env) (m : ZeroCopyDownloadHeader) : Bytes :=
  WireProtocol.encodeFrame (message env.proto.zeroCopyDownloadHeader .zeroCopyDownloadHeader m)

/-- The bytes of the error frame. -/
def refusalBytes (env : Env) (p : String) : Bytes :=
  WireProtocol.encodeFrame (message env.proto.errorPayload .error
    ⟨.fileNotFound, "File not found or transfer failed: " ++ p, ""⟩)

/-- **One call of the sender**, or a replacement of the file `p` by another session, after
which `p` is still a file. On a file only `compute_sha256` can throw, when a read fails, and
the process ends with it. -/
inductive SendStep (env : Env) (p : String) (requests : List WireFrame) : Sender → Sender → Prop
  | take {s : Sender} {f : WireFrame} {req : ZeroCopyDownloadRequest} (hphase : s.phase = .waiting)
      (hhead : requests.head? = some f)
      (hreq : Carrying env.proto.zeroCopyDownloadRequest .zeroCopyDownloadRequest req f) :
      SendStep env p requests s { s with phase := .checking req.relativePath req.offset }
  | found {s : Sender} {q : String} {offset : UInt64} (hphase : s.phase = .checking q offset)
      (h : env.fm.fileExists s.fs q = .ok true) :
      SendStep env p requests s { s with phase := .sizing q offset }
  | missing {s : Sender} {q : String} {offset : UInt64} (hphase : s.phase = .checking q offset)
      (h : env.fm.fileExists s.fs q = .ok false) :
      SendStep env p requests s { s with phase := .failed q }
  | size {s : Sender} {q : String} {offset totalSize : UInt64} (hphase : s.phase = .sizing q offset)
      (h : env.fm.getFileSize s.fs q = .ok totalSize) (hne : totalSize ≠ 0)
      (hlt : ¬ totalSize ≤ offset) :
      SendStep env p requests s { s with phase := .hashing q offset totalSize }
  | tooSmall {s : Sender} {q : String} {offset totalSize : UInt64}
      (hphase : s.phase = .sizing q offset) (h : env.fm.getFileSize s.fs q = .ok totalSize)
      (hsmall : totalSize = 0 ∨ totalSize ≤ offset) :
      SendStep env p requests s { s with phase := .failed q }
  | hash {s : Sender} {q : String} {offset totalSize : UInt64} {hash : String}
      (hphase : s.phase = .hashing q offset totalSize)
      (h : env.fm.computeSha256 env.sha256 s.fs q = .ok hash) :
      SendStep env p requests s { s with
        phase := .opening q offset (totalSize - offset)
        written := s.written ++ headerBytes env ⟨q, totalSize, hash, offset⟩ ++
          WireProtocol.encodeRawDataHeader (totalSize - offset).toNat
        hashed := storedAt env.fm s.fs q }
  | throws {s : Sender} {q : String} {offset totalSize : UInt64} {e : Crash}
      (hphase : s.phase = .hashing q offset totalSize)
      (h : env.fm.computeSha256 env.sha256 s.fs q = .error e) :
      SendStep env p requests s { s with phase := .done }
  | openFile {s : Sender} {q : String} {offset bytesToSend : UInt64} {t : LexPath.Text} {b : Bytes}
      (hphase : s.phase = .opening q offset bytesToSend) (ht : env.fm.resolvePath q = .ok t)
      (h : s.fs.openRead (cStr t) = some (.file b)) :
      SendStep env p requests s
        { s with phase := .streaming q (b.drop offset.toNat) bytesToSend.toNat }
  -- the open file is not the one that is replaced; each call sends some of what is left of it
  | stream {s : Sender} {q : String} {chunk rest : Bytes} {remaining : ℕ}
      (hphase : s.phase = .streaming q (chunk ++ rest) remaining) (h : chunk.length ≤ remaining) :
      SendStep env p requests s { s with
        phase := .streaming q rest (remaining - chunk.length)
        written := s.written ++ chunk }
  | complete {s : Sender} {q : String} {rest : Bytes} (hphase : s.phase = .streaming q rest 0) :
      SendStep env p requests s { s with phase := .done }
  -- opening and streaming may fail at any point
  | openFails {s : Sender} {q : String} {offset bytesToSend : UInt64}
      (hphase : s.phase = .opening q offset bytesToSend) :
      SendStep env p requests s { s with phase := .failed q }
  | streamFails {s : Sender} {q : String} {rest : Bytes} {remaining : ℕ}
      (hphase : s.phase = .streaming q rest remaining) :
      SendStep env p requests s { s with phase := .failed q }
  | refuse {s : Sender} {q : String} (hphase : s.phase = .failed q) :
      SendStep env p requests s { s with
        phase := .done
        written := s.written ++ refusalBytes env q }
  | replace {s : Sender} {fs : FileSystem} (h : ∃ d, Present env.fm fs p d) :
      SendStep env p requests s { s with fs := fs }

/-- If the step is the call of `compute_sha256`, the file can be opened for it. -/
def OpensForHash (env : Env) (s s' : Sender) : Prop :=
  ∀ q offset totalSize, s.phase = .hashing q offset totalSize → s'.phase ≠ s.phase →
    Opens env.fm s.fs q

/-! ### What the sender announces -/

/-- The header that went out first carries the hash of what was hashed. -/
def Sender.Announced (env : Env) (p : String) (s : Sender) : Prop :=
  ∃ d totalSize rest, s.hashed = some d ∧
    s.written = headerBytes env ⟨p, totalSize, env.sha256 d, 0⟩ ++ rest

/-- Nothing has gone out. -/
def Sender.Silent (s : Sender) : Prop := s.hashed = none ∧ s.written = []

/-- What has gone out in each phase of a download of the whole of `p`. -/
def Sender.Told (env : Env) (p : String) (s : Sender) : Prop :=
  match s.phase with
  | .waiting => s.Silent
  | .checking q offset => (q = p ∧ offset = 0) ∧ s.Silent
  | .sizing q offset => (q = p ∧ offset = 0) ∧ s.Silent
  | .hashing q offset _ => (q = p ∧ offset = 0) ∧ s.Silent
  | .opening _ _ _ => s.Announced env p
  | .streaming _ _ _ => s.Announced env p
  | .failed q => (q = p ∧ s.Silent) ∨ s.Announced env p
  | .done => s.Silent ∨ s.written = refusalBytes env p ∨ s.Announced env p

/-- A sender keeps to the order of the calls, on a file that is there. -/
structure Sender.Inv (env : Env) (p : String) (s : Sender) : Prop where
  present : ∃ d, Present env.fm s.fs p d
  told : s.Told env p

section Sender

variable {env : Env} {p : String} {requests : List WireFrame} {s s' : Sender}

theorem Sender.Announced.append (h : s.Announced env p) (bytes : Bytes) (phase : SendPhase) :
    ({ s with phase := phase, written := s.written ++ bytes } : Sender).Announced env p := by
  obtain ⟨d, totalSize, rest, hd, hw⟩ := h
  exact ⟨d, totalSize, rest ++ bytes, hd, by simp [hw]⟩

/-- One call. -/
theorem SendStep.inv (hreq : ∀ f ∈ requests, f = downloadRequest env p)
    (h : SendStep env p requests s s') (hopens : OpensForHash env s s') (hinv : s.Inv env p) :
    s'.Inv env p := by
  obtain ⟨hpresent, htold⟩ := hinv
  cases h with
  | take hphase hhead hcarry =>
    refine ⟨hpresent, ?_⟩
    obtain rfl := hreq _ (List.mem_of_mem_head? hhead)
    -- the request is the one of `download_file`
    have hdec := hcarry.2
    simp only [downloadRequest, message, Codec.decode_encode, Option.some.injEq] at hdec
    subst hdec
    simp only [Sender.Told, hphase] at htold
    exact ⟨⟨rfl, rfl⟩, htold⟩
  | found hphase | size hphase =>
    refine ⟨hpresent, ?_⟩
    simp only [Sender.Told, hphase] at htold ⊢
    exact htold
  | missing hphase | tooSmall hphase =>
    refine ⟨hpresent, ?_⟩
    simp only [Sender.Told, hphase] at htold ⊢
    exact .inl ⟨htold.1.1, htold.2⟩
  | hash hphase hhash =>
    refine ⟨hpresent, ?_⟩
    simp only [Sender.Told, hphase] at htold ⊢
    obtain ⟨⟨rfl, rfl⟩, -, hwritten⟩ := htold
    obtain ⟨d, hd⟩ := hpresent
    -- the file was opened, so the hash is not the empty string of `compute_sha256`
    obtain rfl := hd.computeSha256_of_opens (hopens _ _ _ hphase (by simp [hphase])) hhash
    exact ⟨d, _, _, hd.storedAt_eq, by rw [hwritten]; rfl⟩
  | throws hphase =>
    refine ⟨hpresent, ?_⟩
    simp only [Sender.Told, hphase] at htold ⊢
    exact .inl htold.2
  | openFile hphase | openFails hphase | streamFails hphase | complete hphase =>
    refine ⟨hpresent, ?_⟩
    simp only [Sender.Told, hphase] at htold ⊢
    first
      | exact htold
      | exact .inr htold
      | exact .inr (.inr htold)
  | stream hphase =>
    refine ⟨hpresent, ?_⟩
    simp only [Sender.Told, hphase] at htold ⊢
    exact htold.append _ _
  | refuse hphase =>
    refine ⟨hpresent, ?_⟩
    simp only [Sender.Told, hphase] at htold ⊢
    obtain ⟨rfl, -, hwritten⟩ | hann := htold
    · exact .inr (.inl (by simp [hwritten]))
    · exact .inr (.inr (hann.append _ _))
  | replace hfs => exact ⟨hfs, htold⟩

/-- What has gone out stays. -/
theorem SendStep.written_le (h : SendStep env p requests s s') : s.written <+: s'.written := by
  cases h with
  | hash => exact (List.prefix_append _ _).trans (List.prefix_append _ _)
  | stream | refuse => exact List.prefix_append _ _
  | _ => exact List.prefix_refl _

end Sender

/-! ### The whole system -/

/-- A program of the client that reads from the socket. -/
abbrev Client := Reader WireFrame WireFrame Accepted (Except ClientError String × FileSystem) UInt8

/-- A download over a socket. -/
structure Transfer where
  sender : Sender
  /-- Sent by the client. -/
  requests : List WireFrame
  /-- The connection has broken, and what had not arrived is lost. -/
  ended : Bool
  client : Client

/-- **One step of a download.** -/
inductive TransferStep (env : Env) (p : String) : Transfer → Transfer → Prop
  | send {σ : Transfer} {s : Sender} (h : SendStep env p σ.requests σ.sender s) :
      TransferStep env p σ { σ with sender := s }
  | arrive {σ : Transfer} {bytes : Bytes} (hopen : σ.ended = false)
      (h : σ.client.received ++ bytes <+: σ.sender.written) :
      TransferStep env p σ { σ with client := σ.client.arrive bytes }
  | lose (σ : Transfer) : TransferStep env p σ { σ with ended := true }
  | read {σ : Transfer} {sent : List WireFrame} {client : Client}
      (h : σ.client.Move Wire.readFrame? σ.ended sent client) :
      TransferStep env p σ { σ with client := client, requests := σ.requests ++ sent }

/-- A download that is about to begin, with nothing unread. -/
def Transfer.start (env : Env) (cl : TcpClient) (fsC fs : FileSystem) (p : String) : Transfer where
  sender := ⟨fs, .waiting, [], none⟩
  requests := []
  ended := false
  client := .start (cl.downloadFile env.proto env.sha256 fsC p)

/-- Every state of a download. -/
def TransferReach (env : Env) (cl : TcpClient) (fsC fs : FileSystem) (p : String) :
    Transfer → Prop :=
  Relation.ReflTransGen (TransferStep env p) (Transfer.start env cl fsC fs p)

/-- Every state of a download in which `compute_sha256` can open the file. -/
def HashedReach (env : Env) (cl : TcpClient) (fsC fs : FileSystem) (p : String) :
    Transfer → Prop :=
  Relation.ReflTransGen
    (fun σ σ' => TransferStep env p σ σ' ∧ OpensForHash env σ.sender σ'.sender)
    (Transfer.start env cl fsC fs p)

/-! ### What the client makes of it -/

/-- The result is an error. -/
def Failed (r : Except ClientError String × FileSystem) : Prop := ∃ e, r.1 = .error e

/-- The frames of a download of `p` fit their length field. -/
structure Framed (env : Env) (p : String) : Prop where
  header : ∀ totalSize d, (env.proto.zeroCopyDownloadHeader.encode
    ⟨p, totalSize, env.sha256 d, 0⟩).length < RAW_DATA_SENTINEL
  refusal : (env.proto.errorPayload.encode
    ⟨.fileNotFound, "File not found or transfer failed: " ++ p, ""⟩).length < RAW_DATA_SENTINEL

section Client

variable {env : Env} {cl : TcpClient} {fsC : FileSystem} {p : String}

theorem prompt_readFrame : Prompt Wire.readFrame? := fun _ _ _ h t => Wire.readFrame?_mono h t

/-- The client reads a frame of the server. -/
theorem readFrame_encodeFrame {f : WireFrame} (h : f.payload.length < RAW_DATA_SENTINEL)
    (rest : Bytes) : Wire.readFrame? (WireProtocol.encodeFrame f ++ rest) = some (f, rest) := by
  refine Wire.readFrame?_eq_some_iff.mpr ?_
  have hread := Wire.readFrame_encode (.standard f.messageType f.payload h) rest
  rwa [← Frame.encodeCpp_eq_encodeRust] at hread

theorem sends_downloadFile : (cl.downloadFile env.proto env.sha256 fsC p).Sends
    (· = downloadRequest env p) := by
  unfold TcpClient.downloadFile
  split
  · trivial
  refine Proc.Sends.bind ⟨rfl, sends_readExpected (sends_accept fun header => ?_) 100⟩
    fun _ => trivial
  refine sends_readFrame fun raw => ?_
  split <;> trivial

/-- A lost connection ends a download with an error. -/
theorem endsWith_downloadFile : (cl.downloadFile env.proto env.sha256 fsC p).EndsWith Failed := by
  have hexpect : ∀ (tries : ℕ) {α : Type} (k : WireFrame → Fallible α),
      (∀ f, (k f).EndsWith fun r => ∃ e, r = .error e) →
        (readExpected .zeroCopyDownloadHeader k tries).EndsWith fun r => ∃ e, r = .error e := by
    intro tries α k hk
    induction tries with
    | zero => trivial
    | succ tries ih =>
      refine ⟨⟨_, rfl, _, rfl⟩, fun f => ?_⟩
      change Proc.EndsWith _ (if _ then _ else _)
      split
      · exact hk f
      · exact ih
  unfold TcpClient.downloadFile
  split
  · trivial
  refine Proc.EndsWith.bind (Q := fun r => ∃ e, r = .error e) (hexpect 100 _ fun f => ?_) ?_
    fun _ => trivial
  · unfold accept
    split
    · trivial
    · refine ⟨⟨_, rfl, _, rfl⟩, fun raw => ?_⟩
      change Proc.EndsWith _ (if _ then _ else _)
      split <;> trivial
  · rintro _ ⟨e, rfl⟩
    exact ⟨_, rfl, e, rfl⟩

/-- On the bytes of a header the client gets as far as that header. -/
theorem feed_fetch_header {m : ZeroCopyDownloadHeader} {data rest rest' : Bytes}
    {header : ZeroCopyDownloadHeader}
    (hfit : (env.proto.zeroCopyDownloadHeader.encode m).length < RAW_DATA_SENTINEL)
    (h : (TcpClient.fetch env.proto p).feed Wire.readFrame? (headerBytes env m ++ rest) =
      some (.ok (header, data), rest')) : header = m := by
  have hread : Wire.readFrame? (headerBytes env m ++ rest) = some (message
      env.proto.zeroCopyDownloadHeader .zeroCopyDownloadHeader m, rest) :=
    readFrame_encodeFrame hfit rest
  rw [TcpClient.fetch, Proc.feed, readExpected, readFrame, Proc.feed_recv hread] at h
  simp only [message, if_true, accept, Codec.decode_encode, Proc.feed, readFrame] at h
  obtain ⟨fr, -, h⟩ := Option.bind_eq_some_iff.mp h
  split at h
  · exact absurd (Prod.mk.inj (Option.some.inj h)).1 (by simp)
  · exact (Prod.mk.inj (Except.ok.inj (Prod.mk.inj (Option.some.inj h)).1)).1.symm

/-- On the bytes of a refusal it waits. -/
theorem feed_fetch_refusal (hfit : (env.proto.errorPayload.encode
    ⟨.fileNotFound, "File not found or transfer failed: " ++ p, ""⟩).length < RAW_DATA_SENTINEL) :
    (TcpClient.fetch env.proto p).feed Wire.readFrame? (refusalBytes env p) = none := by
  have hread : Wire.readFrame? (refusalBytes env p) = some (message env.proto.errorPayload .error
      ⟨.fileNotFound, "File not found or transfer failed: " ++ p, ""⟩, []) := by
    rw [← List.append_nil (refusalBytes env p)]
    exact readFrame_encodeFrame hfit []
  have hne : MessageType.error.code ≠ MessageType.zeroCopyDownloadHeader.code := by decide
  rw [TcpClient.fetch, Proc.feed, readExpected, readFrame, Proc.feed_recv hread]
  simp only [message, hne, if_false]
  exact Proc.feed_recv_none (by rfl)

/-- A download that kept its file has compared the hash of that file with the header. -/
theorem keep_eq_ok {sha256 : Bytes → String} {header : ZeroCopyDownloadHeader} {data : Bytes}
    {hash : String} {fsC' : FileSystem}
    (h : cl.keep sha256 fsC p (.ok (header, data)) = (.ok hash, fsC')) :
    ∃ b, fsC'.stat (cl.fileOps.resolvePath p) = .file b ∧ hash = sha256 b ∧
      (header.sha256Hash ≠ "" → sha256 b = header.sha256Hash) := by
  unfold TcpClient.keep at h
  split at h
  · exact absurd (Prod.mk.inj h).1 (by simp)
  next header' data' heq =>
  obtain ⟨rfl, rfl⟩ := Prod.mk.inj (Except.ok.inj heq)
  split at h
  · exact absurd (Prod.mk.inj h).1 (by simp)
  split at h
  · exact absurd (Prod.mk.inj h).1 (by simp)
  next localHash hlocal =>
  split at h
  · exact absurd (Prod.mk.inj h).1 (by simp)
  next hmatch =>
  obtain ⟨hhash, rfl⟩ := Prod.mk.inj h
  obtain rfl := Except.ok.inj hhash
  -- the file was read back to be hashed
  obtain ⟨b, hb, hret⟩ := Except.bind_eq_ok_iff.mp hlocal
  obtain rfl := Except.ok.inj hret
  refine ⟨b, FileOps.stat_of_readAll hb, rfl, fun hne => ?_⟩
  by_contra hdiff
  exact hmatch ⟨hne, hdiff⟩

/-- A download that returned `Ok` has fetched a header and data, and kept the data. -/
theorem feed_downloadFile_eq_ok {s rest : Bytes} {hash : String} {fsC' : FileSystem}
    (h : (cl.downloadFile env.proto env.sha256 fsC p).feed Wire.readFrame? s =
      some ((.ok hash, fsC'), rest)) :
    ∃ header data, (TcpClient.fetch env.proto p).feed Wire.readFrame? s =
        some (.ok (header, data), rest) ∧
      cl.keep env.sha256 fsC p (.ok (header, data)) = (.ok hash, fsC') := by
  unfold TcpClient.downloadFile at h
  split at h
  · exact absurd (Prod.mk.inj (Prod.mk.inj (Option.some.inj h)).1).1 (by simp)
  rw [Proc.feed_bind] at h
  obtain ⟨⟨r, rest'⟩, hfetch, hret⟩ := Option.bind_eq_some_iff.mp h
  obtain ⟨hkeep, rfl⟩ := Prod.mk.inj (Option.some.inj hret)
  cases r with
  | error e => exact absurd (Prod.mk.inj hkeep).1 (by simp)
  | ok hd => exact ⟨hd.1, hd.2, hfetch, hkeep⟩

end Client

/-! ### What a download keeps -/

/-- What holds of every state of a download of `p` by the program `prog`. -/
structure Transfer.Inv (env : Env) (p : String)
    (prog : Prog (Except ClientError String × FileSystem)) (σ : Transfer) : Prop where
  sender : σ.sender.Inv env p
  requests : ∀ f ∈ σ.requests, f = downloadRequest env p
  sends : σ.client.program.Sends (· = downloadRequest env p)
  arrived : σ.client.received <+: σ.sender.written
  explained : σ.client.Explained Wire.readFrame? prog Failed

section Keeps

variable {env : Env} {cl : TcpClient} {fsC fs : FileSystem} {p : String}
  {prog : Prog (Except ClientError String × FileSystem)} {σ σ' : Transfer}

theorem Transfer.inv_start (hp : ∃ d, Present env.fm fs p d) :
    (Transfer.start env cl fsC fs p).Inv env p
      (cl.downloadFile env.proto env.sha256 fsC p) where
  sender := ⟨hp, rfl, rfl⟩
  requests := by simp [Transfer.start]
  sends := sends_downloadFile
  arrived := List.prefix_refl _
  explained := Reader.explained_start endsWith_downloadFile

/-- One step. -/
theorem Transfer.Inv.step (h : σ.Inv env p prog) (hstep : TransferStep env p σ σ')
    (hopens : OpensForHash env σ.sender σ'.sender) : σ'.Inv env p prog := by
  obtain ⟨hsender, hrequests, hsends, harrived, hexplained⟩ := h
  cases hstep with
  | send hs =>
    exact ⟨hs.inv hrequests hopens hsender, hrequests, hsends, harrived.trans hs.written_le,
      hexplained⟩
  | arrive _ hbytes => exact ⟨hsender, hrequests, hsends, hbytes, hexplained.arrive _⟩
  | lose => exact ⟨hsender, hrequests, hsends, harrived, hexplained⟩
  | read hmove =>
    obtain ⟨hsent, hsends', hreceived⟩ := hmove.sends hsends
    refine ⟨hsender, fun f hf => ?_, hsends', ?_, hexplained.move prompt_readFrame hmove⟩
    · exact (List.mem_append.mp hf).elim (hrequests f) (hsent f)
    · rwa [hreceived]

/-- Every run. -/
theorem HashedReach.inv (hp : ∃ d, Present env.fm fs p d) (h : HashedReach env cl fsC fs p σ) :
    σ.Inv env p (cl.downloadFile env.proto env.sha256 fsC p) := by
  induction h with
  | refl => exact Transfer.inv_start hp
  | tail _ hstep ih => exact ih.step hstep.1 hstep.2

/-- A sender has written nothing, a refusal, or an announcement. -/
theorem Sender.Told.cases {s : Sender} (h : s.Told env p) :
    s.written = [] ∨ s.written = refusalBytes env p ∨ s.Announced env p := by
  unfold Sender.Told at h
  split at h
  · exact .inl h.2
  · exact .inl h.2.2
  · exact .inl h.2.2
  · exact .inl h.2.2
  · exact .inr (.inr h)
  · exact .inr (.inr h)
  · exact h.elim (fun hs => .inl hs.2.2) fun ha => .inr (.inr ha)
  · exact h.imp (·.2) id

/-- **Torn downloads are detected where the file could be opened for its hash.** Whatever
replacements of the file and failures of the transfer come between the calls of `send_file`, a
download that returns `Ok` has left on the local disk what the server's file held when it was
hashed, and returns its hash. -/
theorem download_keeps_hashed (hframed : Framed env p) (hhash : ∀ d, env.sha256 d ≠ "")
    (hp : ∃ d, Present env.fm fs p d) (hreach : HashedReach env cl fsC fs p σ) {hash : String}
    {fsC' : FileSystem} (hret : σ.client.program = .ret (.ok hash, fsC'))
    (hcoll : ∀ d b, σ.sender.hashed = some d → fsC'.stat (cl.fileOps.resolvePath p) = .file b →
      env.sha256 b = env.sha256 d → b = d) :
    ∃ d, σ.sender.hashed = some d ∧ fsC'.stat (cl.fileOps.resolvePath p) = .file d ∧
      hash = env.sha256 d := by
  obtain ⟨hsender, -, -, harrived, hexplained⟩ := hreach.inv hp
  have hfeed : ∃ rest, (cl.downloadFile env.proto env.sha256 fsC p).feed Wire.readFrame?
      σ.sender.written = some ((.ok hash, fsC'), rest) := by
    obtain hfeed | ⟨e, he⟩ := hexplained.result hret
    · -- what is still on the way does not change the result
      obtain ⟨t, ht⟩ := harrived
      rw [← ht]
      exact ⟨_, Proc.feed_append prompt_readFrame hfeed t⟩
    · exact absurd he (by simp)
  obtain ⟨rest, hfeed⟩ := hfeed
  obtain ⟨header, data, hfetch, hkeep⟩ := feed_downloadFile_eq_ok hfeed
  obtain hnone | hrefused | ⟨d, totalSize, rest', hd, hwritten⟩ := hsender.told.cases
  · rw [hnone, TcpClient.fetch, Proc.feed] at hfetch
    exact absurd ((Proc.feed_recv_none (by rfl)).symm.trans hfetch) (by simp)
  · rw [hrefused, feed_fetch_refusal hframed.refusal] at hfetch
    exact absurd hfetch (by simp)
  · rw [hwritten] at hfetch
    obtain rfl := feed_fetch_header (hframed.header totalSize d) hfetch
    obtain ⟨b, hstat, rfl, hmatch⟩ := keep_eq_ok hkeep
    -- the header's hash is not empty, so it was compared
    obtain rfl := hcoll d b hd hstat (hmatch (hhash d))
    exact ⟨b, hd, hstat, rfl⟩

/-! ### A download between replacements -/

/-- A step of a run in which the file can be opened for its hash, if `c` holds. -/
def StepIf (env : Env) (p : String) (c : Prop) (σ σ' : Transfer) : Prop :=
  TransferStep env p σ σ' ∧ (c → OpensForHash env σ.sender σ'.sender)

theorem opensForHash_of_phase {s s' : Sender} (h : ∀ q offset n, s.phase ≠ .hashing q offset n) :
    OpensForHash env s s' :=
  fun q offset n hphase => absurd hphase (h q offset n)

variable {c : Prop}

/-- A step that leaves the sender alone. -/
theorem StepIf.of_sender_eq (h : TransferStep env p σ σ') (hs : σ'.sender = σ.sender) :
    StepIf env p c σ σ' :=
  ⟨h, fun _ _ _ _ _ hne => absurd (congrArg Sender.phase hs) hne⟩

/-- A program that has what it needs runs to its end. -/
theorem reach_of_feed {a : Except ClientError String × FileSystem} {r : Bytes} :
    ∀ {q : Prog (Except ClientError String × FileSystem)} {σ : Transfer}, σ.client.program = q →
      q.feed Wire.readFrame? σ.client.unread = some (a, r) →
        ∃ σ', Relation.ReflTransGen (StepIf env p c) σ σ' ∧ σ'.client.program = .ret a ∧
          σ'.sender = σ.sender := by
  intro q
  induction q with
  | ret b =>
    intro σ hq hfeed
    obtain ⟨rfl, -⟩ := Prod.mk.inj (Option.some.inj hfeed)
    exact ⟨σ, .refl, hq, rfl⟩
  | send o k ih =>
    rintro ⟨sender, requests, ended, ⟨program, received, unread⟩⟩ rfl hfeed
    obtain ⟨σ', hreach, hret, hsender⟩ :=
      @ih ⟨sender, requests ++ [o], ended, ⟨k, received, unread⟩⟩ rfl hfeed
    exact ⟨σ', hreach.head (.of_sender_eq (.read (.send o k received unread)) rfl), hret, hsender⟩
  | emit e k ih =>
    rintro ⟨sender, requests, ended, ⟨program, received, unread⟩⟩ rfl hfeed
    obtain ⟨σ', hreach, hret, hsender⟩ :=
      @ih ⟨sender, requests ++ [], ended, ⟨k, received, unread⟩⟩ rfl hfeed
    exact ⟨σ', hreach.head (.of_sender_eq (.read (.emit e k received unread)) rfl), hret, hsender⟩
  | recv k ih =>
    rintro ⟨sender, requests, ended, ⟨program, received, unread⟩⟩ rfl hfeed
    obtain ⟨⟨f, rest⟩, hread, hfeed⟩ := Option.bind_eq_some_iff.mp hfeed
    obtain ⟨σ', hreach, hret, hsender⟩ :=
      @ih (some f) ⟨sender, requests ++ [], ended, ⟨k (some f), received, rest⟩⟩ rfl hfeed
    exact ⟨σ', hreach.head (.of_sender_eq (.read (.take k received hread)) rfl), hret, hsender⟩

/-- A run of the sender is a run of the whole. -/
theorem reach_send {s : Sender} (h : Relation.ReflTransGen
      (fun s s' => SendStep env p σ.requests s s' ∧ (c → OpensForHash env s s')) σ.sender s) :
    Relation.ReflTransGen (StepIf env p c) σ { σ with sender := s } := by
  induction h with
  | refl => exact .refl
  | tail _ hstep ih => exact ih.tail ⟨.send hstep.1, hstep.2⟩

/-- What the server writes for the file `d` that it opened, under the hash it announced. -/
def servedBytes (env : Env) (p hash : String) (d : Bytes) : Bytes :=
  headerBytes env ⟨p, UInt64.ofNat d.length, hash, 0⟩ ++
    (WireProtocol.encodeRawDataHeader d.length ++ d)

/-- The sender writes the headers and the file. Another session replaces the file behind
`file_exists`, before it is opened, and once more while it is streamed. -/
theorem sender_serves {fs₁ fs₂ fs₃ : FileSystem} {d₁ d : Bytes} {hash : String}
    {t : LexPath.Text} (h₀ : ∃ d, Present env.fm fs p d) (h₁ : Present env.fm fs₁ p d₁)
    (hhash : env.fm.computeSha256 env.sha256 fs₁ p = .ok hash)
    (h₂ : env.fm.Legible fs₂ p t d) (h₃ : ∃ d, Present env.fm fs₃ p d)
    (hlen : d₁.length = d.length) (hd : d ≠ []) (hlt : d.length < maxOffset) :
    Relation.ReflTransGen (fun s s' => SendStep env p [downloadRequest env p] s s' ∧
        (Opens env.fm fs₁ p → OpensForHash env s s'))
      ⟨fs, .waiting, [], none⟩ ⟨fs₃, .done, servedBytes env p hash d, some d₁⟩ := by
  have hsize := toNat_ofNat_of_lt hlt
  have hpos : 0 < d.length := List.length_pos_iff.mpr hd
  have hsz : env.fm.getFileSize fs₁ p = .ok (UInt64.ofNat d.length) := hlen ▸ h₁.getFileSize
  have hle : ¬ UInt64.ofNat d.length ≤ 0 := fun hc => by
    rw [UInt64.le_iff_toNat_le, hsize] at hc
    exact absurd hc (by simp; omega)
  have hne : UInt64.ofNat d.length ≠ 0 := fun hc => hle (by simp [hc])
  obtain ⟨d₀, h₀⟩ := h₀
  have hno : ∀ {s s' : Sender}, (∀ q offset n, s.phase ≠ .hashing q offset n) →
      Opens env.fm fs₁ p → OpensForHash env s s' := fun hs _ => opensForHash_of_phase hs
  refine .head ⟨.take rfl rfl (carrying_message _ _ _), hno (by simp)⟩ ?_
  refine .head ⟨.found rfl h₀.fileExists, hno (by simp)⟩ ?_
  refine .head ⟨.replace ⟨d₁, h₁⟩, hno (by simp)⟩ ?_
  refine .head ⟨.size rfl hsz hne hle, hno (by simp)⟩ ?_
  refine .head ⟨.hash rfl hhash, fun hopens q offset n hphase _ => ?_⟩ ?_
  · obtain ⟨rfl, -, -⟩ := SendPhase.hashing.inj hphase
    exact hopens
  refine .head ⟨.replace ⟨d, h₂.present⟩, hno (by simp)⟩ ?_
  refine .head ⟨.openFile rfl h₂.resolves h₂.openRead, hno (by simp)⟩ ?_
  refine .head ⟨.replace h₃, hno (by simp)⟩ ?_
  simp only [UInt64.sub_zero, hsize, h₁.storedAt_eq, UInt64.toNat_zero, List.drop_zero,
    List.nil_append]
  -- all of the file goes out in one call
  refine .head ⟨@SendStep.stream env p _ _ p d [] d.length (by simp) le_rfl, hno (by simp)⟩ ?_
  simp only [Nat.sub_self]
  refine .head ⟨.complete rfl, hno (by simp)⟩ ?_
  simp only [servedBytes, List.append_assoc]
  exact .refl

/-- The client reads all of it. -/
theorem feed_fetch_served {d : Bytes} {hash : String}
    (hfit : (env.proto.zeroCopyDownloadHeader.encode
      ⟨p, UInt64.ofNat d.length, hash, 0⟩).length < RAW_DATA_SENTINEL)
    (hlt : d.length < maxOffset) :
    (TcpClient.fetch env.proto p).feed Wire.readFrame? (servedBytes env p hash d) =
      some (.ok (⟨p, UInt64.ofNat d.length, hash, 0⟩, d), []) := by
  have hheader : Wire.readFrame? (servedBytes env p hash d) = some (message
      env.proto.zeroCopyDownloadHeader .zeroCopyDownloadHeader ⟨p, UInt64.ofNat d.length, hash, 0⟩,
      WireProtocol.encodeRawDataHeader d.length ++ d) :=
    readFrame_encodeFrame hfit _
  have hraw : Wire.readFrame? (WireProtocol.encodeRawDataHeader d.length ++ d) =
      some (⟨MSG_RAW_DATA, d⟩, []) := by
    have hread := Wire.readFrame_encode (.raw d (hlt.trans (by decide))) []
    rw [← Frame.encodeCpp_eq_encodeRust, List.append_nil] at hread
    exact Wire.readFrame?_eq_some_iff.mpr hread
  rw [TcpClient.fetch, Proc.feed, readExpected, readFrame, Proc.feed_recv hheader]
  simp only [message, if_true, accept, Codec.decode_encode, Proc.feed, readFrame, hraw,
    Option.bind_some, ne_eq, not_true_eq_false, if_false]

/-- A download that is answered so returns the hash of the file that was opened, if that is the
announced hash or none was announced. -/
theorem exists_download {fs₁ fs₂ fs₃ fsC' : FileSystem} {d₁ d : Bytes} {hash : String}
    {t : LexPath.Text} (hconn : cl.connected = true)
    (hfit : (env.proto.zeroCopyDownloadHeader.encode
      ⟨p, UInt64.ofNat d.length, hash, 0⟩).length < RAW_DATA_SENTINEL)
    (h₀ : ∃ d, Present env.fm fs p d) (h₁ : Present env.fm fs₁ p d₁)
    (hhash : env.fm.computeSha256 env.sha256 fs₁ p = .ok hash)
    (h₂ : env.fm.Legible fs₂ p t d) (h₃ : ∃ d, Present env.fm fs₃ p d)
    (hlen : d₁.length = d.length) (hd : d ≠ []) (hlt : d.length < maxOffset)
    (hmatch : hash = "" ∨ hash = env.sha256 d) (hquiet : fsC.Quiet)
    (hwrite : cl.fileOps.writeFile fsC p d = (.ok (), fsC')) :
    ∃ σ, Relation.ReflTransGen (StepIf env p (Opens env.fm fs₁ p))
        (Transfer.start env cl fsC fs p) σ ∧
      σ.client.program = .ret (.ok (env.sha256 d), fsC') ∧ σ.sender.hashed = some d₁ ∧
      σ.sender.fs = fs₃ := by
  obtain ⟨k, hk⟩ : ∃ k, cl.downloadFile env.proto env.sha256 fsC p =
      .send (downloadRequest env p) k := by
    rw [TcpClient.downloadFile, hconn]
    exact ⟨_, rfl⟩
  have hfeed : (cl.downloadFile env.proto env.sha256 fsC p).feed Wire.readFrame?
      (servedBytes env p hash d) = some ((.ok (env.sha256 d), fsC'), []) := by
    rw [TcpClient.downloadFile, hconn]
    simp only [Bool.not_true, Bool.false_eq_true, if_false]
    rw [Proc.feed_bind, feed_fetch_served hfit hlt, Option.bind_some,
      keep_of_writeFile env.sha256 hquiet hwrite]
    obtain rfl | rfl := hmatch <;> simp [Proc.feed]
  rw [hk] at hfeed
  -- the request goes out, the sender answers it, and all of the answer arrives
  have hrequested : Relation.ReflTransGen (StepIf env p (Opens env.fm fs₁ p))
      (Transfer.start env cl fsC fs p)
      ⟨⟨fs, .waiting, [], none⟩, [downloadRequest env p], false, ⟨k, [], []⟩⟩ := by
    refine .single ?_
    rw [Transfer.start, hk]
    exact .of_sender_eq (.read (.send (downloadRequest env p) k [] [])) rfl
  have hanswered := hrequested.trans (reach_send (sender_serves h₀ h₁ hhash h₂ h₃ hlen hd hlt))
  have harrived : Relation.ReflTransGen (StepIf env p (Opens env.fm fs₁ p))
      (Transfer.start env cl fsC fs p) ⟨⟨fs₃, .done, servedBytes env p hash d, some d₁⟩,
        [downloadRequest env p], false,
        ⟨k, servedBytes env p hash d, servedBytes env p hash d⟩⟩ :=
    hanswered.tail (.of_sender_eq (.arrive rfl (List.prefix_refl _)) rfl)
  obtain ⟨σ, hreach, hret, hsender⟩ := @reach_of_feed env p (Opens env.fm fs₁ p) _ _ _
    ⟨⟨fs₃, .done, servedBytes env p hash d, some d₁⟩, [downloadRequest env p], false,
      ⟨k, servedBytes env p hash d, servedBytes env p hash d⟩⟩ rfl hfeed
  exact ⟨σ, harrived.trans hreach, hret, by rw [hsender], by rw [hsender]⟩

/-- The file can be opened for its hash. -/
theorem HashedReach.of_stepIf (h : Relation.ReflTransGen (StepIf env p c)
    (Transfer.start env cl fsC fs p) σ) (hc : c) : HashedReach env cl fsC fs p σ :=
  Relation.ReflTransGen.mono (fun _ _ hstep => ⟨hstep.1, hstep.2 hc⟩) _ _ h

theorem TransferReach.of_stepIf (h : Relation.ReflTransGen (StepIf env p c)
    (Transfer.start env cl fsC fs p) σ) : TransferReach env cl fsC fs p σ :=
  Relation.ReflTransGen.mono (fun _ _ hstep => hstep.1) _ _ h

end Keeps

/-- The frames of the programs as they are built fit, for any path of reasonable length. -/
theorem framed_protobuf {env : Env} {p : String} (hproto : env.proto = protobuf)
    (hsha : env.sha256 = sha256Hex) (hp : p.toList.length < 2 ^ 28) : Framed env p where
  header totalSize d := by
    rw [hproto, hsha]
    have hpath := Proto3.length_utf8_le p
    have hhash := Proto3.length_utf8_le (sha256Hex d)
    rw [length_sha256Hex] at hhash
    exact length_zeroCopyDownloadHeader_lt (by dsimp only; omega) (by dsimp only; omega)
  refusal := by
    rw [hproto]
    have htext := Proto3.length_utf8_le ("File not found or transfer failed: " ++ p)
    rw [String.toList_append, List.length_append,
      show "File not found or transfer failed: ".toList.length = 35 from by decide] at htext
    exact length_errorPayload_lt (by dsimp only; omega) (by dsimp only; decide)

/-- The server's disk holds a file of one byte. -/
theorem legible_single (b : UInt8) : storageEnv.fm.Legible
    (FileSystem.single ['s'] ['f'] (some [b])) "f" "s/f".toList [b] := by
  have hserves := serves_single ⟨some [b], by simp [maxOffset]⟩
  exact hserves.toReady.legible hserves.node

/-- The client's disk can take the file. -/
theorem exists_write_single (b : UInt8) : ∃ fsC', (sampleClient 4096).fileOps.writeFile
    (FileSystem.single ['c'] ['f'] none) "f" [b] = (.ok (), fsC') := by
  have hwritable : (sampleClient 4096).fileOps.Writable (FileSystem.single ['c'] ['f'] none) "f"
      [b] := ⟨FileSystem.quiet_of_calm rfl, by rfl⟩
  exact hwritable.exists_writeFile

/-- Another session replaces the file twice, before it is hashed and after. -/
theorem download_keeps_replaced :
    ∃ σ fsC', HashedReach storageEnv (sampleClient 4096) (FileSystem.single ['c'] ['f'] none)
        (FileSystem.single ['s'] ['f'] (some [2])) "f" σ ∧
      σ.client.program = .ret (.ok (sha256Hex [1]), fsC') ∧
      storedAt storageEnv.fm σ.sender.fs "f" = some [3] ∧
      ∃ d, σ.sender.hashed = some d ∧
        fsC'.stat ((sampleClient 4096).fileOps.resolvePath "f") = .file d ∧
        sha256Hex [1] = sha256Hex d := by
  obtain ⟨fsC', hwrite⟩ := exists_write_single 1
  have hquiet : (FileSystem.single ['c'] ['f'] none).Quiet := FileSystem.quiet_of_calm rfl
  have hconnected : (sampleClient 4096).connected = true := rfl
  have hframed : Framed storageEnv "f" := framed_protobuf rfl rfl (by decide)
  have hbefore := (legible_single 2).present
  have hlegible := legible_single 1
  obtain ⟨σ, hreach, hret, hhashed, hfs⟩ := exists_download hconnected
    (hframed.header _ [1]) ⟨_, hbefore⟩ hlegible.present (hlegible.computeSha256 _) hlegible
    ⟨_, (legible_single 3).present⟩ rfl (by decide) (by decide) (.inr rfl) hquiet hwrite
  have hreach := HashedReach.of_stepIf hreach hlegible.opens_path
  have hstat := (FileOps.stat_of_writeFile hquiet hwrite).2
  refine ⟨σ, fsC', hreach, hret, hfs ▸ (legible_single 3).present.storedAt_eq,
    download_keeps_hashed hframed sha256Hex_ne ⟨_, hbefore⟩ hreach hret fun d b hd hb _ => ?_⟩
  obtain rfl := Option.some.inj (hhashed.symm.trans hd)
  exact (Stat.file.inj (hstat.symm.trans hb)).symm

/-- A disk whose files cannot be opened for reading. -/
def unopened (fs : FileSystem) : FileSystem :=
  ⟨fs.nodes, { fs.os with fails := fun call _ => call = .openRead }⟩

/-- The file cannot be opened when it is hashed, and has been replaced by one that can when it
is sent: the client keeps what the file did not hold when it was hashed. -/
theorem not_download_keeps_unopened :
    ∃ σ fsC', TransferReach storageEnv (sampleClient 4096) (FileSystem.single ['c'] ['f'] none)
        (FileSystem.single ['s'] ['f'] (some [1])) "f" σ ∧
      σ.client.program = .ret (.ok (sha256Hex [2]), fsC') ∧ σ.sender.hashed = some [1] ∧
      fsC'.stat ((sampleClient 4096).fileOps.resolvePath "f") = .file [2] := by
  obtain ⟨fsC', hwrite⟩ := exists_write_single 2
  have hquiet : (FileSystem.single ['c'] ['f'] none).Quiet := FileSystem.quiet_of_calm rfl
  have hconnected : (sampleClient 4096).connected = true := rfl
  have hunopened : Present storageEnv.fm
      (unopened (FileSystem.single ['s'] ['f'] (some [1]))) "f" [1] := ⟨"s/f".toList, rfl, rfl⟩
  have hfit : (storageEnv.proto.zeroCopyDownloadHeader.encode ⟨"f", 1, "", 0⟩).length <
      RAW_DATA_SENTINEL := length_zeroCopyDownloadHeader_lt (by decide) (by decide)
  obtain ⟨σ, hreach, hret, hhashed, -⟩ := exists_download hconnected hfit
    ⟨_, (legible_single 1).present⟩ hunopened (by rfl) (legible_single 2)
    ⟨_, (legible_single 2).present⟩ rfl (by decide) (by decide) (.inl rfl) hquiet hwrite
  exact ⟨σ, fsC', .of_stepIf hreach, hret, hhashed, (FileOps.stat_of_writeFile hquiet hwrite).2⟩

end AdaptiveSync
