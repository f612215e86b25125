import AdaptiveSync.Protocol.TornDownload
import AdaptiveSync.Server.ZeroCopySender

/-!
# The bytes of a download

`send_file` puts the size of the raw frame on the socket before it opens the file. When
opening or streaming fails, `send_error` writes an `ErrorPayload` frame behind whatever part
of the raw frame has gone out. A reader takes the first bytes of the error for the rest of the file,
and what is left of it is too short to be the error.

So the bytes of a request are a sequence of frames, with the error among them if there was
one, exactly when no header went out or the streaming went through
(`download_framed_iff`). Here the handler is taken down to the answers of the kernel, on a
file that may have been replaced since it was measured; the handler of `Session` is the
case of a disk that does one of two things (`session_answers`). The headers and the error
are written as a whole.
-/

namespace AdaptiveSync

open Fs BigEndian ZeroCopySender
open LexPath (cStr)

/-! ### The handler, with the calls that may fail -/

/-- What the kernel answers to a streaming function. -/
inductive Calls where
  | sendfile (replies : List SysReply)
  | readSend (reads sends : List SysReply)

/-- The streaming function that makes these calls, on an open file. -/
def Calls.stream (content : Bytes) (offset bytesToSend : UInt64) : Calls → Streamed
  | .sendfile replies => sendFileLinux content offset bytesToSend replies
  | .readSend reads sends => sendFileFallback content offset bytesToSend reads sends

/-- How opening and streaming a file go. -/
structure Schedule where
  /-- What is in the file once it is open, if it can be opened. -/
  opened : Option Bytes
  calls : Calls

/-- The end of `send_file`, behind both headers. -/
def Schedule.stream (disk : Schedule) (offset bytesToSend : UInt64) : Streamed :=
  match disk.opened with
  | none => ⟨[], some false⟩
  | some content => disk.calls.stream content offset bytesToSend

/-- `send_file` up to its headers. It has returned `false` before when there is none. -/
def announceFile (env : Env) (fs : FileSystem) (relativePath : String) (offset : UInt64) :
    Except Crash (Option ZeroCopyDownloadHeader) := do
  let _ ← env.fm.resolvePath relativePath
  if !(← env.fm.fileExists fs relativePath) then return none
  let totalSize ← env.fm.getFileSize fs relativePath
  if totalSize = 0 then return none
  if totalSize ≤ offset then return none
  return some ⟨relativePath, totalSize, ← env.fm.computeSha256 env.sha256 fs relativePath, offset⟩

/-- What the handler of a request has written. -/
structure Answer where
  written : Bytes
  /-- The handler has returned, and the session goes on. -/
  returned : Bool
  /-- The frame of `send_error`. -/
  reported : Option WireFrame

/-- The handler ends with `send_error`. -/
def Answer.failed (written : Bytes) (frame : WireFrame) : Answer :=
  ⟨written ++ WireProtocol.encodeFrame frame, true, some frame⟩

/-- The error of a request that does not parse. -/
def malformedError (env : Env) : WireFrame :=
  message env.proto.errorPayload .error
    ⟨.protocolError, "Failed to parse ZeroCopyDownloadRequest", ""⟩

/-- The error of a download that failed. -/
def downloadError (env : Env) (p : String) : WireFrame :=
  message env.proto.errorPayload .error
    ⟨.fileNotFound, "File not found or transfer failed: " ++ p, ""⟩

/-- What is written once the header is there. -/
def streamAnswer (env : Env) (m : ZeroCopyDownloadHeader) (s : Streamed) : Answer :=
  let written := headerBytes env m ++
    (WireProtocol.encodeRawDataHeader (m.totalSize - m.offset).toNat ++ s.sent)
  match s.result with
  | none => ⟨written, false, none⟩
  | some true => ⟨written, true, none⟩
  | some false => .failed written (downloadError env m.relativePath)

/-- `handle_zero_copy_download_request`. -/
def answerDownload (env : Env) (fs : FileSystem) (payload : Bytes) (disk : Schedule) :
    Except Crash Answer :=
  match env.proto.zeroCopyDownloadRequest.decode payload with
  | none => .ok (.failed [] (malformedError env))
  | some req => do
    match ← announceFile env fs req.relativePath req.offset with
    | none => return .failed [] (downloadError env req.relativePath)
    | some m => return streamAnswer env m (disk.stream m.offset (m.totalSize - m.offset))

/-! ### Frames -/

/-- The bytes are complete frames, and the error that was reported is one of them. -/
def Answer.InFrames (a : Answer) : Prop :=
  ∃ n frames, readFrames WireProtocol.readFrame n a.written = some (frames, []) ∧
    ∀ f, a.reported = some f → f ∈ frames ∧ f.messageType = MessageType.error.code

theorem readFrame_encodeFrame_server {f : WireFrame} (h : f.payload.length < RAW_DATA_SENTINEL)
    (rest : Bytes) :
    WireProtocol.readFrame (WireProtocol.encodeFrame f ++ rest) = some (f, rest) :=
  WireProtocol.readFrame_encode (.standard f.messageType f.payload h) rest

theorem Answer.inFrames_failed {f : WireFrame} (h : f.payload.length < RAW_DATA_SENTINEL)
    (hf : f.messageType = MessageType.error.code) : (Answer.failed [] f).InFrames := by
  refine ⟨1, [f], ?_, ?_⟩
  · have hread := readFrame_encodeFrame_server h []
    rw [List.append_nil] at hread
    simp only [Answer.failed, List.nil_append, readFrames, hread, Option.bind_eq_bind,
      Option.bind_some]
  · rintro g hg
    obtain rfl := Option.some.inj hg
    exact ⟨List.mem_singleton_self f, hf⟩

/-- Both streaming functions keep to what they were asked for. -/
theorem Calls.streams (calls : Calls) (content : Bytes) (offset bytesToSend : UInt64) :
    ∃ src, Streams bytesToSend.toNat src (calls.stream content offset bytesToSend) := by
  cases calls with
  | sendfile replies => exact ⟨_, linux_streams content offset bytesToSend replies⟩
  | readSend reads sends => exact ⟨_, fallback_streams reads sends _ _⟩

/-- Opening and streaming go through exactly when all the bytes go out. -/
theorem Schedule.length_sent (disk : Schedule) (offset : UInt64) {bytesToSend : UInt64}
    (hpos : 0 < bytesToSend) :
    (disk.stream offset bytesToSend).sent.length ≤ bytesToSend.toNat ∧
      ((disk.stream offset bytesToSend).result = some true ↔
        (disk.stream offset bytesToSend).sent.length = bytesToSend.toNat) := by
  unfold Schedule.stream
  cases disk.opened with
  | none =>
    have hpos : 0 < bytesToSend.toNat := UInt64.lt_iff_toNat_lt.mp hpos
    exact ⟨Nat.zero_le _, by simp [hpos.ne]⟩
  | some content =>
    obtain ⟨src, hstreams⟩ := disk.calls.streams content offset bytesToSend
    exact ⟨hstreams.bounded, hstreams.through⟩

section Streamed

variable {env : Env} {m : ZeroCopyDownloadHeader} {s : Streamed}

/-- The header frame is read off first. -/
theorem readFrame_headerBytes
    (hfit : (env.proto.zeroCopyDownloadHeader.encode m).length < RAW_DATA_SENTINEL) (rest : Bytes) :
    WireProtocol.readFrame (headerBytes env m ++ rest) =
      some (message env.proto.zeroCopyDownloadHeader .zeroCopyDownloadHeader m, rest) :=
  readFrame_encodeFrame_server hfit rest

/-- Behind a raw-data header as many bytes are read as it says. -/
theorem readFrame_rawHeader {n : ℕ} (hn : n < 2 ^ 64) (rest : Bytes) :
    WireProtocol.readFrame (WireProtocol.encodeRawDataHeader n ++ rest) =
      (readExact n rest).map fun r => (⟨MSG_RAW_DATA, r.1⟩, r.2) := by
  have hbytes : WireProtocol.encodeRawDataHeader n ++ rest =
      be 4 RAW_DATA_SENTINEL ++ MSG_RAW_DATA :: (be 8 (n % 2 ^ 64) ++ rest) := by
    simp [WireProtocol.encodeRawDataHeader]
  rw [hbytes, WireProtocol.readFrame_sentinel (length_be 4 _) ofBe_be_sentinel (length_be 8 _),
    Nat.mod_eq_of_lt hn, ofBe_be_of_lt (by omega)]

/-- A stream that went through. -/
theorem inFrames_of_through
    (hfit : (env.proto.zeroCopyDownloadHeader.encode m).length < RAW_DATA_SENTINEL)
    (hres : s.result = some true) (hlen : s.sent.length = (m.totalSize - m.offset).toNat) :
    (streamAnswer env m s).InFrames := by
  have hraw : WireProtocol.readFrame (WireProtocol.encodeRawDataHeader
      (m.totalSize - m.offset).toNat ++ s.sent) = some (⟨MSG_RAW_DATA, s.sent⟩, []) := by
    have hexact := readExact_append hlen []
    rw [List.append_nil] at hexact
    rw [readFrame_rawHeader (UInt64.toNat_lt _), hexact]
    rfl
  simp only [streamAnswer, hres]
  refine ⟨2, [message env.proto.zeroCopyDownloadHeader .zeroCopyDownloadHeader m,
    ⟨MSG_RAW_DATA, s.sent⟩], ?_, fun f hf => absurd hf (by simp)⟩
  refine readFrames_succ.mpr ⟨_, _, _, readFrame_headerBytes hfit _, ?_, rfl⟩
  exact readFrames_succ.mpr ⟨_, _, _, hraw, rfl, rfl⟩

/-- **Behind a stream that broke off the error is not a frame.** -/
theorem not_inFrames_of_torn
    (hfit : (env.proto.zeroCopyDownloadHeader.encode m).length < RAW_DATA_SENTINEL)
    (hres : s.result = some false) (hlen : s.sent.length < (m.totalSize - m.offset).toNat) :
    ¬ (streamAnswer env m s).InFrames := by
  simp only [streamAnswer, hres]
  rintro ⟨n, frames, hread, hreported⟩
  obtain ⟨hmem, htype⟩ := hreported _ rfl
  simp only [Answer.failed, List.append_assoc] at hread
  -- the first frame is the header
  obtain _ | n := n
  · obtain ⟨rfl, -⟩ := Prod.mk.inj (Option.some.inj hread)
    exact absurd hmem List.not_mem_nil
  obtain ⟨f, s₁, frames, hfirst, hread, rfl⟩ := readFrames_succ.mp hread
  rw [readFrame_headerBytes hfit] at hfirst
  obtain ⟨rfl, rfl⟩ := Prod.mk.inj (Option.some.inj hfirst)
  obtain heq | hmem := List.mem_cons.mp hmem
  · rw [heq] at htype
    exact absurd (show MessageType.zeroCopyDownloadHeader.code = _ from htype) (by decide)
  -- the second is raw data, and takes some of the error with it
  obtain _ | n := n
  · obtain ⟨rfl, -⟩ := Prod.mk.inj (Option.some.inj hread)
    exact absurd hmem List.not_mem_nil
  obtain ⟨g, s₂, frames, hsecond, hread, rfl⟩ := readFrames_succ.mp hread
  rw [readFrame_rawHeader (UInt64.toNat_lt _)] at hsecond
  obtain ⟨⟨bytes, rest⟩, hbytes, hg⟩ := Option.map_eq_some_iff.mp hsecond
  obtain ⟨rfl, rfl⟩ := Prod.mk.inj hg
  obtain ⟨hcount, hsplit⟩ := readExact_eq_some_iff.mp hbytes
  obtain heq | hmem := List.mem_cons.mp hmem
  · rw [heq] at htype
    exact absurd (show MSG_RAW_DATA = _ from htype) (by decide)
  -- what is left is too short for it
  have hroom : (WireProtocol.encodeFrame (downloadError env m.relativePath)).length ≤
      rest.length := WireProtocol.length_mem_readFrames hread _ hmem
  have htotal := congrArg List.length hsplit
  rw [List.length_append, List.length_append] at htotal
  omega

/-- Behind a header the answer is in frames exactly when everything went through. -/
theorem inFrames_streamAnswer_iff {disk : Schedule}
    (hfit : (env.proto.zeroCopyDownloadHeader.encode m).length < RAW_DATA_SENTINEL)
    (hlt : m.offset < m.totalSize)
    (hret : (streamAnswer env m (disk.stream m.offset (m.totalSize - m.offset))).returned = true) :
    (streamAnswer env m (disk.stream m.offset (m.totalSize - m.offset))).InFrames ↔
      (disk.stream m.offset (m.totalSize - m.offset)).result = some true := by
  have hpos : 0 < m.totalSize - m.offset := by
    rw [UInt64.lt_iff_toNat_lt, UInt64.toNat_sub_of_le _ _ (UInt64.le_of_lt hlt)]
    exact Nat.sub_pos_of_lt (UInt64.lt_iff_toNat_lt.mp hlt)
  obtain ⟨hle, hthrough⟩ := disk.length_sent m.offset hpos
  cases hres : (disk.stream m.offset (m.totalSize - m.offset)).result with
  | none =>
    -- the handler is still streaming
    simp only [streamAnswer, hres] at hret
    exact absurd hret (by simp)
  | some ok =>
    cases ok with
    | true => exact iff_of_true (inFrames_of_through hfit hres (hthrough.mp hres)) rfl
    | false =>
      have hne := mt hthrough.mpr (by simp [hres])
      exact iff_of_false (not_inFrames_of_torn hfit hres (by omega)) (by simp)

end Streamed

/-! ### When a download is framed -/

section Framing

variable {env : Env} {fs : FileSystem} {payload : Bytes}

/-- What `announceFile` lets through. -/
theorem announceFile_eq_some {p : String} {offset : UInt64} {m : ZeroCopyDownloadHeader}
    (h : announceFile env fs p offset = .ok (some m)) :
    m.relativePath = p ∧ m.offset = offset ∧ m.offset < m.totalSize := by
  unfold announceFile at h
  obtain ⟨t, -, h⟩ := Except.bind_eq_ok_iff.mp h
  obtain ⟨found, -, h⟩ := Except.bind_eq_ok_iff.mp h
  split at h
  · exact absurd (Except.ok.inj h) (by simp)
  obtain ⟨totalSize, -, h⟩ := Except.bind_eq_ok_iff.mp h
  split at h
  · exact absurd (Except.ok.inj h) (by simp)
  split at h
  · exact absurd (Except.ok.inj h) (by simp)
  next hlt =>
  obtain ⟨hash, -, h⟩ := Except.bind_eq_ok_iff.mp h
  obtain rfl := Option.some.inj (Except.ok.inj h)
  exact ⟨rfl, rfl, UInt64.not_le.mp hlt⟩

/-- The frames that answer a request fit their length field. -/
structure AnswerFits (env : Env) (fs : FileSystem) (payload : Bytes) : Prop where
  malformed : (malformedError env).payload.length < RAW_DATA_SENTINEL
  refusal : ∀ req, env.proto.zeroCopyDownloadRequest.decode payload = some req →
    (downloadError env req.relativePath).payload.length < RAW_DATA_SENTINEL
  header : ∀ req m, env.proto.zeroCopyDownloadRequest.decode payload = some req →
    announceFile env fs req.relativePath req.offset = .ok (some m) →
      (env.proto.zeroCopyDownloadHeader.encode m).length < RAW_DATA_SENTINEL

/-- Nothing goes wrong behind a header. -/
def Unbroken (env : Env) (fs : FileSystem) (payload : Bytes) (disk : Schedule) : Prop :=
  ∀ req m, env.proto.zeroCopyDownloadRequest.decode payload = some req →
    announceFile env fs req.relativePath req.offset = .ok (some m) →
      (disk.stream m.offset (m.totalSize - m.offset)).result = some true

/-- **A request is answered in frames, a failure included, if and only if** no header went out
or opening and streaming the file went through. -/
theorem download_framed_iff {disk : Schedule} {a : Answer} (hfits : AnswerFits env fs payload)
    (ha : answerDownload env fs payload disk = .ok a) (hret : a.returned = true) :
    a.InFrames ↔ Unbroken env fs payload disk := by
  unfold answerDownload at ha
  split at ha
  · next hreq =>
    -- a request that does not parse
    obtain rfl := Except.ok.inj ha
    refine iff_of_true (Answer.inFrames_failed hfits.malformed rfl) fun req m hsome => ?_
    exact absurd (hreq.symm.trans hsome) (by simp)
  next req hreq =>
  obtain ⟨announced, hann, ha⟩ := Except.bind_eq_ok_iff.mp ha
  cases announced with
  | none =>
    -- a refusal
    obtain rfl := Except.ok.inj ha
    refine iff_of_true (Answer.inFrames_failed (hfits.refusal req hreq) rfl) fun req' m hsome hm =>
      ?_
    obtain rfl := Option.some.inj (hreq.symm.trans hsome)
    exact absurd (hann.symm.trans hm) (by simp)
  | some m =>
    obtain rfl := Except.ok.inj ha
    obtain ⟨-, -, hlt⟩ := announceFile_eq_some hann
    have hunbroken : Unbroken env fs payload disk ↔
        (disk.stream m.offset (m.totalSize - m.offset)).result = some true := by
      refine ⟨fun h => h req m hreq hann, fun h req' m' hreq' hann' => ?_⟩
      obtain rfl := Option.some.inj (hreq.symm.trans hreq')
      obtain rfl := Option.some.inj (Except.ok.inj (hann.symm.trans hann'))
      exact h
    rw [hunbroken]
    exact inFrames_streamAnswer_iff (hfits.header req m hreq hann) hlt hret

end Framing

/-! ### The handler of the session -/

/-- The bytes on the socket. -/
def Sent.bytes : Sent → Bytes
  | .frame f => WireProtocol.encodeFrame f
  | .raw announced bytes => WireProtocol.encodeRawDataHeader announced ++ bytes

section Session

variable {env : Env} {fs : FileSystem} {p : String} {offset : UInt64}

/-- A file that can be opened is as long as it was measured. -/
theorem le_of_getFileSize {t : LexPath.Text} {n : UInt64} {b : Bytes}
    (ht : env.fm.resolvePath p = .ok t) (hn : env.fm.getFileSize fs p = .ok n)
    (hb : fs.openRead (cStr t) = some (.file b)) : n.toNat ≤ b.length := by
  have hstat : fs.stat (cStr t) = .file b := by
    unfold FileSystem.openRead at hb
    split at hb
    · exact absurd hb (by simp)
    split at hb
    · next hstat => rw [hstat, Node.file.inj (Option.some.inj hb)]
    · exact absurd (Option.some.inj hb) (by simp)
    · exact absurd hb (by simp)
  simp only [FileManager.getFileSize, ht, existsOrThrow, hstat, Except.ok_bind, Bool.not_true,
    Bool.false_eq_true, if_false] at hn
  obtain rfl := Except.ok.inj hn
  rw [UInt64.toNat_ofNat']
  exact Nat.mod_le _ _

/-- A disk on which everything goes through. -/
theorem exists_schedule {n : UInt64} {b : Bytes} (h : offset.toNat + n.toNat ≤ b.length) :
    ∃ disk : Schedule, disk.stream offset n = ⟨(b.drop offset.toNat).take n.toNat, some true⟩ := by
  have hroom : n.toNat ≤ (b.drop offset.toNat).length := by
    rw [List.length_drop]
    omega
  obtain ⟨k, hk⟩ := Drain.Loop.run_of_legal (l := linuxLoop) (by decide) (Drain.Loop.legal_const 1)
    (fun n hn _ => Nat.lt_min.mpr ⟨hn, by decide⟩) hroom
  refine ⟨⟨some b, .sendfile ((Stream'.const (.moves 1)).take k)⟩, ?_⟩
  show sendFileLinux b offset n ((Stream'.const (.moves 1)).take k) = _
  rw [sendFileLinux, ← List.append_nil ((Stream'.const _).take k), hk]
  rfl

/-- `send_file` of the session announces, and streams from some disk. -/
theorem sendFile_cases (env : Env) (fs : FileSystem) (p : String) (offset : UInt64) :
    (∃ e, announceFile env fs p offset = .error e ∧ sendFile env fs p offset = (.error e, [])) ∨
    (announceFile env fs p offset = .ok none ∧ sendFile env fs p offset = (.ok false, [])) ∨
    ∃ (m : ZeroCopyDownloadHeader) (disk : Schedule) (ok : Bool),
      announceFile env fs p offset = .ok (some m) ∧
      (disk.stream m.offset (m.totalSize - m.offset)).result = some ok ∧
      sendFile env fs p offset = (.ok ok,
        [.frame (message env.proto.zeroCopyDownloadHeader .zeroCopyDownloadHeader m),
          .raw (m.totalSize - m.offset).toNat
            (disk.stream m.offset (m.totalSize - m.offset)).sent]) := by
  cases ht : env.fm.resolvePath p with
  | error e => exact .inl ⟨e, by simp [announceFile, ht], by simp [sendFile, ht]⟩
  | ok t =>
  cases hex : env.fm.fileExists fs p with
  | error e => exact .inl ⟨e, by simp [announceFile, ht, hex], by simp [sendFile, ht, hex]⟩
  | ok found =>
  cases found with
  | false => exact .inr (.inl ⟨by simp [announceFile, ht, hex, pure, Except.pure],
      by simp [sendFile, ht, hex, pure, Except.pure]⟩)
  | true =>
  cases hn : env.fm.getFileSize fs p with
  | error e => exact .inl ⟨e, by simp [announceFile, ht, hex, hn], by simp [sendFile, ht, hex, hn]⟩
  | ok n =>
  by_cases hsmall : n = 0 ∨ n ≤ offset
  · refine .inr (.inl ?_)
    obtain rfl | hle := hsmall
    · simp [announceFile, sendFile, ht, hex, hn, pure, Except.pure]
    · simp [announceFile, sendFile, ht, hex, hn, hle, pure, Except.pure]
  obtain ⟨hzero, hle⟩ := not_or.mp hsmall
  have hle' : offset ≤ n := UInt64.le_of_lt (UInt64.not_le.mp hle)
  cases hhash : env.fm.computeSha256 env.sha256 fs p with
  | error e =>
    exact .inl ⟨e, by simp [announceFile, ht, hex, hn, hzero, hle, hhash],
      by simp [sendFile, ht, hex, hn, hzero, hle, hhash, pure, Except.pure]⟩
  | ok hash =>
  refine .inr (.inr ⟨⟨p, n, hash, offset⟩, ?_⟩)
  have hann : announceFile env fs p offset = .ok (some ⟨p, n, hash, offset⟩) := by
    simp [announceFile, ht, hex, hn, hzero, hle, hhash, pure, Except.pure]
  -- the session's disk delivers everything, or opens nothing
  by_cases hopens : ∃ b, fs.openRead (cStr t) = some (.file b) ∧
      fs.os.fails .read (fs.locate (cStr t)) = false
  · obtain ⟨b, hopen, hread⟩ := hopens
    have hlen := le_of_getFileSize ht hn hopen
    have hsub := UInt64.toNat_sub_of_le _ _ hle'
    have hlt := UInt64.le_iff_toNat_le.mp hle'
    have hroom : offset.toNat + (n - offset).toNat ≤ b.length := by omega
    obtain ⟨disk, hdisk⟩ := exists_schedule hroom
    refine ⟨disk, true, hann, by rw [hdisk], ?_⟩
    rw [hdisk]
    simp [sendFile, ht, hex, hn, hzero, hle, hhash, hopen, hread, pure, Except.pure]
  · refine ⟨⟨none, .sendfile []⟩, false, hann, rfl, ?_⟩
    simp only [sendFile, ht, hex, hn, hzero, hle, hhash, pure, Except.pure, Except.ok_bind,
      Bool.not_true, Bool.false_eq_true, if_false]
    split
    · next b hopen =>
      rw [if_pos (by simpa using fun h => hopens ⟨b, hopen, h⟩)]
      rfl
    · rfl

/-- **The session's handler is the handler of some disk.** -/
theorem session_answers {srv : Server} {payload : Bytes}
    (hup : (Server.handleZeroCopyDownloadRequest env srv payload).1.crash = none) :
    ∃ disk a, answerDownload env srv.fs payload disk = .ok a ∧ a.returned = true ∧
      (Server.handleZeroCopyDownloadRequest env srv payload).2.flatMap Sent.bytes = a.written := by
  unfold Server.handleZeroCopyDownloadRequest at hup ⊢
  cases hreq : env.proto.zeroCopyDownloadRequest.decode payload with
  | none =>
    refine ⟨⟨none, .sendfile []⟩, .failed [] (malformedError env), ?_, rfl, ?_⟩
    · simp only [answerDownload, hreq]
    · simp [Server.sendError, Sent.bytes, Answer.failed, malformedError]
  | some req =>
    simp only [hreq] at hup
    obtain ⟨e, -, hsend⟩ | ⟨hann, hsend⟩ | ⟨m, disk, ok, hann, hres, hsend⟩ :=
      sendFile_cases env srv.fs req.relativePath req.offset
    · simp only [hsend, Server.throw] at hup
      exact absurd hup (by simp)
    · refine ⟨⟨none, .sendfile []⟩, .failed [] (downloadError env req.relativePath), ?_, rfl, ?_⟩
      · simp only [answerDownload, hreq, hann, Except.ok_bind]
        rfl
      · simp [hsend, Server.sendError, Sent.bytes, Answer.failed, downloadError]
    · obtain ⟨hpath, -, -⟩ := announceFile_eq_some hann
      refine ⟨disk, streamAnswer env m (disk.stream m.offset (m.totalSize - m.offset)), ?_, ?_⟩
      · simp only [answerDownload, hreq, hann, Except.ok_bind]
        rfl
      cases ok with
      | true => simp [hsend, streamAnswer, hres, Sent.bytes, headerBytes]
      | false =>
        simp [hsend, streamAnswer, hres, Sent.bytes, headerBytes, Answer.failed, downloadError,
          Server.sendError, hpath]

/-- A file that is served is announced as it is. -/
theorem announceFile_of_file {t : LexPath.Text} {d : Bytes} (hr : env.fm.Legible fs p t d)
    (hd : d ≠ []) (hlt : d.length < maxOffset) :
    announceFile env fs p 0 = .ok (some ⟨p, UInt64.ofNat d.length, env.sha256 d, 0⟩) := by
  have hpos : 0 < d.length := List.length_pos_iff.mpr hd
  have hle : ¬ UInt64.ofNat d.length ≤ 0 := fun hc => by
    rw [UInt64.le_iff_toNat_le, toNat_ofNat_of_lt hlt] at hc
    exact absurd hc (by simp; omega)
  have hzero : UInt64.ofNat d.length ≠ 0 := fun hc => hle (by simp [hc])
  simp only [announceFile, hr.resolves, hr.fileExists, hr.getFileSize, hr.computeSha256,
    Except.ok_bind, Bool.not_true, Bool.false_eq_true, if_false, hzero, hle]
  rfl

end Session

/-! ### A download of one byte -/

/-- The request for the file `f`. -/
def samplePayload : Bytes := protobuf.zeroCopyDownloadRequest.encode ⟨"f", 0⟩

theorem decode_samplePayload :
    storageEnv.proto.zeroCopyDownloadRequest.decode samplePayload = some ⟨"f", 0⟩ :=
  protobuf.zeroCopyDownloadRequest.decode_encode _

theorem announceFile_sample :
    announceFile storageEnv (FileSystem.single ['s'] ['f'] (some [1])) "f" 0 =
      .ok (some ⟨"f", 1, sha256Hex [1], 0⟩) := by
  exact announceFile_of_file (legible_single 1) (by decide) (by decide)

theorem framed_sample : Framed storageEnv "f" := framed_protobuf rfl rfl (by decide)

theorem answerFits_sample :
    AnswerFits storageEnv (FileSystem.single ['s'] ['f'] (some [1])) samplePayload where
  malformed := length_errorPayload_lt (by decide) (by decide)
  refusal req hreq := by
    obtain rfl := Option.some.inj (decode_samplePayload.symm.trans hreq)
    exact framed_sample.refusal
  header req m hreq hann := by
    obtain rfl := Option.some.inj (decode_samplePayload.symm.trans hreq)
    obtain rfl := Option.some.inj (Except.ok.inj (announceFile_sample.symm.trans hann))
    exact framed_sample.header 1 [1]

theorem answerDownload_sample (disk : Schedule) :
    answerDownload storageEnv (FileSystem.single ['s'] ['f'] (some [1])) samplePayload disk =
      .ok (streamAnswer storageEnv ⟨"f", 1, sha256Hex [1], 0⟩ (disk.stream 0 1)) := by
  simp only [answerDownload, decode_samplePayload, announceFile_sample, Except.ok_bind]
  rfl

/-- The byte goes out after one interrupted call. -/
theorem download_framed_of_one_byte :
    ∃ a, answerDownload storageEnv (FileSystem.single ['s'] ['f'] (some [1])) samplePayload
        ⟨some [1], .sendfile [.fails .eintr, .moves 1]⟩ = .ok a ∧ a.returned = true ∧
      a.InFrames := by
  refine ⟨_, answerDownload_sample _, rfl,
    (download_framed_iff answerFits_sample (answerDownload_sample _) rfl).mpr ?_⟩
  intro req m hreq hann
  obtain rfl := Option.some.inj (decode_samplePayload.symm.trans hreq)
  obtain rfl := Option.some.inj (Except.ok.inj (announceFile_sample.symm.trans hann))
  rfl

/-- The file cannot be opened any more when both headers have gone out. -/
theorem failed_download_breaks_framing :
    ∃ a, answerDownload storageEnv (FileSystem.single ['s'] ['f'] (some [1])) samplePayload
        ⟨none, .sendfile []⟩ = .ok a ∧ a.returned = true ∧ ¬ a.InFrames := by
  refine ⟨_, answerDownload_sample _, rfl, not_inFrames_of_torn ?_ rfl (by decide)⟩
  exact answerFits_sample.header _ _ decode_samplePayload announceFile_sample

end AdaptiveSync
