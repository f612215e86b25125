import Mathlib.Data.List.TakeWhile
import AdaptiveSync.Server.Effects

/-!
# What an upload commits

`handle_zero_copy_upload_request` (`server/src/session.cpp`) reads frames until as many raw
bytes have come as were announced, drops the frames of other types in between, and saves
what it has if that is exactly as much as was announced. Here it runs on the frames that
follow the request and the end of the stream behind them (`Server.upload`).

The frames it reads are the shortest run with enough raw bytes (`consumed`), or all of them.
`upload_eq` says that it then ends as `finishUpload` does with their raw bytes in the buffer.
What the store looks like afterwards depends on three cases: too few bytes, exactly enough,
and too many.

* With exactly enough the file is replaced by them, and in both other cases the store is
  left as it is (`upload_saves_exactly`). But for the handler the stream also ends where
  `read_frame` gives up, on raw data of `2 ^ 32` bytes and more (`delivered`), and behind
  U+0000 the scratch file is the file and stays there (`upload_commits_iff`).
* The announced hash is not compared with anything, bytes in excess are not reported, and
  neither is a failed rename (`upload_integrity_iff`).
-/

namespace AdaptiveSync

open Fs
open LexPath (cStr nul)

/-! ### The handler on a stream of frames -/

/-- The raw bytes that a frame carries into an upload. -/
def WireFrame.raw (f : WireFrame) : Bytes :=
  if f.messageType = MSG_RAW_DATA then f.payload else []

/-- The raw bytes of a sequence of frames. -/
def rawBytes (frames : List WireFrame) : Bytes := frames.flatMap WireFrame.raw

/-- `read_frame` takes the frame. It gives up on raw data of `2 ^ 32` bytes and more, whose length
`read_exact` narrows to 32 bits. -/
def WireFrame.Delivered (f : WireFrame) : Prop :=
  f.messageType = MSG_RAW_DATA → f.payload.length < 2 ^ 32

instance (f : WireFrame) : Decidable f.Delivered := inferInstanceAs (Decidable (_ → _))

/-- The frames of a stream that the session gets. -/
def delivered (frames : List WireFrame) : List WireFrame :=
  frames.takeWhile fun f => f.Delivered

/-- The frames an upload reads while `missing` bytes are to come. -/
def consumed : ℕ → List WireFrame → List WireFrame
  | 0, _ => []
  | _ + 1, [] => []
  | missing + 1, f :: frames => f :: consumed (missing + 1 - f.raw.length) frames

/-- How an upload has ended, with the frames it did not read. -/
structure UploadRun where
  server : Server
  sent : List Sent
  unread : List WireFrame

/-- The same after `sent` has gone out. -/
def UploadRun.after (r : UploadRun) (sent : List Sent) : UploadRun :=
  { r with sent := sent ++ r.sent }

/-- The end of the handler with the bytes that have come, and with the frames left over. -/
def Server.ended (env : Env) (srv : Server) (missing : Bool) (unread : List WireFrame) :
    UploadRun :=
  let r := Server.finishUpload env srv
  if missing then ⟨r.1, Server.sendError env .error "Connection lost during upload" :: r.2, []⟩
  else ⟨r.1, r.2, unread⟩

/-- The loop of the upload handler, on the frames that come and then the end of the
stream. -/
def Server.uploadFrom (env : Env) : Server → List WireFrame → UploadRun
  | srv, [] => if srv.uploading then Server.ended env srv true [] else ⟨srv, [], []⟩
  | srv, frame :: frames =>
    if srv.uploading then
      let r := Server.uploadFrame env srv frame
      (Server.uploadFrom env r.1 frames).after r.2
    else ⟨srv, [], frame :: frames⟩

@[simp] theorem UploadRun.after_nil (r : UploadRun) : r.after [] = r := rfl

theorem UploadRun.after_after (r : UploadRun) (out out' : List Sent) :
    (r.after out').after out = r.after (out ++ out') := by
  simp [UploadRun.after]

/-- `handle_zero_copy_upload_request` with the stream behind it. -/
def Server.upload (env : Env) (srv : Server) (payload : Bytes) (frames : List WireFrame) :
    UploadRun :=
  let r := Server.handleZeroCopyUploadRequest env srv payload
  (Server.uploadFrom env r.1 frames).after r.2

section Run

variable {env : Env} {srv : Server}

/-- A process that waits inside an upload is up. -/
theorem crash_uploadLoop (hup : srv.crash = none)
    (h : (Server.uploadLoop env srv).1.uploading = true) :
    (Server.uploadLoop env srv).1.crash = none := by
  unfold Server.uploadLoop at h ⊢
  split at h
  · next hlt =>
    rw [if_pos hlt]
    exact hup
  · exact absurd (h.symm.trans uploading_finishUpload) (by simp)

theorem crash_uploadFrame (hup : srv.crash = none) {frame : WireFrame}
    (h : (Server.uploadFrame env srv frame).1.uploading = true) :
    (Server.uploadFrame env srv frame).1.crash = none := by
  unfold Server.uploadFrame at h ⊢
  split at h
  · next hraw =>
    rw [if_pos hraw]
    exact crash_uploadLoop (by exact hup) h
  · next hraw =>
    rw [if_neg hraw]
    exact crash_uploadLoop hup h

theorem uploadFrom_idle (h : srv.uploading = false) (frames : List WireFrame) :
    Server.uploadFrom env srv frames = ⟨srv, [], frames⟩ := by
  cases frames with
  | nil => rw [Server.uploadFrom, h]; rfl
  | cons f frames => rw [Server.uploadFrom, h]; rfl

/-- **The handler on a stream is the session on its frames**: it takes the first of them, and
has ended with them or with the end of the stream. -/
theorem uploadFrom_eq_run (frames : List WireFrame) :
    ∀ {srv : Server}, (srv.uploading = true → srv.crash = none) →
      ∃ taken unread, frames = taken ++ unread ∧
        ((Server.run env srv taken).1.uploading = false ∧ Server.uploadFrom env srv frames =
            ⟨(Server.run env srv taken).1, (Server.run env srv taken).2, unread⟩ ∨
          (Server.run env srv taken).1.uploading = true ∧ unread = [] ∧
            Server.uploadFrom env srv frames =
              (Server.ended env (Server.run env srv taken).1 true []).after
                (Server.run env srv taken).2) := by
  induction frames with
  | nil =>
    intro srv _
    refine ⟨[], [], rfl, ?_⟩
    cases hup : srv.uploading with
    | false => exact .inl ⟨hup, by rw [uploadFrom_idle hup]; rfl⟩
    | true => exact .inr ⟨hup, rfl, by rw [Server.uploadFrom, hup]; rfl⟩
  | cons frame frames ih =>
    intro srv hcrash
    cases hup : srv.uploading with
    | false => exact ⟨[], frame :: frames, rfl, .inl ⟨hup, by rw [uploadFrom_idle hup]; rfl⟩⟩
    | true =>
      -- one frame is taken, and the rest of the stream is for the session after it
      obtain ⟨taken, unread, hsplit, hrun⟩ :=
        @ih (Server.uploadFrame env srv frame).1 fun h => crash_uploadFrame (hcrash hup) h
      have hstep : Server.step env srv frame = Server.uploadFrame env srv frame := by
        rw [Server.step, hup]
        rfl
      have hfrom : Server.uploadFrom env srv (frame :: frames) =
          (Server.uploadFrom env (Server.uploadFrame env srv frame).1 frames).after
            (Server.uploadFrame env srv frame).2 := by
        rw [Server.uploadFrom, hup]
        rfl
      refine ⟨frame :: taken, unread, by rw [hsplit]; rfl, ?_⟩
      rw [Server.run_cons (hcrash hup), hstep, hfrom]
      obtain ⟨hidle, heq⟩ | ⟨hwait, hnil, heq⟩ := hrun
      · exact .inl ⟨hidle, by rw [heq]; rfl⟩
      · exact .inr ⟨hwait, hnil, by rw [heq, UploadRun.after_after]⟩

end Run

/-! ### Which frames it reads -/

section Consumed

variable {n : ℕ} {frames taken rest : List WireFrame}

@[simp] theorem rawBytes_nil : rawBytes [] = [] := rfl

@[simp] theorem rawBytes_cons (f : WireFrame) (frames : List WireFrame) :
    rawBytes (f :: frames) = f.raw ++ rawBytes frames := rfl

/-- The raw bytes reach `n` with the last of the frames `taken`, and not before. -/
structure FirstReach (n : ℕ) (frames taken rest : List WireFrame) : Prop where
  split : frames = taken ++ rest
  reached : n ≤ (rawBytes taken).length
  first : ∀ q, q <+: taken → q ≠ taken → (rawBytes q).length < n

@[simp] theorem consumed_zero (frames : List WireFrame) : consumed 0 frames = [] := by
  cases frames <;> rfl

theorem consumed_cons (hn : 0 < n) (f : WireFrame) (frames : List WireFrame) :
    consumed n (f :: frames) = f :: consumed (n - f.raw.length) frames := by
  obtain ⟨m, rfl⟩ := Nat.exists_eq_succ_of_ne_zero hn.ne'
  rfl

/-- Where the raw bytes reach `n`, the frames up to there are read. -/
theorem FirstReach.consumed_eq (h : FirstReach n frames taken rest) :
    consumed n frames = taken := by
  obtain ⟨rfl, hreached, hfirst⟩ := h
  induction taken generalizing n with
  | nil =>
    have hn : n = 0 := Nat.le_zero.mp hreached
    rw [hn, consumed_zero]
  | cons f taken ih =>
    have hn : 0 < n := hfirst [] List.nil_prefix (by simp)
    rw [rawBytes_cons, List.length_append] at hreached
    rw [List.cons_append, consumed_cons hn]
    congr 1
    refine ih (by omega) fun q hq hne => ?_
    -- a shorter run behind `f` is a shorter run with `f` in front
    have hlt := hfirst (f :: q) (List.cons_prefix_cons.mpr ⟨rfl, hq⟩) (by simpa using hne)
    rw [rawBytes_cons, List.length_append] at hlt
    omega

/-- Where the frames read have enough raw bytes, they have them with the last one. -/
theorem firstReach_consumed (h : n ≤ (rawBytes (consumed n frames)).length) :
    FirstReach n frames (consumed n frames) (frames.drop (consumed n frames).length) := by
  induction frames generalizing n with
  | nil =>
    cases n with
    | zero => exact ⟨by simp, by simp, fun q hq hne => absurd (List.prefix_nil.mp hq) hne⟩
    | succ n => exact absurd h (by simp [consumed])
  | cons f frames ih =>
    by_cases hn : 0 < n
    · rw [consumed_cons hn, rawBytes_cons, List.length_append] at h
      obtain ⟨hsplit, hreached, hfirst⟩ := ih (n := n - f.raw.length) (by omega)
      rw [consumed_cons hn]
      refine ⟨by simpa using hsplit, by rw [rawBytes_cons, List.length_append]; omega, ?_⟩
      intro q hq hne
      cases q with
      | nil => exact hn
      | cons g q =>
        obtain ⟨rfl, hq⟩ := List.cons_prefix_cons.mp hq
        have hlt := hfirst q hq (by rintro rfl; exact hne rfl)
        rw [rawBytes_cons, List.length_append]
        omega
    · obtain rfl : n = 0 := by omega
      simp only [consumed_zero]
      exact ⟨rfl, by simp, fun q hq hne => absurd (List.prefix_nil.mp hq) hne⟩

end Consumed

/-! ### How it ends -/

/-- The upload state with these bytes in the buffer. -/
def UploadState.holding (u : UploadState) (bytes : Bytes) : UploadState :=
  { u with buffer := bytes, received := UInt64.ofNat bytes.length }

/-- What goes out while bytes are coming in. -/
def IsProgress (env : Env) (s : Sent) : Prop :=
  ∃ m, s = .frame (message env.proto.progressUpdate .progress m)

theorem isProgress_sendProgress (env : Env) (u : UploadState) (n : ℕ) :
    ∀ s ∈ Server.sendProgress env u n, IsProgress env s := by
  intro s hs
  unfold Server.sendProgress at hs
  split at hs
  · exact absurd hs (by simp)
  · exact ⟨_, List.mem_singleton.mp hs⟩

@[simp] theorem Server.ended_server (env : Env) (srv : Server) (missing : Bool)
    (unread : List WireFrame) :
    (Server.ended env srv missing unread).server = (Server.finishUpload env srv).1 := by
  unfold Server.ended
  split <;> rfl

/-- The run has come to the end of the handler with `bytes` in the buffer, in the store it
began in; in between only progress was reported. -/
def FinishesWith (env : Env) (u : UploadState) (srv : Server) (bytes : Bytes)
    (unread : List WireFrame) (r : UploadRun) : Prop :=
  ∃ srv' progress, (∀ s ∈ progress, IsProgress env s) ∧ srv'.fs = srv.fs ∧
    srv'.crash = srv.crash ∧ srv'.session.uploadState = u.holding bytes ∧
    r = (Server.ended env srv' (decide (bytes.length < u.totalSize.toNat)) unread).after progress

section Ends

variable {env : Env} {srv : Server} {u : UploadState} {bytes : Bytes} {r : UploadRun}
  {unread : List WireFrame}

/-- What was reported before does not matter. -/
theorem FinishesWith.after {next : Server} (h : FinishesWith env u next bytes unread r)
    (hfs : next.fs = srv.fs) (hcrash : next.crash = srv.crash) {progress : List Sent}
    (hp : ∀ s ∈ progress, IsProgress env s) :
    FinishesWith env u srv bytes unread (r.after progress) := by
  obtain ⟨srv', progress', hp', hfs', hcrash', hstate, rfl⟩ := h
  refine ⟨srv', progress ++ progress', ?_, hfs'.trans hfs, hcrash'.trans hcrash, hstate,
    UploadRun.after_after _ _ _⟩
  intro s hs
  exact (List.mem_append.mp hs).elim (hp s) (hp' s)

/-- One frame adds its raw bytes to the buffer. -/
theorem uploadFrame_eq (hstate : srv.session.uploadState = u.holding bytes) (f : WireFrame) :
    ∃ next progress, (∀ s ∈ progress, IsProgress env s) ∧ next.fs = srv.fs ∧
      next.crash = srv.crash ∧ next.session.uploadState = u.holding (bytes ++ f.raw) ∧
      Server.uploadFrame env srv f =
        ((Server.uploadLoop env next).1, progress ++ (Server.uploadLoop env next).2) := by
  unfold Server.uploadFrame
  by_cases hraw : f.messageType = MSG_RAW_DATA
  · rw [if_pos hraw, hstate]
    refine ⟨{ srv with
      session := { srv.session with uploadState := { u.holding bytes with
        buffer := bytes ++ f.payload
        received := UInt64.ofNat bytes.length + UInt64.ofNat f.payload.length } }
      ticks := srv.ticks + 1 }, _, isProgress_sendProgress _ _ _, rfl, rfl, ?_, rfl⟩
    simp [UploadState.holding, WireFrame.raw, hraw, UInt64.ofNat_add]
  · rw [if_neg hraw]
    refine ⟨srv, [], by simp, rfl, rfl, ?_, by simp⟩
    rw [hstate, WireFrame.raw, if_neg hraw, List.append_nil]

/-- With enough in the buffer the loop ends. -/
theorem finishesWith_of_le (hstate : srv.session.uploadState = u.holding bytes)
    (hfits : bytes.length < 2 ^ 64) (hle : u.totalSize.toNat ≤ bytes.length)
    (frames : List WireFrame) :
    FinishesWith env u srv bytes frames
      ((Server.uploadFrom env (Server.uploadLoop env srv).1 frames).after
        (Server.uploadLoop env srv).2) := by
  have hloop : Server.uploadLoop env srv = Server.finishUpload env srv := by
    refine if_neg ?_
    rw [hstate, UInt64.lt_iff_toNat_lt]
    show ¬ (UInt64.ofNat bytes.length).toNat < u.totalSize.toNat
    rw [UInt64.toNat_ofNat', Nat.mod_eq_of_lt hfits]
    omega
  refine ⟨srv, [], by simp, rfl, rfl, hstate, ?_⟩
  rw [hloop, uploadFrom_idle uploading_finishUpload, Server.ended, decide_eq_false (by omega)]
  simp [UploadRun.after]

theorem uploadLoop_of_lt (hstate : srv.session.uploadState = u.holding bytes)
    (hlt : bytes.length < u.totalSize.toNat) :
    Server.uploadLoop env srv = ({ srv with uploading := true }, []) := by
  refine if_pos ?_
  rw [hstate, UInt64.lt_iff_toNat_lt]
  show (UInt64.ofNat bytes.length).toNat < u.totalSize.toNat
  rw [UInt64.toNat_ofNat', Nat.mod_eq_of_lt (hlt.trans u.totalSize.toNat_lt)]
  exact hlt

/-- **The loop.** It reads the frames that `consumed` says, and finishes with their raw bytes
in the buffer. The bytes are taken to fit the counter: the buffer does not hold more. -/
theorem finishesWith_uploadLoop (frames : List WireFrame) :
    ∀ {srv : Server} {bytes : Bytes} {missing : ℕ}, srv.session.uploadState = u.holding bytes →
      missing = u.totalSize.toNat - bytes.length →
      (bytes ++ rawBytes (consumed missing frames)).length < 2 ^ 64 →
      FinishesWith env u srv (bytes ++ rawBytes (consumed missing frames))
        (frames.drop (consumed missing frames).length)
        ((Server.uploadFrom env (Server.uploadLoop env srv).1 frames).after
          (Server.uploadLoop env srv).2) := by
  induction frames with
  | nil =>
    intro srv bytes missing hstate hmissing hfits
    cases missing with
    | zero =>
      simp only [consumed_zero, rawBytes_nil, List.append_nil] at hfits ⊢
      exact finishesWith_of_le hstate hfits (by omega) []
    | succ missing =>
      have hlt : bytes.length < u.totalSize.toNat := by omega
      simp only [consumed, rawBytes_nil, List.append_nil]
      rw [uploadLoop_of_lt hstate hlt]
      -- the stream ends with bytes missing
      refine ⟨{ srv with uploading := true }, [], by simp, rfl, rfl, hstate, ?_⟩
      rw [Server.ended, decide_eq_true hlt]
      rfl
  | cons f frames ih =>
    intro srv bytes missing hstate hmissing hfits
    by_cases hpos : 0 < missing
    · -- the loop waits, takes `f`, and goes on with fewer bytes missing
      have hlt : bytes.length < u.totalSize.toNat := by omega
      obtain ⟨next, progress, hp, hfs, hcrash, hnext, hframe⟩ :=
        @uploadFrame_eq env { srv with uploading := true } u bytes hstate f
      have hrest := @ih next (bytes ++ f.raw) (missing - f.raw.length) hnext
        (by rw [List.length_append]; omega) (by
          rw [consumed_cons hpos, rawBytes_cons, ← List.append_assoc] at hfits
          exact hfits)
      rw [uploadLoop_of_lt hstate hlt, consumed_cons hpos, rawBytes_cons, ← List.append_assoc]
      have hrun : Server.uploadFrom env { srv with uploading := true } (f :: frames) =
          ((Server.uploadFrom env (Server.uploadLoop env next).1 frames).after
            (Server.uploadLoop env next).2).after progress := by
        rw [Server.uploadFrom, if_pos rfl, hframe, UploadRun.after_after]
      show FinishesWith env u srv _ _ (UploadRun.after _ [])
      rw [hrun, UploadRun.after_nil]
      exact hrest.after hfs hcrash hp
    · -- `f` is not read
      obtain rfl : missing = 0 := by omega
      simp only [consumed_zero, rawBytes_nil, List.append_nil] at hfits ⊢
      exact finishesWith_of_le hstate hfits (by omega) (f :: frames)

/-- The acknowledgment. -/
def uploadAck (env : Env) : Sent :=
  .frame (message env.proto.zeroCopyUploadAck .zeroCopyUploadAck ⟨.ok, "", 0⟩)

/-- **The handler** ends as `finishUpload` does with the raw bytes of the frames it read in
the buffer, in the store it began in. -/
theorem upload_eq {payload : Bytes} {req : ZeroCopyUploadRequest} {frames : List WireFrame}
    (hreq : env.proto.zeroCopyUploadRequest.decode payload = some req)
    (hfits : (rawBytes (consumed req.metadata.fileSize.toNat frames)).length < 2 ^ 64) :
    ∃ r, Server.upload env srv payload frames = r.after [uploadAck env] ∧
      FinishesWith env req.upload srv (rawBytes (consumed req.metadata.fileSize.toNat frames))
        (frames.drop (consumed req.metadata.fileSize.toNat frames).length) r := by
  have hloop := @finishesWith_uploadLoop env req.upload frames
    { srv with session := { srv.session with uploadState := req.upload, state := .transferring } }
    [] req.metadata.fileSize.toNat rfl rfl hfits
  refine ⟨_, ?_, hloop⟩
  rw [Server.upload, Server.handleZeroCopyUploadRequest, hreq, UploadRun.after_after]
  rfl

/-- Nothing is saved unless exactly as much has come as was announced. -/
theorem finishUpload_of_ne (hstate : srv.session.uploadState = u.holding bytes)
    (hfits : bytes.length < 2 ^ 64) (hne : bytes.length ≠ u.totalSize.toNat) :
    Server.finishUpload env srv = (Server.setState { srv with uploading := false } .ready, []) := by
  rw [Server.finishUpload, hstate]
  refine if_neg fun hc => hne ?_
  have htotal := congrArg UInt64.toNat hc
  rwa [show (u.holding bytes).received = UInt64.ofNat bytes.length from rfl,
    UInt64.toNat_ofNat', Nat.mod_eq_of_lt hfits] at htotal

end Ends

/-! ### What is saved -/

/-- Both file operations that save `data` at `p` succeed. -/
def Saves (fm : FileManager) (fs : FileSystem) (p : String) (data : Bytes) : Prop :=
  ∃ fs₁ fs₂, fm.writeFileAtomic fs p data = .ok (true, fs₁) ∧
    fm.atomicRenameTmp fs₁ p = .ok (true, fs₂)

/-- The file at `p` is `data`, and there is no scratch file. -/
def Holds (fm : FileManager) (fs : FileSystem) (p : String) (data : Bytes) : Prop :=
  ∃ t, fm.resolvePath p = .ok t ∧ fs.fileAt (fs.locate (cStr t)) = some data ∧
    fs.node (fs.locate (cTmp t)) = none

/-- The file at `p` is `data`, and there is no scratch file beside it. -/
def Has (fm : FileManager) (fs : FileSystem) (p : String) (data : Bytes) : Prop :=
  ∃ t, fm.resolvePath p = .ok t ∧ fs.fileAt (fs.locate (cStr t)) = some data ∧
    (nul ∉ t → fs.node (fs.locate (cTmp t)) = none)

section Saves

variable {env : Env} {srv : Server} {u : UploadState} {bytes data : Bytes} {fm : FileManager}
  {fs fs₁ fs₂ : FileSystem} {p : String}

theorem FileManager.Writable.saves {t : LexPath.Text} (h : fm.Writable fs p t)
    (hlen : data.length < maxOffset) : Saves fm fs p data := by
  have hmade : fm.Ready (fs.mkdirs (fs.cParent t)).1 p t := h
  exact ⟨_, _, (h.writeFileAtomic_eq data).trans (hmade.writeFileAtomic hlen),
    (hmade.set (.inr rfl)).atomicRenameTmp (FileSystem.node_set_self hmade.tmp_not_dir)⟩

/-- With the scratch file gone, the file is not its own scratch file. -/
theorem holds_iff : Holds fm fs p data ↔
    Has fm fs p data ∧ ∀ t, fm.resolvePath p = .ok t → nul ∉ t := by
  constructor
  · rintro ⟨t, ht, hfile, hgone⟩
    refine ⟨⟨t, ht, hfile, fun _ => hgone⟩, fun t' ht' hnul => ?_⟩
    obtain rfl := Except.ok.inj (ht.symm.trans ht')
    rw [(locate_cTmp_eq_iff fs t).mpr hnul, FileSystem.fileAt_eq_some_iff.mp hfile] at hgone
    exact absurd hgone (by simp)
  · rintro ⟨⟨t, ht, hfile, hgone⟩, hplain⟩
    exact ⟨t, ht, hfile, hgone (hplain t ht)⟩

/-- What was written to the scratch file is what the rename leaves. -/
theorem has_of_saves (hwrite : fm.writeFileAtomic fs p data = .ok (true, fs₁))
    (hrename : fm.atomicRenameTmp fs₁ p = .ok (true, fs₂)) : Has fm fs₂ p data := by
  obtain ⟨hfalse, -⟩ | ⟨-, t, b, ht, hstat, hfree, rfl⟩ := FileManager.atomicRenameTmp_cases hrename
  · exact absurd hfalse (by simp)
  obtain ⟨hdata, hos⟩ := FileManager.node_of_writeFileAtomic ht hwrite
  have hnode := FileSystem.node_of_stat hstat
  rw [FileSystem.locate_congr hos] at hnode
  obtain rfl : data = b := Node.file.inj (Option.some.inj (hdata.symm.trans hnode))
  have htmp : fs₁.node (fs₁.locate (cTmp t)) ≠ some .dir := by
    rw [FileSystem.node_of_stat hstat]
    simp
  refine ⟨t, ht, FileSystem.fileAt_eq_some_iff.mpr (FileSystem.node_set_self ?_), fun hnul => ?_⟩
  · -- the file may be the scratch file that was taken away
    by_cases heq : fs₁.locate (cStr t) = fs₁.locate (cTmp t)
    · rw [heq, FileSystem.node_remove_self htmp]
      simp
    · rw [FileSystem.node_remove_of_ne heq]
      exact hfree
  · rw [FileSystem.set_locate, FileSystem.remove_locate,
      FileSystem.node_set_of_ne (locate_cTmp_ne hnul fs₁)]
    exact FileSystem.node_remove_self htmp

/-- With exactly as much as was announced, the bytes are written and renamed. -/
theorem finishUpload_of_eq (hstate : srv.session.uploadState = u.holding bytes)
    (hlen : bytes.length = u.totalSize.toNat) :
    Server.finishUpload env srv =
      match env.fm.writeFileAtomic srv.fs u.relativePath bytes with
      | .error e => (Server.throw { srv with uploading := false } e, [])
      | .ok (false, fs) => (Server.setState { srv with uploading := false, fs := fs } .ready,
          [Server.sendError env .error "Failed to save uploaded file"])
      | .ok (true, fs) =>
        match env.fm.atomicRenameTmp fs u.relativePath with
        | .error e => (Server.throw { srv with uploading := false, fs := fs } e, [])
        | .ok (_, fs) =>
          (Server.setState { srv with uploading := false, fs := fs } .ready, []) := by
  have htotal : (u.holding bytes).received = (u.holding bytes).totalSize := by
    show UInt64.ofNat bytes.length = u.totalSize
    rw [hlen, UInt64.ofNat_toNat]
  rw [Server.finishUpload, hstate]
  simp only [htotal, if_true]
  rfl

end Saves

/-- **What an upload saves** of the frames that the session gets. When the raw bytes reach the
announced size exactly, the file becomes these bytes, and the frames up to there have been read;
when they overshoot it, or the stream ends first, the store is left as it was. -/
theorem upload_saves_exactly {env : Env} {srv : Server} {payload : Bytes}
    {req : ZeroCopyUploadRequest} {frames : List WireFrame}
    (hreq : env.proto.zeroCopyUploadRequest.decode payload = some req)
    (hfits : (rawBytes (consumed req.metadata.fileSize.toNat frames)).length < 2 ^ 64) :
    (∀ taken rest, FirstReach req.metadata.fileSize.toNat frames taken rest →
      (rawBytes taken).length = req.metadata.fileSize.toNat →
      Saves env.fm srv.fs req.metadata.relativePath (rawBytes taken) →
      Has env.fm (Server.upload env srv payload frames).server.fs req.metadata.relativePath
          (rawBytes taken) ∧
        (Server.upload env srv payload frames).unread = rest) ∧
    ((¬ ∃ taken rest, FirstReach req.metadata.fileSize.toNat frames taken rest ∧
        (rawBytes taken).length = req.metadata.fileSize.toNat) →
      (Server.upload env srv payload frames).server.fs = srv.fs) := by
  obtain ⟨r, hrun, srv', progress, -, hfs, -, hstate, rfl⟩ :=
    @upload_eq env srv payload req frames hreq hfits
  rw [hrun]
  constructor
  · rintro taken rest hreach hlen ⟨fs₁, fs₂, hwrite, hrename⟩
    have htaken := hreach.consumed_eq
    rw [htaken] at hstate ⊢
    rw [← hfs] at hwrite
    have hrest : frames.drop taken.length = rest := by rw [hreach.split, List.drop_left]
    -- the announced size is reached, so the stream was not read to its end
    have hmissing : ¬ (rawBytes taken).length < req.upload.totalSize.toNat := hlen.not_lt
    rw [decide_eq_false hmissing, hrest]
    constructor
    · show Has env.fm (Server.finishUpload env srv').1.fs _ _
      rw [finishUpload_of_eq hstate hlen]
      simp only [show req.upload.relativePath = req.metadata.relativePath from rfl, hwrite, hrename]
      exact has_of_saves hwrite hrename
    · rfl
  · intro hnone
    have hne : (rawBytes (consumed req.metadata.fileSize.toNat frames)).length ≠
        req.upload.totalSize.toNat := by
      intro heq
      -- exactly as many bytes were read as announced, so there is such a point
      exact hnone ⟨_, _, firstReach_consumed heq.ge, heq⟩
    show (Server.ended env srv' _ _).server.fs = srv.fs
    rw [Server.ended_server, finishUpload_of_ne hstate hfits hne]
    exact hfs

/-- **The contract of an upload** with these frames behind its request. At the first point at
which the raw bytes reach the announced size, if they are exactly as many and can be saved, the
file becomes these bytes, the scratch file is gone and the frames up to there have been read;
otherwise the store is left as it was. -/
structure UploadCommits (env : Env) (srv : Server) (m : FileMetadata) (frames : List WireFrame)
    (r : UploadRun) : Prop where
  commits : ∀ taken rest, FirstReach m.fileSize.toNat frames taken rest →
    (rawBytes taken).length = m.fileSize.toNat →
    Saves env.fm srv.fs m.relativePath (rawBytes taken) →
    Holds env.fm r.server.fs m.relativePath (rawBytes taken) ∧
      delivered frames = taken ++ r.unread
  keeps : (¬ ∃ taken rest, FirstReach m.fileSize.toNat frames taken rest ∧
      (rawBytes taken).length = m.fileSize.toNat) → r.server.fs = srv.fs

section Commits

variable {env : Env} {srv : Server} {n : ℕ} {frames taken rest : List WireFrame}

theorem delivered_isPrefix (frames : List WireFrame) : delivered frames <+: frames :=
  List.takeWhile_prefix _

/-- The raw bytes reach the size among the frames that come, if these are delivered so far. -/
theorem FirstReach.of_delivered (h : FirstReach n frames taken rest)
    (hall : ∀ f ∈ taken, f.Delivered) :
    FirstReach n (delivered frames) taken (delivered rest) where
  split := by
    rw [delivered, h.split, List.takeWhile_append_of_pos (by simpa using hall)]
    rfl
  reached := h.reached
  first := h.first

/-- And where they are reached among these, they are reached in the stream. -/
theorem FirstReach.of_prefix {frames' : List WireFrame} (h : FirstReach n frames taken rest)
    (hle : frames <+: frames') : ∃ rest', FirstReach n frames' taken rest' := by
  obtain ⟨more, rfl⟩ := hle
  exact ⟨rest ++ more, by rw [h.split, List.append_assoc], h.reached, h.first⟩

theorem FirstReach.unique {taken' rest' : List WireFrame} (h : FirstReach n frames taken rest)
    (h' : FirstReach n frames taken' rest') : taken = taken' :=
  h.consumed_eq.symm.trans h'.consumed_eq

/-- What was read and left are the frames that are delivered. -/
theorem delivered_of_mem_delivered {f : WireFrame} (h : f ∈ delivered frames) : f.Delivered := by
  simpa using List.mem_takeWhile_imp h

end Commits

/-- The bytes are those that were announced. -/
def Genuine (env : Env) (m : FileMetadata) (bytes : Bytes) : Prop :=
  bytes.length = m.fileSize.toNat ∧ m.sha256Hash ≠ "" ∧ env.sha256 bytes = m.sha256Hash

/-- What goes out is an error. -/
def IsError (env : Env) (s : Sent) : Prop :=
  ∃ m, s = .frame (message env.proto.errorPayload .error m)

/-- **Upload integrity.** The file is replaced only by the bytes that were announced; when it
is not, and the connection and the process are up, it is as before and an error has been
sent. -/
structure UploadIntegrity (env : Env) (srv : Server) (m : FileMetadata) (bytes : Bytes)
    (r : UploadRun) : Prop where
  replaced : storedAt env.fm r.server.fs m.relativePath ≠ storedAt env.fm srv.fs m.relativePath →
    Genuine env m bytes
  refused : m.fileSize.toNat ≤ bytes.length → r.server.crash = none →
    ¬ (Genuine env m bytes ∧ Saves env.fm srv.fs m.relativePath bytes) →
      storedAt env.fm r.server.fs m.relativePath = storedAt env.fm srv.fs m.relativePath ∧
        ∃ s ∈ r.sent, IsError env s

/-- If the scratch file is written and the rename returns, then the rename has succeeded and the
hash is the one announced. -/
def RenameSound (env : Env) (srv : Server) (m : FileMetadata) (bytes : Bytes) : Prop :=
  ∀ fs₁ fs₂ renamed, env.fm.writeFileAtomic srv.fs m.relativePath bytes = .ok (true, fs₁) →
    env.fm.atomicRenameTmp fs₁ m.relativePath = .ok (renamed, fs₂) →
      renamed = true ∧ Genuine env m bytes

/-- Where U+0000 makes the file its own scratch file: a write that fails has left it as it was,
and one that an exception follows has, too, or has written what was announced. -/
structure InPlaceSound (env : Env) (srv : Server) (m : FileMetadata) (bytes : Bytes) : Prop where
  failed : ∀ fs₁, env.fm.writeFileAtomic srv.fs m.relativePath bytes = .ok (false, fs₁) →
    storedAt env.fm fs₁ m.relativePath = storedAt env.fm srv.fs m.relativePath
  thrown : ∀ fs₁ e, env.fm.writeFileAtomic srv.fs m.relativePath bytes = .ok (true, fs₁) →
    env.fm.atomicRenameTmp fs₁ m.relativePath = .error e →
      storedAt env.fm fs₁ m.relativePath ≠ storedAt env.fm srv.fs m.relativePath →
        Genuine env m bytes

/-- Too few bytes came; or exactly enough, and what comes of the file operations is sound. -/
def UploadSound (env : Env) (srv : Server) (m : FileMetadata) (bytes : Bytes) : Prop :=
  bytes.length < m.fileSize.toNat ∨
    bytes.length = m.fileSize.toNat ∧ RenameSound env srv m bytes ∧
      ∀ t, env.fm.resolvePath m.relativePath = .ok t → nul ∈ t → InPlaceSound env srv m bytes

section Integrity

variable {env : Env} {srv : Server} {u : UploadState} {bytes : Bytes} {fm : FileManager}
  {fs fs' : FileSystem} {p : String}

/-- Writing the scratch file leaves the file alone, when it is another one. -/
theorem storedAt_of_scratch (h : fs.FilesAgree (scratchOf fm fs p) fs')
    (hplain : ∀ t, fm.resolvePath p = .ok t → nul ∉ t) : storedAt fm fs' p = storedAt fm fs p := by
  unfold storedAt
  split
  · rfl
  · next t ht =>
    rw [FileSystem.locate_congr h.os]
    apply h.fileAt
    rintro ⟨t', ht', -, hloc⟩
    obtain rfl := Except.ok.inj (ht.symm.trans ht')
    exact locate_cTmp_ne (hplain t ht) fs hloc.symm

theorem not_isError_of_type {type : MessageType} {α : Type} {c : Codec α} {m : α}
    (h : type.code ≠ MessageType.error.code) : ¬ IsError env (.frame (message c type m)) := by
  rintro ⟨e, he⟩
  exact h (WireFrame.mk.inj (Sent.frame.inj he)).1

theorem not_isError_of_progress {sent : List Sent} (h : ∀ s ∈ sent, IsProgress env s) :
    ¬ ∃ s ∈ uploadAck env :: sent, IsError env s := by
  rintro ⟨s, hs, herr⟩
  obtain rfl | hs := List.mem_cons.mp hs
  · exact not_isError_of_type (by decide) herr
  · obtain ⟨m, rfl⟩ := h s hs
    exact not_isError_of_type (by decide) herr

/-- An upload that leaves the file as it was promises nothing more while it is not over. -/
theorem UploadIntegrity.of_kept {m : FileMetadata} {r : UploadRun}
    (hkept : storedAt env.fm r.server.fs m.relativePath = storedAt env.fm srv.fs m.relativePath)
    (h : m.fileSize.toNat ≤ bytes.length → r.server.crash = none → ∃ s ∈ r.sent, IsError env s) :
    UploadIntegrity env srv m bytes r where
  replaced := fun hne => absurd hkept hne
  refused := fun hle hup _ => ⟨hkept, h hle hup⟩

/-- An upload that is over without a word and without success breaks the promise. -/
theorem not_uploadIntegrity_of_silent {m : FileMetadata} {r : UploadRun} {progress : List Sent}
    (hprogress : ∀ s ∈ progress, IsProgress env s) (hsent : r.sent = uploadAck env :: progress)
    (hup : r.server.crash = none) (hle : m.fileSize.toNat ≤ bytes.length)
    (hnot : ¬ (Genuine env m bytes ∧ Saves env.fm srv.fs m.relativePath bytes)) :
    ¬ UploadIntegrity env srv m bytes r := by
  intro h
  have herr := (h.refused hle hup hnot).2
  rw [hsent] at herr
  exact not_isError_of_progress hprogress herr

/-- An upload whose file operations have both returned, and that says nothing more, keeps the
promise exactly when the rename has succeeded on what was announced. -/
theorem uploadIntegrity_iff_of_renamed {m : FileMetadata} {r : UploadRun} {progress : List Sent}
    {fs₁ fs₂ : FileSystem} {renamed : Bool} (hprogress : ∀ s ∈ progress, IsProgress env s)
    (hsent : r.sent = uploadAck env :: progress) (hup : r.server.crash = none)
    (hle : m.fileSize.toNat ≤ bytes.length)
    (hwrite : env.fm.writeFileAtomic srv.fs m.relativePath bytes = .ok (true, fs₁))
    (hrename : env.fm.atomicRenameTmp fs₁ m.relativePath = .ok (renamed, fs₂)) :
    UploadIntegrity env srv m bytes r ↔ renamed = true ∧ Genuine env m bytes := by
  constructor
  · -- no error has gone out, so the upload must have succeeded
    intro h
    by_contra hnot
    refine not_uploadIntegrity_of_silent hprogress hsent hup hle ?_ h
    rintro ⟨hgenuine, fs₁', fs₂', hwrite', hrename'⟩
    obtain ⟨-, rfl⟩ := Prod.mk.inj (Except.ok.inj (hwrite.symm.trans hwrite'))
    obtain ⟨rfl, -⟩ := Prod.mk.inj (Except.ok.inj (hrename.symm.trans hrename'))
    exact hnot ⟨rfl, hgenuine⟩
  · rintro ⟨rfl, hgenuine⟩
    have hsaves : Saves env.fm srv.fs m.relativePath bytes := ⟨fs₁, fs₂, hwrite, hrename⟩
    exact ⟨fun _ => hgenuine, fun _ _ hnot => absurd ⟨hgenuine, hsaves⟩ hnot⟩

/-- The handler at its end, with the progress it has reported. -/
def Server.closed (env : Env) (srv : Server) (progress : List Sent) (unread : List WireFrame) :
    UploadRun :=
  ⟨(Server.finishUpload env srv).1,
    uploadAck env :: (progress ++ (Server.finishUpload env srv).2), unread⟩

/-- With exactly as much as was announced it depends on the two file operations. -/
theorem uploadIntegrity_closed_iff {srv' : Server} {m : FileMetadata} {progress : List Sent}
    (hprogress : ∀ s ∈ progress, IsProgress env s)
    (hfs : srv'.fs = srv.fs) (hup : srv'.crash = none)
    (hstate : srv'.session.uploadState = (⟨m⟩ : ZeroCopyUploadRequest).upload.holding bytes)
    (hlen : bytes.length = m.fileSize.toNat) (unread : List WireFrame) :
    UploadIntegrity env srv m bytes (Server.closed env srv' progress unread) ↔
      RenameSound env srv m bytes ∧ ∀ t, env.fm.resolvePath m.relativePath = .ok t → nul ∈ t →
        InPlaceSound env srv m bytes := by
  have hend := @finishUpload_of_eq env srv' _ bytes hstate hlen
  rw [hfs, show (⟨m⟩ : ZeroCopyUploadRequest).upload.relativePath = m.relativePath from rfl] at hend
  cases hwrite : env.fm.writeFileAtomic srv.fs m.relativePath bytes with
  | error e =>
    -- the exception ends the process
    simp only [hwrite] at hend
    refine iff_of_true (.of_kept ?_ ?_) ⟨fun _ _ _ h => ?_, fun _ _ _ => ⟨fun _ h => ?_,
      fun _ _ h => ?_⟩⟩
    · rw [Server.closed, hend]
      rfl
    · rw [Server.closed, hend]
      exact fun _ hc => absurd hc (by simp [Server.throw])
    all_goals exact absurd (hwrite.symm.trans h) (by simp)
  | ok w =>
    obtain ⟨written, fs₁⟩ := w
    -- a scratch file beside the file leaves it alone
    have hkept : ¬ (∃ t, env.fm.resolvePath m.relativePath = .ok t ∧ nul ∈ t) →
        storedAt env.fm fs₁ m.relativePath = storedAt env.fm srv.fs m.relativePath := fun hno =>
      storedAt_of_scratch (edits_writeFileAtomic hwrite).filesAgree fun t ht hnul =>
        hno ⟨t, ht, hnul⟩
    cases written with
    | false =>
      -- the one failure that is reported
      simp only [hwrite] at hend
      have hfs₁ : (Server.closed env srv' progress unread).server.fs = fs₁ := by
        rw [Server.closed, hend]
        rfl
      constructor
      · refine fun h => ⟨fun _ _ _ h' => ?_, fun _ _ _ => ⟨fun fs₁' h' => ?_, fun _ _ h' => ?_⟩⟩
        · exact absurd (hwrite.symm.trans h') (by simp)
        · obtain ⟨-, rfl⟩ := Prod.mk.inj (Except.ok.inj (hwrite.symm.trans h'))
          have hcrash : (Server.closed env srv' progress unread).server.crash = none := by
            rw [Server.closed, hend]
            exact hup
          have hnot : ¬ (Genuine env m bytes ∧ Saves env.fm srv.fs m.relativePath bytes) := by
            rintro ⟨-, _, _, hwrite', -⟩
            exact absurd (hwrite.symm.trans hwrite') (by simp)
          rw [← hfs₁]
          exact (h.refused hlen.ge hcrash hnot).1
        · exact absurd (hwrite.symm.trans h') (by simp)
      · rintro ⟨-, hplace⟩
        refine .of_kept ?_ fun _ _ => ?_
        · rw [hfs₁]
          by_cases hnul : ∃ t, env.fm.resolvePath m.relativePath = .ok t ∧ nul ∈ t
          · obtain ⟨t, ht, hnul⟩ := hnul
            exact (hplace t ht hnul).failed fs₁ hwrite
          · exact hkept hnul
        · rw [Server.closed, hend]
          exact ⟨Server.sendError env .error "Failed to save uploaded file", by simp, _, rfl⟩
    | true =>
      cases hrename : env.fm.atomicRenameTmp fs₁ m.relativePath with
      | error e =>
        simp only [hwrite, hrename] at hend
        have hfs₁ : (Server.closed env srv' progress unread).server.fs = fs₁ := by
          rw [Server.closed, hend]
          rfl
        constructor
        · refine fun h => ⟨fun _ _ _ h' hr => ?_, fun _ _ _ => ⟨fun _ h' => ?_, ?_⟩⟩
          · obtain ⟨-, rfl⟩ := Prod.mk.inj (Except.ok.inj (hwrite.symm.trans h'))
            exact absurd (hrename.symm.trans hr) (by simp)
          · exact absurd (hwrite.symm.trans h') (by simp)
          · intro fs₁' e' h' _ hne
            obtain ⟨-, rfl⟩ := Prod.mk.inj (Except.ok.inj (hwrite.symm.trans h'))
            exact h.replaced (hfs₁ ▸ hne)
        · rintro ⟨-, hplace⟩
          refine ⟨fun hne => ?_, fun _ hc => ?_⟩
          · rw [hfs₁] at hne
            obtain ⟨t, ht, hnul⟩ : ∃ t, env.fm.resolvePath m.relativePath = .ok t ∧ nul ∈ t := by
              by_contra hno
              exact hne (hkept hno)
            exact (hplace t ht hnul).thrown fs₁ e hwrite hrename hne
          · rw [Server.closed, hend] at hc
            exact absurd hc (by simp [Server.throw])
      | ok w =>
        -- `renamed` goes nowhere: the end is the same for both of its values
        obtain ⟨renamed, fs₂⟩ := w
        simp only [hwrite, hrename] at hend
        have hsent : (Server.closed env srv' progress unread).sent = uploadAck env :: progress := by
          rw [Server.closed, hend, List.append_nil]
        have hcrash : (Server.closed env srv' progress unread).server.crash = none := by
          rw [Server.closed, hend]
          exact hup
        rw [uploadIntegrity_iff_of_renamed hprogress hsent hcrash hlen.ge hwrite hrename]
        constructor
        · refine fun h => ⟨fun _ _ _ h' hr => ?_, fun _ _ _ => ⟨fun _ h' => ?_, ?_⟩⟩
          · obtain ⟨-, rfl⟩ := Prod.mk.inj (Except.ok.inj (hwrite.symm.trans h'))
            obtain ⟨rfl, rfl⟩ := Prod.mk.inj (Except.ok.inj (hrename.symm.trans hr))
            exact h
          · exact absurd (hwrite.symm.trans h') (by simp)
          · intro fs₁' e' h' hr _
            obtain ⟨-, rfl⟩ := Prod.mk.inj (Except.ok.inj (hwrite.symm.trans h'))
            exact absurd (hrename.symm.trans hr) (by simp)
        · intro h
          exact h.1 fs₁ fs₂ renamed hwrite hrename

/-- With enough bytes the handler ends on its own. -/
theorem upload_eq_closed {payload : Bytes} {req : ZeroCopyUploadRequest}
    {frames : List WireFrame} (hreq : env.proto.zeroCopyUploadRequest.decode payload = some req)
    (hfits : (rawBytes (consumed req.metadata.fileSize.toNat frames)).length < 2 ^ 64)
    (hle : req.metadata.fileSize.toNat ≤
      (rawBytes (consumed req.metadata.fileSize.toNat frames)).length) :
    ∃ srv' progress, (∀ s ∈ progress, IsProgress env s) ∧ srv'.fs = srv.fs ∧
      srv'.crash = srv.crash ∧ srv'.session.uploadState =
        req.upload.holding (rawBytes (consumed req.metadata.fileSize.toNat frames)) ∧
      Server.upload env srv payload frames = Server.closed env srv' progress
        (frames.drop (consumed req.metadata.fileSize.toNat frames).length) := by
  obtain ⟨r, hrun, srv', progress, hprogress, hfs, hcrash, hstate, rfl⟩ :=
    @upload_eq env srv payload req frames hreq hfits
  refine ⟨srv', progress, hprogress, hfs, hcrash, hstate, ?_⟩
  have henough : ¬ (rawBytes (consumed req.metadata.fileSize.toNat frames)).length <
      req.upload.totalSize.toNat := hle.not_gt
  rw [hrun, decide_eq_false henough]
  rfl

/-- **Upload integrity holds if and only if** the stream ends too early, or exactly the
announced bytes come, and a scratch file that is written and renamed without an exception is
renamed with success and has the announced hash. -/
theorem upload_integrity_iff {payload : Bytes} {req : ZeroCopyUploadRequest}
    {frames : List WireFrame} (hup : srv.crash = none)
    (hreq : env.proto.zeroCopyUploadRequest.decode payload = some req)
    (hfits : (rawBytes (consumed req.metadata.fileSize.toNat frames)).length < 2 ^ 64) :
    UploadIntegrity env srv req.metadata (rawBytes (consumed req.metadata.fileSize.toNat frames))
        (Server.upload env srv payload frames) ↔
      UploadSound env srv req.metadata
        (rawBytes (consumed req.metadata.fileSize.toNat frames)) := by
  by_cases hlt : (rawBytes (consumed req.metadata.fileSize.toNat frames)).length <
      req.metadata.fileSize.toNat
  · -- the stream ends first, and nothing is saved
    obtain ⟨r, hrun, srv', progress, -, hfs, -, hstate, rfl⟩ :=
      @upload_eq env srv payload req frames hreq hfits
    refine iff_of_true (.of_kept ?_ fun hle => absurd hle (by omega)) (.inl hlt)
    rw [hrun]
    show storedAt env.fm (Server.ended env srv' _ _).server.fs _ = _
    rw [Server.ended_server, finishUpload_of_ne hstate hfits hlt.ne]
    exact congrArg (storedAt env.fm · req.metadata.relativePath) hfs
  · obtain ⟨srv', progress, hprogress, hfs, hcrash, hstate, hrun⟩ :=
      @upload_eq_closed env srv payload req frames hreq hfits (by omega)
    rw [hup] at hcrash
    rw [hrun]
    by_cases heq : (rawBytes (consumed req.metadata.fileSize.toNat frames)).length =
        req.metadata.fileSize.toNat
    · rw [uploadIntegrity_closed_iff hprogress hfs hcrash hstate heq, UploadSound]
      simp [heq]
    · -- bytes in excess are not reported
      have hend := @finishUpload_of_ne env srv' _ _ hstate hfits heq
      refine iff_of_false (not_uploadIntegrity_of_silent hprogress ?_ ?_ (by omega) ?_) ?_
      · rw [Server.closed, hend, List.append_nil]
      · rw [Server.closed, hend]
        exact hcrash
      · exact fun h => heq h.1.1
      · rintro (h | ⟨h, -⟩)
        · exact hlt h
        · exact heq h

end Integrity

/-- The file `f` is replaced by two bytes that were announced with their hash. -/
theorem upload_integrity_two_bytes :
    let srv := Server.new 4096 (FileSystem.single ['s'] ['f'] (some [7]))
    let req : ZeroCopyUploadRequest := ⟨⟨"f", 2, 0, sha256Hex [1, 2], .fresh⟩⟩
    UploadIntegrity storageEnv srv req.metadata [1, 2] (Server.upload storageEnv srv
      (protobuf.zeroCopyUploadRequest.encode req) [⟨MSG_RAW_DATA, [1, 2]⟩]) := by
  intro srv req
  have hready : storageEnv.fm.Ready (FileSystem.single ['s'] ['f'] (some [7])) "f" "s/f".toList :=
    .of_single (by decide) (by decide) (by decide) rfl rfl rfl
  refine (@upload_integrity_iff storageEnv srv _ req [⟨MSG_RAW_DATA, [1, 2]⟩] rfl
    (storageEnv.proto.zeroCopyUploadRequest.decode_encode req) (by decide)).mpr
      (.inr ⟨by decide, ?_, fun t ht hnul => ?_⟩)
  · -- both file operations succeed
    intro fs₁ fs₂ renamed hwrite hrename
    obtain ⟨fs₁', fs₂', hwrite', hrename'⟩ : Saves storageEnv.fm srv.fs "f" [1, 2] :=
      hready.writable.saves (by decide)
    obtain ⟨-, rfl⟩ := Prod.mk.inj (Except.ok.inj (hwrite'.symm.trans hwrite))
    obtain ⟨rfl, -⟩ := Prod.mk.inj (Except.ok.inj (hrename'.symm.trans hrename))
    exact ⟨rfl, rfl, sha256Hex_ne [1, 2], rfl⟩
  · obtain rfl := Except.ok.inj (hready.resolves.symm.trans ht)
    exact absurd hnul (by decide)

/-- The file `f` is replaced by two bytes whose hash is not the announced one. -/
theorem upload_keeps_wrong_hash :
    let srv := Server.new 4096 (FileSystem.single ['s'] ['f'] (some [7]))
    let req : ZeroCopyUploadRequest := ⟨⟨"f", 2, 0, "x", .fresh⟩⟩
    ¬ UploadIntegrity storageEnv srv req.metadata [1, 2] (Server.upload storageEnv srv
      (protobuf.zeroCopyUploadRequest.encode req) [⟨MSG_RAW_DATA, [1, 2]⟩]) := by
  intro srv req h
  have hready : storageEnv.fm.Ready (FileSystem.single ['s'] ['f'] (some [7])) "f" "s/f".toList :=
    .of_single (by decide) (by decide) (by decide) rfl rfl rfl
  obtain ⟨fs₁, fs₂, hwrite, hrename⟩ : Saves storageEnv.fm srv.fs "f" [1, 2] :=
    hready.writable.saves (by decide)
  obtain ⟨srv', progress, hprogress, hfs, hcrash, hstate, hrun⟩ :=
    @upload_eq_closed storageEnv srv _ req [⟨MSG_RAW_DATA, [1, 2]⟩]
      (protobuf.zeroCopyUploadRequest.decode_encode req) (by decide) (by decide)
  rw [hrun] at h
  obtain ⟨hsound, -⟩ := (uploadIntegrity_closed_iff hprogress hfs hcrash hstate rfl _).mp h
  obtain ⟨-, -, -, hhash⟩ := hsound fs₁ fs₂ true hwrite hrename
  -- a hash has 64 characters
  have hlen := length_sha256Hex [1, 2]
  rw [show sha256Hex [1, 2] = "x" from hhash] at hlen
  exact absurd hlen (by decide)

end AdaptiveSync
