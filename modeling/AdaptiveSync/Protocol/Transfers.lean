import AdaptiveSync.Protocol.Download
import AdaptiveSync.Protocol.Separated
import AdaptiveSync.Server.Negotiation

/-!
# One operation after another

What an operation finds on a connection is what earlier ones have left there: frames that it
can skip, a session that waits for a request, and the store (`Resting`). Here each of the
operations that a synchronisation consists of is run from such a state, and leads to one.

A negotiation skips what is left (`Resting.exec_negotiate`). An upload of a file whose
directories can be made, and a delta sync with a short block, put their file in its place and
leave all else alone (`Resting.exec_uploadFile`, `Resting.exec_deltaSyncUpload`). So does a
listing, which changes nothing (`Resting.exec_listServerFiles`).
-/

namespace AdaptiveSync

open Fs Duplex
open LexPath (cStr nul)

/-! ### A path on the server -/

/-- The path resolves to the text `t` of a possible file. Above it there are directories or
nothing, and neither it nor its scratch file is a directory. There is no U+0000 in it, as there
is in no path that `std::fs` can read a file at. -/
structure FileManager.Placed (fm : FileManager) (fs : FileSystem) (relativePath : String)
    (t : LexPath.Text) : Prop where
  resolves : fm.resolvePath relativePath = .ok t
  plain : nul ∉ t
  quiet : fs.Quiet
  nonempty : t ≠ []
  leaf : LexPath.endsInDirectory t = false
  above : ∀ d, d <+: fs.cParent t → fs.node d = some .dir ∨ fs.node d = none
  not_dir : fs.node (fs.locate (cStr t)) ≠ some .dir
  tmp_not_dir : fs.node (fs.locate (cTmp t)) ≠ some .dir

/-- No file of `t` is a file of `t'` or stands above one. -/
def Clear (fs : FileSystem) (t t' : LexPath.Text) : Prop :=
  ∀ l, l = fs.locate (cStr t) ∨ l = fs.locate (cTmp t) →
    ¬ l <+: fs.locate (cStr t') ∧ ¬ l <+: fs.locate (cTmp t')

section Placed

variable {fm : FileManager} {fs fs' : FileSystem} {p : String} {t t' : LexPath.Text}

theorem endsInDirectory_tmp (t : LexPath.Text) :
    LexPath.endsInDirectory (t ++ tmpSuffix) = false :=
  FileSystem.endsInDirectory_append t (by decide) (by decide)

/-- The directory of a text without U+0000. -/
theorem cParent_of_plain (hplain : nul ∉ t) : fs.cParent t = fs.parent t := by
  rw [FileSystem.cParent_of_not_mem fun hc => hplain ((LexPath.parentPath_prefix t).subset hc),
    LexPath.cStr_of_not_mem hplain]

/-- A file and its scratch file stand in the same directory. -/
theorem locate_not_above (hplain : nul ∉ t) (hleaf : LexPath.endsInDirectory t = false) {l : Loc}
    (hl : l = fs.locate (cStr t) ∨ l = fs.locate (cTmp t)) : ¬ l <+: fs.cParent t := by
  rw [cParent_of_plain hplain]
  rw [LexPath.cStr_of_not_mem hplain, cTmp_of_not_mem hplain] at hl
  have hlong : l.length = (fs.parent t).length + 1 := by
    rcases hl with rfl | rfl
    · obtain ⟨n, hn, -⟩ := @FileSystem.locate_eq_parent_append fs t hleaf
      simp [hn]
    · obtain ⟨n, hn, -⟩ :=
        @FileSystem.locate_eq_parent_append fs (t ++ tmpSuffix) (endsInDirectory_tmp t)
      rw [FileSystem.parent_append (by decide)] at hn
      simp [hn]
  intro hprefix
  have hle := hprefix.length_le
  omega

/-- Above a file is above its location. -/
theorem prefix_locate (hplain : nul ∉ t) (hleaf : LexPath.endsInDirectory t = false) {d : Loc}
    (hd : d <+: fs.cParent t) : d <+: fs.locate (cStr t) := by
  rw [cParent_of_plain hplain] at hd
  rw [LexPath.cStr_of_not_mem hplain]
  obtain ⟨n, hn, -⟩ := @FileSystem.locate_eq_parent_append fs t hleaf
  exact hn ▸ hd.trans (List.prefix_append _ _)

/-- And above its scratch file. -/
theorem prefix_locate_tmp (hplain : nul ∉ t) {d : Loc} (hd : d <+: fs.cParent t) :
    d <+: fs.locate (cTmp t) := by
  rw [cParent_of_plain hplain, ← FileSystem.parent_append (s := tmpSuffix) (by decide)] at hd
  obtain ⟨n, hn, -⟩ :=
    @FileSystem.locate_eq_parent_append fs (t ++ tmpSuffix) (endsInDirectory_tmp t)
  rw [cTmp_of_not_mem hplain]
  exact hn ▸ hd.trans (List.prefix_append _ _)

namespace FileManager.Placed

theorem cStr_eq (h : fm.Placed fs p t) : cStr t = t := LexPath.cStr_of_not_mem h.plain

/-- The two files are the footprint of the path. -/
theorem mem_footprint (h : fm.Placed fs p t) {l : Loc}
    (hl : l = fs.locate (cStr t) ∨ l = fs.locate (cTmp t)) : l ∈ footprint fm fs p := by
  rcases hl with rfl | rfl
  · refine ⟨t, h.resolves, .inl ⟨?_, rfl⟩⟩
    rw [h.cStr_eq]
    exact h.leaf
  · refine ⟨t, h.resolves, .inr ⟨?_, rfl⟩⟩
    rw [cTmp_of_not_mem h.plain]
    exact endsInDirectory_tmp t

/-- The directories can be made, and then everything succeeds. -/
theorem writable (h : fm.Placed fs p t) : fm.Writable fs p t := by
  have hmade : (fs.mkdirs (fs.cParent t)).2 = true := by
    refine FileSystem.mkdirs_succeeds fun d hd => ?_
    exact (h.above d hd).imp_right fun hnone => ⟨hnone, h.quiet .mkdir d⟩
  -- neither of the two files is on the way
  have hkeep : ∀ l, l = fs.locate (cStr t) ∨ l = fs.locate (cTmp t) →
      fs.node l ≠ some .dir → (fs.mkdirs (fs.cParent t)).1.node l ≠ some .dir := by
    intro l hl hdir
    obtain hsame | ⟨hway, -⟩ := fs.node_mkdirs_eq_or_made (fs.cParent t) l
    · rwa [hsame]
    · exact absurd hway (locate_not_above h.plain h.leaf hl)
  have hos := @FileSystem.mkdirs_os fs (fs.cParent t)
  exact {
    resolves := h.resolves
    quiet := by
      unfold FileSystem.Quiet
      rw [hos]
      exact h.quiet
    nonempty := by
      rw [h.cStr_eq]
      exact h.nonempty
    leaf := by
      rw [h.cStr_eq]
      exact h.leaf
    parent_dir := by
      rw [FileSystem.cParent_congr hos]
      exact FileSystem.node_of_mkdirs hmade
    not_dir := by
      rw [FileSystem.mkdirs_locate]
      exact hkeep _ (.inl rfl) h.not_dir
    tmp_not_dir := by
      rw [FileSystem.mkdirs_locate]
      exact hkeep _ (.inr rfl) h.tmp_not_dir }

/-- With its directory there the path is ready. -/
theorem ready (h : fm.Placed fs p t) (hparent : fs.node (fs.cParent t) = some .dir) :
    fm.Ready fs p t where
  resolves := h.resolves
  quiet := h.quiet
  nonempty := by
    rw [h.cStr_eq]
    exact h.nonempty
  leaf := by
    rw [h.cStr_eq]
    exact h.leaf
  parent_dir := hparent
  not_dir := h.not_dir
  tmp_not_dir := h.tmp_not_dir

/-- What is put beside it, and the directories made for it, leave the path as it is. -/
theorem grows {S D : Set Loc} (h : fm.Placed fs p t) (hgrows : fs.Grows S D fs')
    (hS : ∀ l ∈ S, ¬ l <+: fs.cParent t) (hfile : fs'.node (fs.locate (cStr t)) ≠ some .dir)
    (htmp : fs'.node (fs.locate (cTmp t)) ≠ some .dir) : fm.Placed fs' p t where
  resolves := h.resolves
  quiet := by
    unfold FileSystem.Quiet
    rw [hgrows.os]
    exact h.quiet
  plain := h.plain
  nonempty := h.nonempty
  leaf := h.leaf
  above d hd := by
    rw [FileSystem.cParent_congr hgrows.os] at hd
    obtain hsame | ⟨-, -, hmade⟩ := hgrows.node d fun hc => hS d hc hd
    · rw [hsame]
      exact h.above d hd
    · exact .inl hmade
  not_dir := by rwa [FileSystem.locate_congr hgrows.os]
  tmp_not_dir := by rwa [FileSystem.locate_congr hgrows.os]

end FileManager.Placed

/-- A path that is ready, below directories. -/
theorem FileManager.Ready.placed (h : fm.Ready fs p t) (hplain : nul ∉ t)
    (habove : ∀ d, d <+: fs.cParent t → fs.node d = some .dir ∨ fs.node d = none) :
    fm.Placed fs p t := by
  have hsame : cStr t = t := LexPath.cStr_of_not_mem hplain
  exact ⟨h.resolves, hplain, h.quiet, hsame ▸ h.nonempty, hsame ▸ h.leaf, habove, h.not_dir,
    h.tmp_not_dir⟩

/-- The server has `s` at the path. A file that is there stands in a directory, and has no
scratch file. -/
structure FileManager.Holds (fm : FileManager) (fs : FileSystem) (relativePath : String)
    (t : LexPath.Text) (s : Option Bytes) : Prop extends fm.Placed fs relativePath t where
  node : fs.node (fs.locate (cStr t)) = s.map .file
  parent_dir : s ≠ none → fs.node (fs.cParent t) = some .dir
  no_scratch : s ≠ none → fs.node (fs.locate (cTmp t)) = none

namespace FileManager.Holds

variable {s : Option Bytes} {x : Bytes}

theorem node_target (h : fm.Holds fs p t (some x)) : fs.node (fs.locate t) = some (.file x) := by
  have hnode := h.node
  rwa [h.cStr_eq] at hnode

theorem ready_of_file (h : fm.Holds fs p t (some x)) : fm.Ready fs p t :=
  h.toPlaced.ready (h.parent_dir (by simp))

/-- A commit for the path. -/
theorem of_commits (h : fm.Placed fs p t) (hcommits : Commits fs fs' t x)
    (hready : fm.Ready fs' p t) : fm.Holds fs' p t (some x) := by
  have hloc := FileSystem.locate_congr hcommits.grows.os
  have hnode := hready.not_dir
  have htmp := hready.tmp_not_dir
  rw [hloc] at hnode htmp
  have hplaced := h.grows hcommits.grows (fun l hl => locate_not_above h.plain h.leaf hl) hnode htmp
  refine ⟨hplaced, ?_, fun _ => hready.parent_dir, fun _ => ?_⟩
  · rw [hloc]
    exact hcommits.node
  · rw [hloc]
    exact hcommits.no_scratch h.plain

/-- A commit for another path. -/
theorem beside (h : fm.Holds fs p t s) (hcommits : Commits fs fs' t' x)
    (hplain : nul ∉ t') (hleaf : LexPath.endsInDirectory t' = false) (hclear : Clear fs t' t)
    (hclear' : Clear fs t t') : fm.Holds fs' p t s := by
  have hgrows := hcommits.grows
  -- the files of the one path are not above those of the other
  have habove : ∀ l, l = fs.locate (cStr t') ∨ l = fs.locate (cTmp t') → ¬ l <+: fs.cParent t :=
    fun l hl hway => (hclear l hl).1 (prefix_locate h.plain h.leaf hway)
  have hsame : ∀ l, l = fs.locate (cStr t) ∨ l = fs.locate (cTmp t) →
      fs'.node l = fs.node l := by
    intro l hl
    have hout : ¬ (l = fs.locate (cStr t') ∨ l = fs.locate (cTmp t')) := by
      intro hc
      rcases hl with rfl | rfl
      · exact (hclear _ hc).1 (List.prefix_refl _)
      · exact (hclear _ hc).2 (List.prefix_refl _)
    refine (hgrows.node l hout).resolve_right fun ⟨hway, _⟩ => ?_
    exact (hclear' l hl).1 (prefix_locate hplain hleaf hway)
  have hfile := hsame _ (.inl rfl)
  have htmp := hsame _ (.inr rfl)
  have hplaced : fm.Placed fs' p t :=
    h.toPlaced.grows hgrows habove (hfile ▸ h.not_dir) (htmp ▸ h.tmp_not_dir)
  have hloc := FileSystem.locate_congr hgrows.os
  refine ⟨hplaced, ?_, fun hs => ?_, fun hs => ?_⟩
  · rw [hloc, hfile]
    exact h.node
  · rw [FileSystem.cParent_congr hgrows.os]
    exact hgrows.dir (fun hc => habove _ hc (List.prefix_refl _)) (h.parent_dir hs)
  · rw [hloc, htmp]
    exact h.no_scratch hs

end FileManager.Holds

end Placed

/-! ### The steps of an upload -/

section Upload

variable {env : Env} {srv : Server} {p : String} {t : LexPath.Text} {c arrived : Bytes}

/-- The session waits for a request again, and the file `x` is in its place. -/
structure Stores (env : Env) (srv srv' : Server) (p : String) (t : LexPath.Text) (x : Bytes) :
    Prop where
  idle : Idle srv'
  negotiated : srv'.session.negotiatedBlockSize = srv.session.negotiatedBlockSize
  ready : env.fm.Ready srv'.fs p t
  commits : FileManager.Commits srv.fs srv'.fs t x

/-- The loop ends once all has arrived. -/
theorem Receiving.uploadLoop_all (h : Receiving env srv p t c c) (hlen : c.length < maxOffset) :
    ∃ srv', Server.uploadLoop env srv = (srv', []) ∧ Stores env srv srv' p t c := by
  have hmade : env.fm.Ready (srv.fs.mkdirs (srv.fs.cParent t)).1 p t := h.writable
  have hwrite := (h.writable.writeFileAtomic_eq c).trans (hmade.writeFileAtomic hlen)
  have hready := hmade.set (b := c) (.inr rfl)
  have hrename := hready.atomicRenameTmp (FileSystem.node_set_self hmade.tmp_not_dir)
  have hmoved := (FileManager.Commits.of_ready hready c).of_grows (.set _ rfl)
  have hcommits : FileManager.Commits srv.fs _ t c := hmoved.of_grows (FileSystem.grows_mkdirs _ _)
  have hloop : Server.uploadLoop env srv = Server.finishUpload env srv :=
    if_neg (by rw [h.received, h.total]; simp)
  rw [hloop, Server.finishUpload]
  simp only [h.path, h.total, h.received, h.buffer, if_true, hwrite, hrename]
  exact ⟨_, rfl, ⟨rfl, h.up⟩, rfl, hready.commit c, hcommits⟩

/-- The last of the data. -/
theorem Receiving.step_last (h : Receiving env srv p t c arrived) (hup : srv.uploading = true)
    {d : Bytes} (hc : arrived ++ d = c) (hlen : c.length < maxOffset) :
    Stores env srv (Server.step env srv ⟨MSG_RAW_DATA, d⟩).1 p t c := by
  obtain ⟨next, hnext, hsize, hfs, hstep⟩ : ∃ next : Server, Receiving env next p t c c ∧
      next.session.negotiatedBlockSize = srv.session.negotiatedBlockSize ∧ next.fs = srv.fs ∧
      (Server.step env srv ⟨MSG_RAW_DATA, d⟩).1 = (Server.uploadLoop env next).1 := by
    refine ⟨{ srv with
      session := { srv.session with uploadState := { srv.session.uploadState with
        buffer := srv.session.uploadState.buffer ++ d
        received := srv.session.uploadState.received + UInt64.ofNat d.length } }
      ticks := srv.ticks + 1 }, ⟨h.up, h.writable, h.path, h.total, ?_, ?_⟩, rfl, rfl, ?_⟩
    · change srv.session.uploadState.received + UInt64.ofNat d.length = _
      rw [h.received, ← hc, List.length_append, UInt64.ofNat_add]
    · change srv.session.uploadState.buffer ++ d = _
      rw [h.buffer, hc]
    · rw [Server.step, if_pos hup, Server.uploadFrame, if_pos rfl]
  obtain ⟨srv', hloop, hidle, hsize', hready, hcommits⟩ := hnext.uploadLoop_all hlen
  rw [hstep, hloop]
  exact ⟨hidle, hsize'.trans hsize, hready, hfs ▸ hcommits⟩

/-- The request is acknowledged, and after the data the file is in its place. An empty file
is there before its data. -/
theorem step_upload (hidle : Idle srv) (hwritable : env.fm.Writable srv.fs p t)
    {m : FileMetadata} (hpath : m.relativePath = p) (hsize : m.fileSize = UInt64.ofNat c.length)
    (hlen : c.length < maxOffset) :
    ∃ srv₁, Server.step env srv
        (message env.proto.zeroCopyUploadRequest .zeroCopyUploadRequest ⟨m⟩) =
          (srv₁, [.frame (message env.proto.zeroCopyUploadAck .zeroCopyUploadAck ⟨.ok, "", 0⟩)]) ∧
      srv₁.crash = none ∧ Stores env srv (Server.step env srv₁ ⟨MSG_RAW_DATA, c⟩).1 p t c := by
  -- after the request the upload has begun, and nothing has arrived
  obtain ⟨accepted, hstart, hsize', hfs, hrequest⟩ : ∃ accepted : Server,
      Receiving env accepted p t c [] ∧
      accepted.session.negotiatedBlockSize = srv.session.negotiatedBlockSize ∧
      accepted.fs = srv.fs ∧ Server.step env srv
        (message env.proto.zeroCopyUploadRequest .zeroCopyUploadRequest ⟨m⟩) =
          ((Server.uploadLoop env accepted).1,
            .frame (message env.proto.zeroCopyUploadAck .zeroCopyUploadAck ⟨.ok, "", 0⟩) ::
              (Server.uploadLoop env accepted).2) := by
    refine ⟨{ srv with session := { srv.session with
      uploadState := (⟨m⟩ : ZeroCopyUploadRequest).upload, state := .transferring } },
      ⟨hidle.up, hwritable, hpath, hsize, rfl, rfl⟩, rfl, rfl, ?_⟩
    rw [Server.step_of_idle hidle.waiting, Server.dispatch_uploadRequest rfl,
      Server.handleZeroCopyUploadRequest]
    simp only [message, Codec.decode_encode]
    rfl
  have hstores : ∀ {srv'}, Stores env accepted srv' p t c → Stores env srv srv' p t c :=
    fun h => ⟨h.idle, h.negotiated.trans hsize', h.ready, hfs ▸ h.commits⟩
  by_cases hempty : c = []
  · -- all of an empty file has arrived with the request
    subst hempty
    obtain ⟨srv₁, hloop, hdone⟩ := hstart.uploadLoop_all hlen
    rw [hloop] at hrequest
    refine ⟨srv₁, hrequest, hdone.idle.up, ?_⟩
    rw [Server.step_of_idle hdone.idle.waiting, Server.dispatch_rawData rfl]
    exact hstores hdone
  · have hmore : ([] : Bytes).length < c.length := List.length_pos_iff.mpr hempty
    -- the loop waits for the data, which come in one frame
    rw [(hstart.loop hlen hmore.le).1 hmore] at hrequest
    have hwait : Receiving env { accepted with uploading := true } p t c [] :=
      ⟨hstart.up, hstart.writable, hstart.path, hstart.total, hstart.received, hstart.buffer⟩
    obtain ⟨hidle', hsame, hready, hcommits⟩ := hwait.step_last rfl rfl hlen
    exact ⟨_, hrequest, hstart.up, hstores ⟨hidle', hsame, hready, hcommits⟩⟩

end Upload

/-! ### Between two operations -/

/-- The session waits for a request, with the block size `b`. Nothing is on the way to it, and
what is left for the client can be skipped. -/
structure Resting (b : UInt32) (l : Link Server WireFrame Sent Accepted) : Prop where
  idle : Idle l.server
  negotiated : l.server.session.negotiatedBlockSize = b
  toServer : l.toServer = []
  stray : ∀ i ∈ l.toClient, i.Stray
  roomy : l.toClient.length < 100

namespace Resting

variable {env : Env} {cl : TcpClient} {fsC : FileSystem} {b : UInt32} {p : String}
  {t : LexPath.Text} {l : Link Server WireFrame Sent Accepted} {c : Bytes}

theorem up (h : Resting b l) (env : Env) : (machine env).down l.server = false := by
  simp [machine, h.idle.up]

/-- A negotiation returns the answer of the negotiator, and nothing is left. -/
theorem exec_negotiate (h : Resting b l) (hconn : cl.connected = true) {r : NegotiationResult}
    (hneg : l.server.session.negotiator.negotiate env.sha256 env.fm l.server.fs p
      (cl.negotiationRequest env.sha256 fsC p).clientSha256Hash = .ok r) :
    ∃ l', exec (machine env) Sent.view (cl.negotiate env.proto env.sha256 fsC p) l =
        ⟨.ret (.ok r), l'⟩ ∧ Resting b l' ∧ l'.toClient = [] ∧ l'.server.fs = l.server.fs := by
  have hdeliver := Link.deliver_of_up (h.up env) (message env.proto.negotiationRequest
    .negotiationRequest (cl.negotiationRequest env.sha256 fsC p))
  simp only [machine, step_negotiation_answered h.idle (cl.negotiationRequest env.sha256 fsC p)
    hneg] at hdeliver
  rw [AdaptiveSync.exec_negotiate hconn, machine, hdeliver,
    exec_readExpected_answer (.inl rfl) h.stray h.roomy rfl rfl,
    exec_accept (Codec.decode_encode _ _)]
  refine ⟨_, rfl, ⟨⟨h.idle.waiting, h.idle.up⟩, h.negotiated, h.toServer, ?_, ?_⟩, rfl, rfl⟩
  · exact fun _ hi => absurd hi List.not_mem_nil
  · exact Nat.succ_pos 99

/-- **An upload** puts the file in its place. -/
theorem exec_uploadFile (h : Resting b l) (hconn : cl.connected = true) (hnil : l.toClient = [])
    (hread : cl.fileOps.Readable fsC p c) (hplaced : env.fm.Placed l.server.fs p t) :
    ∃ l', exec (machine env) Sent.view (cl.uploadFile env.proto env.sha256 fsC p) l =
        ⟨.ret (.ok (env.sha256 c)), l'⟩ ∧ Resting b l' ∧
      env.fm.Holds l'.server.fs p t (some c) ∧
      FileManager.Commits l.server.fs l'.server.fs t c := by
  have hlen := hread.length_lt
  have hinfo := hread.getFileInfo env.sha256
  obtain ⟨srv₁, hrequest, hup₁, hstores⟩ := step_upload h.idle hplaced.writable
    (m := ⟨p, UInt64.ofNat c.length, fsC.os.mtime (fsC.locate (cl.fileOps.resolvePath p)),
      env.sha256 c, .fresh⟩) rfl rfl hlen
  -- what the session sends besides its acknowledgement is left
  have hexec : ∃ l', exec (machine env) Sent.view (cl.uploadFile env.proto env.sha256 fsC p) l =
      ⟨.ret (.ok (env.sha256 c)), l'⟩ ∧ l'.toServer = [] ∧
        l'.server = (Server.step env srv₁ ⟨MSG_RAW_DATA, c⟩).1 := by
    have hdeliver := Link.deliver_of_up (h.up env) (message env.proto.zeroCopyUploadRequest
      .zeroCopyUploadRequest ⟨⟨p, UInt64.ofNat c.length,
        fsC.os.mtime (fsC.locate (cl.fileOps.resolvePath p)), env.sha256 c, .fresh⟩⟩)
    simp only [machine, hrequest, hnil, List.nil_append] at hdeliver
    have hdown : (machine env).down srv₁ = false := by simp [machine, hup₁]
    simp only [TcpClient.uploadFile, hconn, Bool.not_true, Bool.false_eq_true, if_false, hinfo,
      onOk, exec]
    rw [machine, hdeliver, exec_readFrame rfl rfl, exec_accept (Codec.decode_encode _ _)]
    simp only [ne_eq, not_true_eq_false, if_false, hread.readAll, exec]
    refine ⟨_, rfl, ?_, ?_⟩
    · rw [Link.deliver_of_up hdown]
      exact h.toServer
    · rw [Link.deliver_of_up hdown]
  obtain ⟨l', hret, hts, hserver⟩ := hexec
  have hrun : exec (machine env) Sent.view (Op.run env cl fsC (.uploadFile p)) l =
      ⟨.ret (), l'⟩ := exec_bind_of_ret hret _
  have hstray := @stray_of_not_drains env cl fsC (.uploadFile p) l id h.stray
  have hroomy := @length_toClient_uploadFile env cl fsC l p hnil
  rw [hrun] at hstray hroomy
  obtain ⟨hidle, hsize, hready, hcommits⟩ := hserver ▸ hstores
  refine ⟨l', hret, ⟨hidle, hsize.trans h.negotiated, hts, hstray, hroomy⟩, ?_, hcommits⟩
  exact .of_commits hplaced hcommits hready

/-- **A delta sync** of a file that ends in a short block that is sent puts what it has merged
in the place of the file. -/
theorem exec_deltaSyncUpload {s : Bytes} (h : Resting b l) (hnil : l.toClient = [])
    (hsetup : Setup env cl fsC l.server p t b c s) (hplaced : env.fm.Placed l.server.fs p t)
    (hfin : Finishes b c s) :
    ∃ l', exec (machine env) Sent.view (cl.deltaSyncUpload env.proto env.sha256 fsC p) l =
        ⟨.ret (.ok (env.sha256 (committed b c s))), l'⟩ ∧ Resting b l' ∧
      env.fm.Holds l'.server.fs p t (some (committed b c s)) ∧
      FileManager.Commits l.server.fs l'.server.fs t (committed b c s) := by
  obtain ⟨l₀, hstart, hmerging, hts, htc, hcommits⟩ := exec_commits hsetup hfin
  obtain ⟨l', hexec, hts', htc', hserver⟩ := exec_of_start h.toServer hnil hstart
  rw [← hserver] at hmerging hcommits
  refine ⟨l', hexec, ⟨⟨hmerging.idle, hmerging.up⟩, hmerging.negotiated, hts'.trans hts, ?_, ?_⟩,
    .of_commits hplaced hcommits hmerging.ready, hcommits⟩
  · rw [htc', htc]
    exact nofun
  · rw [htc', htc]
    exact Nat.succ_pos 99

/-- Any other delta sync does not return. -/
theorem exec_deltaSyncUpload_stuck {s : Bytes} (h : Resting b l) (hnil : l.toClient = [])
    (hsetup : Setup env cl fsC l.server p t b c s) (hfin : ¬ Finishes b c s)
    (r : Except ClientError String) :
    (exec (machine env) Sent.view (cl.deltaSyncUpload env.proto env.sha256 fsC p) l).client ≠
      .ret r := by
  have hsame : l.Same (Link.start l.server) := ⟨h.toServer, hnil, rfl⟩
  rw [(hsame.exec _).1]
  have hwait := (exec_of_not_finishes hsetup.toMeeting hfin).1.1
  rw [upload] at hwait
  rw [hwait]
  intro hret
  cases hret

/-- A listing returns, and changes nothing. -/
theorem exec_listServerFiles (h : Resting b l) (hconn : cl.connected = true) (recursive : Bool) :
    ∃ r l', exec (machine env) Sent.view (cl.listServerFiles env.proto p recursive) l =
        ⟨.ret r, l'⟩ ∧ l'.server.fs = l.server.fs := by
  let request := message env.proto.listFilesRequest .listFilesRequest ⟨p, recursive⟩
  have hstep : Server.step env l.server request =
      Server.handleListFilesRequest env l.server request.payload := by
    rw [Server.step_of_idle h.idle.waiting]
    simp [Server.dispatch, request, message, MessageType.code]
  have hdeliver := Link.deliver_of_up (h.up env) request
  have hlist : exec (machine env) Sent.view (cl.listServerFiles env.proto p recursive) l =
      exec (machine env) Sent.view (readExpected .listFilesResponse
        (accept .listing env.proto.listFilesResponse "list response" fun resp =>
          .ret (.ok resp.files)) 100) (l.deliver (machine env) request) := by
    rw [TcpClient.listServerFiles, hconn]
    rfl
  simp only [Server.handleListFilesRequest, request, message, Codec.decode_encode] at hstep
  rw [hlist, hdeliver]
  cases hfiles : env.fm.listFiles env.sha256 l.server.fs p recursive with
  | ok files =>
    simp only [hfiles] at hstep
    simp only [machine, request, message, hstep]
    rw [exec_readExpected_answer (.inr (.inr rfl)) h.stray h.roomy rfl rfl,
      exec_accept (Codec.decode_encode _ _)]
    exact ⟨_, _, rfl, rfl⟩
  | error e =>
    -- the process ends, and with it the wait
    simp only [hfiles] at hstep
    simp only [machine, request, message, hstep, List.append_nil]
    obtain ⟨n, hn⟩ := Nat.exists_eq_add_of_le' (Nat.succ_le_of_lt h.roomy)
    rw [hn, Nat.add_succ, ← Nat.succ_add,
      @exec_readExpected_stray _ _ _ _ (.inr (.inr rfl)) [] l.toClient _ _ h.stray (by simp)]
    exact ⟨_, _, rfl, rfl⟩

end Resting

end AdaptiveSync
