import AdaptiveSync.Client.Operations
import AdaptiveSync.Protocol.DeltaRun
import AdaptiveSync.Server.Effects

/-!
# Which files can change

A session names a path in two kinds of frames: the request of an upload, and a block
(`named`). Whatever else its clients send, in any number of sessions one after another, the
store keeps every file that is not in the footprint of a path that was named
(`history_keeps_unnamed`), and every file outside the storage root if the paths that were
named are contained (`history_stays_inside`).

A client names the paths of its uploads and of its delta syncs only. So a sequence of
operations keeps every other file of the store, in every interleaving and at any moment of
it (`operations_keep_unwritten`).
-/

namespace AdaptiveSync

open Fs Duplex
open LexPath (cStr nul)

/-- The path for which the frame asks the session to write. -/
def named (env : Env) (frame : WireFrame) : Option String :=
  match incoming env.proto frame with
  | .zeroCopyUploadRequest m => some m.metadata.relativePath
  | .deltaSyncBlockData m => some m.relativePath
  | _ => none

/-- The locations that writing for one of the paths may change. -/
def footprints (fm : FileManager) (fs : FileSystem) (P : Set String) : Set Loc :=
  {l | ∃ p ∈ P, l ∈ footprint fm fs p}

/-- An upload that is going on is for one of the paths. -/
def WorksIn (srv : Server) (P : Set String) : Prop :=
  srv.uploading = true → srv.session.uploadState.relativePath ∈ P

section Footprints

variable {fm : FileManager} {fs fs' : FileSystem} {P : Set String}

theorem footprints_congr (h : fs'.os = fs.os) (P : Set String) :
    footprints fm fs' P = footprints fm fs P := by
  simp only [footprints, footprint_congr h]

theorem footprint_subset {p : String} (hp : p ∈ P) : footprint fm fs p ⊆ footprints fm fs P :=
  fun _ hl => ⟨p, hp, hl⟩

end Footprints

theorem named_upload (env : Env) (m : ZeroCopyUploadRequest) :
    named env (message env.proto.zeroCopyUploadRequest .zeroCopyUploadRequest m) =
      some m.metadata.relativePath := by
  simp [named, incoming, parse, message, MessageType.code]

theorem named_block (env : Env) (m : DeltaSyncBlockData) :
    named env (message env.proto.deltaSyncBlockData .deltaSyncBlockData m) =
      some m.relativePath := by
  rw [named, incoming_deltaSyncBlockData]

/-! ### One session -/

section Session

variable {env : Env} {srv : Server} {frame : WireFrame} {frames : List WireFrame} {P : Set String}

/-- A frame writes for the upload that is going on, or for the path it names. -/
theorem mem_of_writes (hw : WorksIn srv P) (hn : ∀ p ∈ named env frame, p ∈ P) {p : String}
    (h : srv.writes env frame = some p) : p ∈ P := by
  unfold Server.writes at h
  split at h
  · next hup =>
    obtain rfl := Option.some.inj h
    exact hw hup
  · exact hn p h

/-- One frame. -/
theorem keeps_step (hw : WorksIn srv P) (hn : ∀ p ∈ named env frame, p ∈ P) :
    WorksIn (Server.step env srv frame).1 P ∧
      srv.fs.FilesAgree (footprints env.fm srv.fs P) (Server.step env srv frame).1.fs := by
  cases hwrites : srv.writes env frame with
  | none =>
    -- a frame that asks for nothing to be written leaves no upload behind
    obtain ⟨hfs, hidle⟩ := fs_step_of_query hwrites
    rw [hfs]
    exact ⟨fun hup => absurd (hidle.symm.trans hup) (by simp), .refl _ _⟩
  | some p =>
    have hp := mem_of_writes hw hn hwrites
    refine ⟨fun hup => ?_, (filesAgree_step hwrites).mono (footprint_subset hp)⟩
    -- an upload that is going on afterwards is for the path of the frame
    rw [worksOn_step_of_writes hwrites hup]
    exact hp

/-- What the session and the store keep along a run. -/
def Confines (env : Env) (fs : FileSystem) (P : Set String) (srv : Server) : Prop :=
  WorksIn srv P ∧ fs.FilesAgree (footprints env.fm fs P) srv.fs

theorem Confines.step {fs : FileSystem} (h : Confines env fs P srv)
    (hn : ∀ p ∈ named env frame, p ∈ P) : Confines env fs P (Server.step env srv frame).1 := by
  obtain ⟨hw, hagree⟩ := h
  obtain ⟨hw', hagree'⟩ := keeps_step hw hn
  refine ⟨hw', hagree.trans ?_⟩
  rw [← footprints_congr hagree.os]
  exact hagree'

theorem Confines.run {fs : FileSystem} (h : Confines env fs P srv)
    (hn : ∀ frame ∈ frames, ∀ p ∈ named env frame, p ∈ P) :
    Confines env fs P (Server.run env srv frames).1 :=
  Server.run_induction h fun _ frame hframe hs => hs.step (hn frame hframe)

/-- The upload that the end of the connection finds is ended for its path. -/
theorem Confines.onEof {fs : FileSystem} (h : Confines env fs P srv) :
    fs.FilesAgree (footprints env.fm fs P) (Server.onEof env srv).1.fs := by
  obtain ⟨hw, hagree⟩ := h
  refine hagree.trans ?_
  rw [← footprints_congr hagree.os]
  unfold Server.onEof
  split
  · next hup => exact edits_finishUpload.filesAgree.mono (footprint_subset (hw hup))
  · exact .refl _ _

/-- A visit in which only these paths are named. -/
theorem filesAgree_leaves {fs : FileSystem} {v : Visit}
    (hn : ∀ frame ∈ v.frames, ∀ p ∈ named env frame, p ∈ P) :
    fs.FilesAgree (footprints env.fm fs P) (v.leaves env fs) := by
  have hstart : Confines env fs P (Server.new v.blockSize fs) :=
    ⟨fun hup => absurd hup (by simp [Server.new]), .refl _ _⟩
  have hkeeps := hstart.run hn
  unfold Visit.leaves
  dsimp only
  split
  · exact hkeeps.2
  · exact hkeeps.onEof

end Session

/-! ### Histories -/

/-- The paths that are named in a history. -/
def namedIn (env : Env) (visits : List Visit) : Set String :=
  {p | ∃ v ∈ visits, ∃ frame ∈ v.frames, p ∈ named env frame}

/-- A history in which only these paths are named. -/
theorem filesAgree_history {env : Env} {P : Set String} (visits : List Visit) :
    ∀ {fs : FileSystem}, namedIn env visits ⊆ P →
      fs.FilesAgree (footprints env.fm fs P) (history env fs visits) := by
  induction visits with
  | nil => exact fun _ => .refl _ _
  | cons v visits ih =>
    intro fs hP
    have hvisit : fs.FilesAgree (footprints env.fm fs P) (v.leaves env fs) :=
      filesAgree_leaves fun frame hframe p hp => hP ⟨v, List.mem_cons_self, frame, hframe, hp⟩
    have hrest := @ih (v.leaves env fs) fun p ⟨v', hv', hnamed⟩ =>
      hP ⟨v', List.mem_cons_of_mem v hv', hnamed⟩
    -- a visit does not change what the paths resolve to
    rw [footprints_congr hvisit.os] at hrest
    exact hvisit.trans hrest

/-- A relative path is contained, or does not resolve. -/
theorem contained_of_relative (fm : FileManager) {p : String}
    (h : LexPath.isAbsolute p.toList = false) : fm.Contained p := by
  refine ⟨fun t ht => ?_, fun t ht => ?_⟩
  · obtain ⟨c, hc, rfl⟩ := FileManager.resolvePath_of_relative h ht
    exact LexPath.inside_append fm.root hc
  · obtain ⟨t', ht', rfl⟩ := FileManager.tmpPathFor_eq_ok_iff.mp ht
    obtain ⟨c, hc, rfl⟩ := FileManager.resolvePath_of_relative h ht'
    have hcs : LexPath.Downward (c ++ tmpSuffix) := hc.append_suffix (by decide) (by decide)
    rw [LexPath.append_append_suffix fm.root hc.1 hcs.1]
    exact LexPath.inside_append fm.root hcs

/-- Both files of a contained path lie below the storage root, also where U+0000 cuts it. -/
theorem prefix_of_mem_footprint {fm : FileManager} {fs : FileSystem} {p : String}
    (h : fm.Contained p) {l : Loc} (hl : l ∈ footprint fm fs p) : fs.locate fm.root <+: l := by
  obtain ⟨t, ht, hl⟩ := hl
  have htmp := FileManager.tmpPathFor_eq_ok_iff.mpr ⟨t, ht, rfl⟩
  -- the scratch file is another one only where nothing is cut
  have hl : l ∈ fs.place (cStr t) ∨ nul ∉ t ∧ l = fs.locate (t ++ tmpSuffix) := by
    by_cases hnul : nul ∈ t
    · rw [cTmp_of_mem hnul] at hl
      exact .inl (hl.elim id id)
    · rw [cTmp_of_not_mem hnul] at hl
      exact hl.imp id fun hl => ⟨hnul, hl.2⟩
  cases habs : LexPath.isAbsolute p.toList with
  | true =>
    -- the path replaces the root, and is inside of it by itself
    obtain rfl : LexPath.lexicallyNormal p.toList = t :=
      Except.ok.inj ((FileManager.resolvePath_of_isAbsolute habs).symm.trans ht)
    have hnormal := LexPath.isAbsolute_lexicallyNormal habs
    have hsuffix : LexPath.isAbsolute (LexPath.lexicallyNormal p.toList ++ tmpSuffix) = true :=
      (h.2 _ htmp).1.trans ((h.1 _ ht).1.symm.trans hnormal)
    obtain ⟨hleaf, rfl⟩ | ⟨-, rfl⟩ := hl
    · obtain ⟨c, hc, hdown⟩ := LexPath.exists_downward_of_isAbsolute habs
      have hroot := (h.1 _ ht).1.symm.trans hnormal
      rw [FileSystem.locate_of_isAbsolute hroot,
        FileSystem.locate_of_isAbsolute ((LexPath.isAbsolute_cStr _).trans hnormal)]
      have hin := (h.1 _ ht).2.1
      rw [hc] at hin hleaf ⊢
      exact LexPath.normalNames_prefix_cStr fm.plain hdown hin hleaf
    · exact FileSystem.locate_prefix_of_inside hsuffix (h.2 _ htmp)
  | false =>
    obtain ⟨c, hc, rfl⟩ := FileManager.resolvePath_of_relative habs ht
    have hcs : LexPath.Downward (c ++ tmpSuffix) := hc.append_suffix (by decide) (by decide)
    obtain ⟨hleaf, rfl⟩ | ⟨-, rfl⟩ := hl
    · have hroot : nul ∉ fm.root := fm.plain
      rw [LexPath.cStr_append hroot hc.1] at hleaf ⊢
      rw [LexPath.endsInDirectory_append_right ((LexPath.isAbsolute_cStr c).trans hc.1)] at hleaf
      exact FileSystem.locate_prefix_append _ (hc.cStr hleaf).1
    · rw [LexPath.append_append_suffix fm.root hc.1 hcs.1]
      exact FileSystem.locate_prefix_append _ hcs

/-- The path that an operation writes for on the server. -/
def Op.writesFor : Op → Option String
  | .uploadFile p => some p
  | .deltaSyncUpload p => some p
  | _ => none

section Client

variable {env : Env} {op : Op} {frame : WireFrame} {blockSize : UInt32}

/-- An operation names the path it writes for. -/
theorem mem_writesFor_of_puts (h : op.Puts env.proto blockSize frame) {p : String}
    (hp : p ∈ named env frame) : p ∈ op.writesFor := by
  cases h with
  | negotiation m _ => simp [named] at hp
  | download m _ => simp [named] at hp
  | upload m hm =>
    rw [named_upload] at hp
    obtain rfl := Option.some.inj hp
    exact congrArg some hm.symm
  | raw bytes => simp [named, incoming, MSG_RAW_DATA, MessageType.code] at hp
  | signatures m _ _ => simp [named, incoming, parse, message, MessageType.code] at hp
  | block m hm =>
    rw [named_block] at hp
    obtain rfl := Option.some.inj hp
    exact congrArg some hm.symm
  | list m => simp [named] at hp

end Client

/-- The paths that operations write for. -/
def writtenBy (ops : List (Op × FileSystem)) : Set String := {p | ∃ x ∈ ops, p ∈ x.1.writesFor}

section Runs

variable {env : Env} {cl : TcpClient} {srv : Server} {ops : List (Op × FileSystem)}

theorem sends_named (ops : List (Op × FileSystem)) {P : Set String} (hP : writtenBy ops ⊆ P) :
    (runOps env cl ops).Sends fun frame => ∀ p ∈ named env frame, p ∈ P := by
  induction ops with
  | nil => trivial
  | cons x ops ih =>
    refine ((x.1.sends_puts env cl x.2).mono fun frame hputs p hp => ?_).bind fun _ => ih ?_
    · exact hP ⟨x, List.mem_cons_self, mem_writesFor_of_puts hputs hp⟩
    · rintro p ⟨y, hy, hp⟩
      exact hP ⟨y, List.mem_cons_of_mem x hy, hp⟩

/-- **Operations keep what they do not write.** A client runs operations on a session that
waits for a request. At every moment of every interleaving, the store has the files it had
before, but for those in the footprint of a path that an upload or a delta sync is for. -/
theorem operations_keep_unwritten (hidle : srv.uploading = false)
    {c : Config Server WireFrame Sent WireFrame Accepted Unit}
    (h : Reach (machine env) Sent.view ⟨runOps env cl ops, Link.start srv⟩ c) :
    srv.fs.FilesAgree (footprints env.fm srv.fs (writtenBy ops)) c.link.server.fs := by
  have hstart : (⟨runOps env cl ops, Link.start srv⟩ :
      Config Server WireFrame Sent WireFrame Accepted Unit).Keeps
        (fun frame => ∀ p ∈ named env frame, p ∈ writtenBy ops) (fun _ => True)
        (Confines env srv.fs (writtenBy ops)) :=
    .start (sends_named ops (subset_refl _))
      ⟨fun hup => absurd (hidle.symm.trans hup) (by simp), .refl _ _⟩
  have hkeeps := hstart.reach (fun s frame hs hn => ⟨hs.step hn, fun _ _ => trivial⟩) h
  exact hkeeps.server.2

end Runs

/-- A file is uploaded and the files are listed, beside a file `g`. -/
theorem operations_keep_unwritten_beside :
    let srv := Server.new 4096 (FileSystem.single ['s'] ['g'] (some [7]))
    let disk := FileSystem.single ['c'] ['f'] (some [1])
    let ops : List (Op × FileSystem) := [(.uploadFile "f", disk), (.listServerFiles "" true, disk)]
    srv.fs.FilesAgree (footprints storageEnv.fm srv.fs (writtenBy ops))
      (exec (machine storageEnv) Sent.view (runOps storageEnv (sampleClient 4096) ops)
        (Link.start srv)).link.server.fs := by
  intro srv disk ops
  exact operations_keep_unwritten rfl (exec_reach _ (settled_start storageEnv srv))

end AdaptiveSync
