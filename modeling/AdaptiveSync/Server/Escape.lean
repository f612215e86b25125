import AdaptiveSync.Hash
import AdaptiveSync.Protobuf
import AdaptiveSync.Server.Session

/-!
# Exceptions that leave a session

Nothing between a handler and the entry function of its thread catches anything, so an
exception thrown while a frame is handled ends the server. `resolve_path` throws on what it
takes for a traversal, the throwing overloads of `std::filesystem` throw when the operating
system fails or a directory stands where a file is asked for, reading a directory to its
end throws, and a block size of zero traps.

`Harmless` is a condition on the session and the frame it is about to handle: the file
operations that the handler is going to make do not throw. It is exact: a frame ends the
server exactly when it is not harmless (`crash_step_iff`).

Not everything a session turns down it answers with an error (`Refused`). It does for a frame
it cannot parse or does not know, a download it cannot serve and an upload it cannot write. It
does not for a request inside an upload, for bytes beyond the announced size and for a rename
that fails, of which nobody is told, nor for a block that is not merged, which is answered with
a completion. `Heard` says that none of these happens.

A run survives, with every refusal answered with an error, exactly as long as its frames are
harmless and heard (`survives_iff`).
-/

namespace AdaptiveSync

open Fs LexPath

/-! ### Which queries return -/

/-- `path` can be looked up: it resolves, `stat` works, and it is not a directory. -/
def Queryable (fm : FileManager) (fs : FileSystem) (path : String) : Prop :=
  ∃ t, fm.resolvePath path = .ok t ∧ fs.stat (cStr t) ≠ .failed ∧ fs.stat (cStr t) ≠ .dir

/-- What opens at the text can be read to its end: it is not a directory, and reading it does
not fail. -/
def ReadsThrough (fs : FileSystem) (t : Text) : Prop :=
  ∀ n, fs.openRead (cStr t) = some n → n ≠ .dir ∧ fs.os.fails .read (fs.locate (cStr t)) = false

/-- `path` can be hashed: it resolves, and what opens there can be read. -/
def Hashable (fm : FileManager) (fs : FileSystem) (path : String) : Prop :=
  ∃ t, fm.resolvePath path = .ok t ∧ ReadsThrough fs t

section Queries

variable {sha256 : Bytes → String} {fm : FileManager} {fs : FileSystem} {path : String}

theorem readToEnd_returns {t : Text} {n : Node} :
    (FileManager.readToEnd fs t n).Returns ↔
      n ≠ .dir ∧ fs.os.fails .read (fs.locate (cStr t)) = false := by
  cases n with
  | dir => simp [FileManager.readToEnd]
  | file b => cases h : fs.os.fails .read (fs.locate (cStr t)) <;> simp [FileManager.readToEnd, h]

theorem readsThrough_of_openRead {t : Text} {n : Node} (h : fs.openRead (cStr t) = some n) :
    ReadsThrough fs t ↔ (FileManager.readToEnd fs t n).Returns := by
  rw [readToEnd_returns]
  refine ⟨fun hr => hr n h, fun hn m hm => ?_⟩
  rw [h] at hm
  rwa [← Option.some.inj hm]

theorem readsThrough_of_none {t : Text} (h : fs.openRead (cStr t) = none) : ReadsThrough fs t :=
  fun n hn => absurd hn (by simp [h])

theorem getLastModifiedNs_returns :
    (fm.getLastModifiedNs fs path).Returns ↔
      ∃ t, fm.resolvePath path = .ok t ∧ fs.stat (cStr t) ≠ .failed := by
  unfold FileManager.getLastModifiedNs
  cases fm.resolvePath path with
  | error e => simp
  | ok t =>
    rw [Except.ok_bind]
    -- what is not there has no time, and a directory has one
    cases hs : fs.stat (cStr t) <;> simp [existsOrThrow, hs]

theorem computeSha256_returns :
    (fm.computeSha256 sha256 fs path).Returns ↔ Hashable fm fs path := by
  unfold FileManager.computeSha256 Hashable
  cases fm.resolvePath path with
  | error e => simp
  | ok t =>
    rw [Except.ok_bind]
    cases ho : fs.openRead (cStr t) with
    | none => simp [readsThrough_of_none ho]
    | some n =>
      simp only [Except.ok.injEq, exists_eq_left', readsThrough_of_openRead ho]
      cases FileManager.readToEnd fs t n <;> simp

theorem getFileInfo_returns :
    (fm.getFileInfo sha256 fs path).Returns ↔ Queryable fm fs path ∧ Hashable fm fs path := by
  have hhash := @computeSha256_returns sha256 fm fs path
  unfold FileManager.getFileInfo
  cases hp : fm.resolvePath path with
  | error e => simp [FileManager.fileExists, Queryable, hp]
  | ok t =>
    cases hs : fs.stat (cStr t) with
    | failed => simp [FileManager.fileExists, Queryable, hp, existsOrThrow, hs]
    | notFound =>
      -- nothing is looked at, and nothing opens
      have hopen : fs.openRead (cStr t) = none := by simp [FileSystem.openRead, hs]
      simp [FileManager.fileExists, Queryable, Hashable, hp, existsOrThrow, hs,
        readsThrough_of_none hopen]
    | dir =>
      simp [FileManager.fileExists, FileManager.getFileSize, Queryable, hp, existsOrThrow, hs]
    | file b =>
      -- a file has a size and a time, so only the hash can throw
      rw [← hhash]
      cases fm.computeSha256 sha256 fs path <;>
        simp [FileManager.fileExists, FileManager.getFileSize, FileManager.getLastModifiedNs,
          Queryable, hp, existsOrThrow, hs]

theorem negotiate_returns {n : Negotiator} {hash : String} :
    (n.negotiate sha256 fm fs path hash).Returns ↔
      Queryable fm fs path ∧ Hashable fm fs path := by
  rw [← @getFileInfo_returns sha256]
  unfold Negotiator.negotiate
  cases hf : fm.fileExists fs path with
  | error e => simp [FileManager.getFileInfo, hf]
  | ok found =>
    cases found with
    | false => simp [FileManager.getFileInfo, hf]
    | true =>
      cases fm.getFileInfo sha256 fs path with
      | error e => simp
      | ok info =>
        cases info with
        | none => simp
        | some info =>
          simp only [Except.ok_bind, Bool.not_true, Bool.false_eq_true, if_false,
            Except.returns_ok, iff_true]
          split <;> simp

/-- What becomes of a file that is there: one that ends before the offset is not sent, and
the others are hashed before anything goes out. -/
theorem sendFile_file_cases {env : Env} {t : Text} {b : Bytes}
    (hp : env.fm.resolvePath path = .ok t) (hs : fs.stat (cStr t) = .file b) (offset : UInt64) :
    (UInt64.ofNat b.length ≤ offset ∧ sendFile env fs path offset = (.ok false, [])) ∨
    offset < UInt64.ofNat b.length ∧
      ((∃ e, env.fm.computeSha256 env.sha256 fs path = .error e ∧
        sendFile env fs path offset = (.error e, [])) ∨
      ∃ hash ok header rest, env.fm.computeSha256 env.sha256 fs path = .ok hash ∧
        sendFile env fs path offset = (.ok ok, header :: rest)) := by
  simp only [sendFile, FileManager.fileExists, FileManager.getFileSize, hp, existsOrThrow, hs,
    Except.ok_bind, Bool.not_true, Bool.false_eq_true, if_false, pure, Except.pure]
  split
  -- an empty file ends before any offset
  · next hzero =>
    rw [hzero]
    exact .inl ⟨UInt64.zero_le, rfl⟩
  split
  · next hle => exact .inl ⟨hle, rfl⟩
  · next hlt =>
    refine .inr ⟨UInt64.not_le.mp hlt, ?_⟩
    cases env.fm.computeSha256 env.sha256 fs path with
    | error e => exact .inl ⟨e, rfl, rfl⟩
    | ok hash =>
      -- the header goes out before the file is opened
      refine .inr ⟨hash, ?_⟩
      dsimp only
      split
      · split <;> exact ⟨_, _, _, rfl, rfl⟩
      · exact ⟨_, _, _, rfl, rfl⟩

/-- A file that is there and longer than the offset is hashed before it is sent. -/
theorem sendFile_returns_of_file {env : Env} {offset : UInt64} {t : Text} {b : Bytes}
    (hp : env.fm.resolvePath path = .ok t) (hs : fs.stat (cStr t) = .file b) :
    (sendFile env fs path offset).1.Returns ↔
      (offset < UInt64.ofNat b.length → Hashable env.fm fs path) := by
  rw [← @computeSha256_returns env.sha256]
  obtain ⟨hle, heq⟩ | ⟨hlt, ⟨e, hhash, heq⟩ | ⟨hash, ok, header, rest, hhash, heq⟩⟩ :=
    sendFile_file_cases hp hs offset
  · simp [heq, UInt64.not_lt.mpr hle]
  · simp [heq, hhash, hlt]
  · simp [heq, hhash]

theorem sendFile_returns {env : Env} {offset : UInt64} :
    (sendFile env fs path offset).1.Returns ↔
      Queryable env.fm fs path ∧
        ∀ t b, env.fm.resolvePath path = .ok t → fs.stat (cStr t) = .file b →
          offset < UInt64.ofNat b.length → Hashable env.fm fs path := by
  cases hp : env.fm.resolvePath path with
  | error e => simp [sendFile, Queryable, hp]
  | ok t =>
    have hquery : Queryable env.fm fs path ↔
        fs.stat (cStr t) ≠ .failed ∧ fs.stat (cStr t) ≠ .dir := by
      simp [Queryable, hp]
    cases hs : fs.stat (cStr t) with
    | failed => simp [sendFile, FileManager.fileExists, hquery, hp, existsOrThrow, hs]
    | dir =>
      simp [sendFile, FileManager.fileExists, FileManager.getFileSize, hquery, hp, existsOrThrow,
        hs]
    | notFound =>
      have hsend : (sendFile env fs path offset).1 = .ok false := by
        simp only [sendFile, FileManager.fileExists, hp, existsOrThrow, hs, Except.ok_bind]
        rfl
      rw [hsend]
      refine ⟨fun _ => ⟨hquery.mpr (by simp [hs]), fun t' b ht hb => ?_⟩,
        fun _ => Except.returns_ok _⟩
      rw [← Except.ok.inj ht, hs] at hb
      exact absurd hb (by simp)
    | file b =>
      rw [sendFile_returns_of_file hp hs]
      refine ⟨fun h => ⟨hquery.mpr (by simp [hs]), fun t' b' ht hb => ?_⟩, fun h => h.2 t b rfl hs⟩
      rw [← Except.ok.inj ht, hs] at hb
      rw [← Stat.file.inj hb]
      exact h

theorem readBlock_returns {t : Text} (hp : fm.resolvePath path = .ok t) (offset : UInt64)
    (size : UInt32) : (fm.readBlock fs path offset size).Returns := by
  simp only [FileManager.readBlock, hp, Except.ok_bind]
  repeat' split
  all_goals exact Except.returns_pure _

theorem needed_returns {t : Text} (hp : fm.resolvePath path = .ok t) (size : UInt64)
    (blockSize : UInt32) (sigs : UInt32 → Option DeltaBlockSignature) (i : UInt32) :
    (DeltaSyncHandler.needed sha256 fm fs path size blockSize sigs i).Returns := by
  unfold DeltaSyncHandler.needed
  simp only
  obtain ⟨data, hdata⟩ := @readBlock_returns fm fs path t hp (i.toUInt64 * blockSize.toUInt64)
    (min64 blockSize.toUInt64 (size - i.toUInt64 * blockSize.toUInt64)).toUInt32
  rw [hdata, Except.ok_bind]
  repeat' split
  all_goals exact Except.returns_pure _

/-- A comparison of blocks throws when the file cannot be looked up or the blocks have size
zero. Reading blocks throws nothing. -/
theorem handleSignatureRequest_returns {size : UInt64} {blockSize : UInt32}
    {sigs : List DeltaBlockSignature} :
    (DeltaSyncHandler.handleSignatureRequest sha256 fm fs path size blockSize sigs).Returns ↔
      Queryable fm fs path ∧ blockSize ≠ 0 := by
  unfold DeltaSyncHandler.handleSignatureRequest
  cases hp : fm.resolvePath path with
  | error e => simp [FileManager.fileExists, Queryable, hp]
  | ok t =>
    have hquery : Queryable fm fs path ↔ fs.stat (cStr t) ≠ .failed ∧ fs.stat (cStr t) ≠ .dir := by
      simp [Queryable, hp]
    cases hs : fs.stat (cStr t) with
    | failed => simp [FileManager.fileExists, hquery, hp, existsOrThrow, hs]
    | dir => simp [FileManager.fileExists, FileManager.getFileSize, hquery, hp, existsOrThrow, hs]
    | notFound =>
      by_cases hb : blockSize = 0
      · simp [FileManager.fileExists, hp, existsOrThrow, hs, blockCount, hb]
      · simp [FileManager.fileExists, hquery, hp, existsOrThrow, hs, blockCount, hb]
    | file b =>
      simp only [FileManager.fileExists, FileManager.getFileSize, hp, existsOrThrow, hs,
        Except.ok_bind, Bool.not_true, Bool.false_eq_true, if_false, pure_bind, hquery, ne_eq,
        reduceCtorEq, not_false_eq_true, and_self, true_and]
      by_cases hb : blockSize = 0
      · simp [blockCount, hb]
      · have hfilter : ∀ k, ((indices 0 k).filterM (DeltaSyncHandler.needed sha256 fm fs path
            (UInt64.ofNat b.length) blockSize (clientMap sigs))).Returns :=
          fun k => Except.returns_filterM (needed_returns hp _ _ _)
        choose differing hdiffering using hfilter
        simp only [blockCount, hb, if_false, Except.ok_bind, hdiffering]
        simp

/-! ### Which commands return -/

/-- An upload to `path` can be saved: `path` resolves, and if the scratch file can be
written, `stat` works on it. -/
def Savable (fm : FileManager) (fs : FileSystem) (path : String) (data : Bytes) : Prop :=
  ∃ t, fm.resolvePath path = .ok t ∧
    ∀ fs', fm.writeFileAtomic fs path data = .ok (true, fs') → fs'.stat (cTmp t) ≠ .failed

/-- The scratch file of `path` can be committed: what opens there can be read, and so can what
then is the file. -/
def Committable (fm : FileManager) (fs : FileSystem) (path : String) (t : Text) : Prop :=
  ReadsThrough fs (t ++ tmpSuffix) ∧
    (fs.openRead (cTmp t) = none → Hashable fm fs path) ∧
    ∀ fs', fs.openRead (cTmp t) ≠ none → fs.rename (cTmp t) (cStr t) = some fs' →
      Hashable fm fs' path

/-- A block can be merged: its hash is wrong, so that it is not looked at further, or its
path resolves, and if it is final and was written, the scratch file can be committed. -/
def Mergeable (env : Env) (srv : Server) (d : DeltaSyncBlockData) : Prop :=
  env.sha256 d.data = d.strongHash →
    ∃ t, env.fm.resolvePath d.relativePath = .ok t ∧
      ∀ fs', env.fm.writeBlockAtomic srv.fs d.relativePath d.blockOffset d.data = .ok (true, fs') →
        srv.isFinal d.data = true → Committable env.fm fs' d.relativePath t

theorem writeFileAtomic_returns {data : Bytes} :
    (fm.writeFileAtomic fs path data).Returns ↔ ∃ t, fm.resolvePath path = .ok t := by
  unfold FileManager.writeFileAtomic FileManager.tmpPathFor FileManager.ensureParentDirs
  cases fm.resolvePath path with
  | error e => simp
  | ok t =>
    simp only [Except.ok_bind, pure_bind, Except.ok.injEq, exists_eq', iff_true]
    repeat' split
    all_goals exact Except.returns_pure _

theorem writeBlockAtomic_returns {offset : UInt64} {data : Bytes} :
    (fm.writeBlockAtomic fs path offset data).Returns ↔ ∃ t, fm.resolvePath path = .ok t := by
  unfold FileManager.writeBlockAtomic FileManager.tmpPathFor FileManager.ensureParentDirs
  cases fm.resolvePath path with
  | error e => simp
  | ok t =>
    simp only [Except.ok_bind, pure_bind, Except.ok.injEq, exists_eq', iff_true]
    repeat' split
    all_goals exact Except.returns_pure _

/-- What a commit returns, on a path that resolves. -/
theorem atomicRenameTmp_eq {t : Text} (hp : fm.resolvePath path = .ok t) :
    fm.atomicRenameTmp fs path =
      match fs.stat (cTmp t) with
      | .failed => .error (.filesystemError "status")
      | .notFound => .ok (false, fs)
      | _ =>
        match fs.rename (cTmp t) (cStr t) with
        | none => .ok (false, fs)
        | some fs' => .ok (true, fs') := by
  simp only [FileManager.atomicRenameTmp, FileManager.tmpPathFor, hp, Except.ok_bind, pure_bind,
    existsOrThrow, cStr_append_tmpSuffix]
  cases fs.stat (cTmp t) with
  | failed => rfl
  | notFound => rfl
  | file b => cases fs.rename (cTmp t) (cStr t) <;> rfl
  | dir => cases fs.rename (cTmp t) (cStr t) <;> rfl

theorem atomicRenameTmp_returns {t : Text} (hp : fm.resolvePath path = .ok t) :
    (fm.atomicRenameTmp fs path).Returns ↔ fs.stat (cTmp t) ≠ .failed := by
  rw [atomicRenameTmp_eq hp]
  cases fs.stat (cTmp t) with
  | failed => simp
  | notFound => simp
  | file b => cases fs.rename (cTmp t) (cStr t) <;> simp
  | dir => cases fs.rename (cTmp t) (cStr t) <;> simp

end Queries

/-! ### Listings -/

/-- The file at these names below the storage root is listed. -/
def Listed (namePrefix : String) (recursive : Bool) (names : List Name) : Prop :=
  ¬ (recursive = true ∧ extension (names.getLastD []) = tmpSuffix) ∧
    (namePrefix.toList ≠ [] →
      (FileManager.relativeText names).toList.take namePrefix.toList.length = namePrefix.toList)

/-- An entry can be listed: `stat` works on it, a directory can be entered, and a file that
is listed has a name that resolves and can be looked up and hashed under it. -/
def Listable (fm : FileManager) (fs : FileSystem) (namePrefix : String) (recursive : Bool)
    (root : Loc) (entry : List Name × Node) : Prop :=
  fs.os.fails .stat (root ++ entry.1) = false ∧
    match entry.2 with
    | .dir => recursive = true → fs.os.fails .readdir (root ++ entry.1) = false
    | .file _ => Listed namePrefix recursive entry.1 →
        (∃ t, fm.resolvePath (FileManager.relativeText entry.1) = .ok t ∧
          fs.stat (cStr t) ≠ .failed) ∧
          (recursive = false → Hashable fm fs (FileManager.relativeText entry.1))

/-- The storage root can be listed: it is not there, or it is a directory that can be
entered, and every entry of it can be listed. -/
def ListableRoot (fm : FileManager) (fs : FileSystem) (namePrefix : String) (recursive : Bool) :
    Prop :=
  fs.stat (cStr fm.storageRoot.toList) ≠ .failed ∧
    (fs.stat (cStr fm.storageRoot.toList) ≠ .notFound →
      fs.stat (cStr fm.storageRoot.toList) = .dir ∧
      fs.os.fails .readdir (fs.locate (cStr fm.storageRoot.toList)) = false ∧
      ∀ e ∈ fs.entriesBelow (fs.locate (cStr fm.storageRoot.toList)),
        (recursive = true ∨ e.1.length = 1) →
        Listable fm fs namePrefix recursive (fs.locate (cStr fm.storageRoot.toList)) e)

section Listings

variable {sha256 : Bytes → String} {fm : FileManager} {fs : FileSystem} {namePrefix : String}
  {recursive : Bool}

theorem listEntry_returns {root : Loc} {e : List Name × Node} :
    (fm.listEntry sha256 fs namePrefix recursive root e).Returns ↔
      Listable fm fs namePrefix recursive root e := by
  obtain ⟨names, node⟩ := e
  unfold FileManager.listEntry Listable
  cases hstat : fs.os.fails .stat (root ++ names) with
  | true => simp
  | false =>
    cases node with
    | dir =>
      -- a directory is entered only by a recursive listing
      cases recursive <;> cases fs.os.fails .readdir (root ++ names) <;> simp
    | file b =>
      simp only [Bool.false_eq_true, if_false, pure_bind, true_and]
      split
      · next htmp =>
        -- a scratch file is skipped
        simp only [Bool.and_eq_true, decide_eq_true_eq] at htmp
        exact ⟨fun _ hl => absurd htmp hl.1, fun _ => Except.returns_pure _⟩
      split
      · next hother =>
        simp only [Bool.and_eq_true, Bool.not_eq_true', List.isEmpty_eq_false_iff,
          decide_eq_true_eq] at hother
        exact ⟨fun _ hl => absurd (hl.2 hother.1) hother.2, fun _ => Except.returns_pure _⟩
      · next htmp hother =>
        -- neither skipped for its extension nor for the prefix
        have hlisted : Listed namePrefix recursive names := by
          simp only [Bool.and_eq_true, decide_eq_true_eq] at htmp
          simp only [Bool.and_eq_true, Bool.not_eq_true', List.isEmpty_eq_false_iff,
            decide_eq_true_eq, not_and, not_not] at hother
          exact ⟨htmp, hother⟩
        simp only [hlisted, true_imp_iff, ← getLastModifiedNs_returns,
          ← @computeSha256_returns sha256]
        cases fm.getLastModifiedNs fs (FileManager.relativeText names) with
        | error e => simp
        | ok mtime =>
          cases recursive with
          | true => simp
          | false =>
            cases fm.computeSha256 sha256 fs (FileManager.relativeText names) <;> simp

theorem listFiles_returns :
    (fm.listFiles sha256 fs namePrefix recursive).Returns ↔
      ListableRoot fm fs namePrefix recursive := by
  unfold FileManager.listFiles ListableRoot
  cases hs : fs.stat (cStr fm.storageRoot.toList) with
  | failed => simp [existsOrThrow, hs]
  | notFound => simp [existsOrThrow, hs]
  | file b => simp [existsOrThrow, hs]
  | dir =>
    cases hdir : fs.os.fails .readdir (fs.locate (cStr fm.storageRoot.toList)) with
    | true => simp [existsOrThrow, hs, hdir]
    | false =>
      -- the loop returns exactly when each of its rounds does
      have hmap := @Except.returns_mapM _ _ _
        (fm.listEntry sha256 fs namePrefix recursive (fs.locate (cStr fm.storageRoot.toList)))
        ((fs.entriesBelow (fs.locate (cStr fm.storageRoot.toList))).filter
          fun e => recursive || e.1.length = 1)
      simp only [List.mem_filter, listEntry_returns, Bool.or_eq_true, decide_eq_true_eq, and_imp]
        at hmap
      simp only [existsOrThrow, hs, Except.ok_bind, Bool.not_true, Bool.false_eq_true, if_false,
        ne_eq, not_true_eq_false, reduceCtorEq, not_false_eq_true, true_and, true_imp_iff]
      rw [← hmap]
      cases List.mapM (fm.listEntry sha256 fs namePrefix recursive
        (fs.locate (cStr fm.storageRoot.toList))) _ <;> simp [hdir]

end Listings

/-! ### Harmless frames -/

/-- The upload after the frame. -/
def UploadState.next (u : UploadState) (frame : WireFrame) : UploadState :=
  if frame.messageType = MSG_RAW_DATA then
    { u with
      buffer := u.buffer ++ frame.payload
      received := u.received + UInt64.ofNat frame.payload.length }
  else u

/-- An upload that is complete can be saved. -/
def UploadState.Harmless (env : Env) (fs : FileSystem) (u : UploadState) : Prop :=
  u.received = u.totalSize → Savable env.fm fs u.relativePath u.buffer

/-- The upload a request opens. -/
def ZeroCopyUploadRequest.upload (req : ZeroCopyUploadRequest) : UploadState where
  relativePath := req.metadata.relativePath
  totalSize := req.metadata.fileSize
  received := 0
  expectedSha256 := req.metadata.sha256Hash
  buffer := []

/-- What an idle session takes a frame for. -/
inductive Incoming where
  | clientHello (m : ClientHello)
  | negotiationRequest (m : NegotiationRequest)
  | zeroCopyDownloadRequest (m : ZeroCopyDownloadRequest)
  | zeroCopyUploadRequest (m : ZeroCopyUploadRequest)
  | deltaSyncSignatureRequest (m : DeltaSyncSignatureRequest)
  | deltaSyncBlockData (m : DeltaSyncBlockData)
  | listFilesRequest (m : ListFilesRequest)
  /-- A frame of an unknown type, or one that does not parse. -/
  | malformed (text : String)

/-- Parse a payload, or say what could not be parsed. -/
def parse {α : Type} (c : Codec α) (what : String) (request : α → Incoming) (payload : Bytes) :
    Incoming :=
  match c.decode payload with
  | none => .malformed ("Failed to parse " ++ what)
  | some m => request m

/-- What an idle session takes the frame for. -/
def incoming (proto : Proto) (frame : WireFrame) : Incoming :=
  if frame.messageType = MessageType.clientHello.code then
    parse proto.clientHello "ClientHello" .clientHello frame.payload
  else if frame.messageType = MessageType.negotiationRequest.code then
    parse proto.negotiationRequest "NegotiationRequest" .negotiationRequest frame.payload
  else if frame.messageType = MessageType.zeroCopyDownloadRequest.code then
    parse proto.zeroCopyDownloadRequest "ZeroCopyDownloadRequest" .zeroCopyDownloadRequest
      frame.payload
  else if frame.messageType = MessageType.zeroCopyUploadRequest.code then
    parse proto.zeroCopyUploadRequest "ZeroCopyUploadRequest" .zeroCopyUploadRequest frame.payload
  else if frame.messageType = MessageType.deltaSyncSignatureRequest.code then
    parse proto.deltaSyncSignatureRequest "DeltaSyncSignatureRequest" .deltaSyncSignatureRequest
      frame.payload
  else if frame.messageType = MessageType.deltaSyncBlockData.code then
    parse proto.deltaSyncBlockData "DeltaSyncBlockData" .deltaSyncBlockData frame.payload
  else if frame.messageType = MessageType.listFilesRequest.code then
    parse proto.listFilesRequest "ListFilesRequest" .listFilesRequest frame.payload
  else .malformed "Unknown message type"

section Requests

variable (proto : Proto)

/-! What a client sends is taken for what it is. -/

@[simp] theorem incoming_negotiationRequest (m : NegotiationRequest) :
    incoming proto (message proto.negotiationRequest .negotiationRequest m) =
      .negotiationRequest m := by
  simp [incoming, parse, message, MessageType.code]

@[simp] theorem incoming_zeroCopyDownloadRequest (m : ZeroCopyDownloadRequest) :
    incoming proto (message proto.zeroCopyDownloadRequest .zeroCopyDownloadRequest m) =
      .zeroCopyDownloadRequest m := by
  simp [incoming, parse, message, MessageType.code]

@[simp] theorem incoming_deltaSyncBlockData (m : DeltaSyncBlockData) :
    incoming proto (message proto.deltaSyncBlockData .deltaSyncBlockData m) =
      .deltaSyncBlockData m := by
  simp [incoming, parse, message, MessageType.code]

@[simp] theorem incoming_listFilesRequest (m : ListFilesRequest) :
    incoming proto (message proto.listFilesRequest .listFilesRequest m) =
      .listFilesRequest m := by
  simp [incoming, parse, message, MessageType.code]

end Requests

/-- The file operations that the request leads to do not throw. -/
def Incoming.Harmless (env : Env) (srv : Server) : Incoming → Prop
  | .clientHello _ => True
  | .negotiationRequest m =>
    Queryable env.fm srv.fs m.relativePath ∧ Hashable env.fm srv.fs m.relativePath
  | .zeroCopyDownloadRequest m =>
    Queryable env.fm srv.fs m.relativePath ∧
      ∀ t b, env.fm.resolvePath m.relativePath = .ok t → srv.fs.stat (cStr t) = .file b →
        m.offset < UInt64.ofNat b.length → Hashable env.fm srv.fs m.relativePath
  | .zeroCopyUploadRequest m => m.upload.Harmless env srv.fs
  | .deltaSyncSignatureRequest m => Queryable env.fm srv.fs m.relativePath ∧ m.blockSize ≠ 0
  | .deltaSyncBlockData m => Mergeable env srv m
  | .listFilesRequest m => ListableRoot env.fm srv.fs m.directoryPrefix m.recursive
  | .malformed _ => True

/-- **A harmless frame**: the file operations it leads to do not throw. -/
def Harmless (env : Env) (srv : Server) (frame : WireFrame) : Prop :=
  if srv.uploading then (srv.session.uploadState.next frame).Harmless env srv.fs
  else (incoming env.proto frame).Harmless env srv

section Handlers

variable {env : Env} {srv : Server}

theorem crash_finishUpload_iff (h : srv.crash = none) :
    (Server.finishUpload env srv).1.crash = none ↔
      srv.session.uploadState.Harmless env srv.fs := by
  unfold Server.finishUpload UploadState.Harmless
  simp only
  by_cases hdone : srv.session.uploadState.received = srv.session.uploadState.totalSize
  · rw [if_pos hdone]
    -- everything has arrived: the scratch file is written, then renamed
    simp only [hdone, true_imp_iff, Savable]
    have hreturns := @writeFileAtomic_returns env.fm srv.fs srv.session.uploadState.relativePath
      srv.session.uploadState.buffer
    cases hw : env.fm.writeFileAtomic srv.fs srv.session.uploadState.relativePath
        srv.session.uploadState.buffer with
    -- writing throws only when the path does not resolve
    | error e =>
      rw [hw] at hreturns
      constructor
      · intro hc
        exact absurd hc (by simp [Server.throw])
      · rintro ⟨t, ht, -⟩
        exact absurd (hreturns.mpr ⟨t, ht⟩) (Except.not_returns_error e)
    | ok r =>
      rw [hw] at hreturns
      obtain ⟨t, ht⟩ := hreturns.mp (Except.returns_ok r)
      obtain ⟨written, fs'⟩ := r
      cases written with
      -- a write that fails is answered, and nothing is renamed
      | false =>
        refine ⟨fun _ => ⟨t, ht, fun fs'' hfs => absurd hfs (by simp)⟩, fun _ => ?_⟩
        simp [Server.setState, h]
      | true =>
        have hrename := @atomicRenameTmp_returns env.fm fs' _ t ht
        have hsavable : (∃ t, env.fm.resolvePath srv.session.uploadState.relativePath = .ok t ∧
            ∀ fs'', Except.ok (true, fs') = (Except.ok (true, fs'') : Except Crash _) →
              fs''.stat (cTmp t) ≠ .failed) ↔ fs'.stat (cTmp t) ≠ .failed := by
          simp [ht]
        rw [hsavable, ← hrename]
        cases hr : env.fm.atomicRenameTmp fs' srv.session.uploadState.relativePath <;>
          simp [hr, Server.throw, Server.setState, h]
  · rw [if_neg hdone]
    simp [hdone, Server.setState, h]

theorem crash_uploadLoop_iff (h : srv.crash = none) :
    (Server.uploadLoop env srv).1.crash = none ↔
      srv.session.uploadState.Harmless env srv.fs := by
  unfold Server.uploadLoop
  split
  · next hmore =>
    -- the loop reads on, and the upload is not complete
    refine ⟨fun _ hdone => ?_, fun _ => h⟩
    rw [hdone] at hmore
    exact absurd hmore (UInt64.lt_irrefl _)
  · exact crash_finishUpload_iff h

theorem crash_uploadFrame_iff (h : srv.crash = none) (frame : WireFrame) :
    (Server.uploadFrame env srv frame).1.crash = none ↔
      (srv.session.uploadState.next frame).Harmless env srv.fs := by
  unfold Server.uploadFrame UploadState.next
  split
  · exact crash_uploadLoop_iff h
  · exact crash_uploadLoop_iff h

theorem crash_handleZeroCopyUploadRequest_iff (h : srv.crash = none) {payload : Bytes}
    {m : ZeroCopyUploadRequest} (hm : env.proto.zeroCopyUploadRequest.decode payload = some m) :
    (Server.handleZeroCopyUploadRequest env srv payload).1.crash = none ↔
      m.upload.Harmless env srv.fs := by
  rw [Server.handleZeroCopyUploadRequest, hm]
  exact crash_uploadLoop_iff h

theorem crash_handleNegotiationRequest_iff (h : srv.crash = none) {payload : Bytes}
    {m : NegotiationRequest} (hm : env.proto.negotiationRequest.decode payload = some m) :
    (Server.handleNegotiationRequest env srv payload).1.crash = none ↔
      Queryable env.fm srv.fs m.relativePath ∧ Hashable env.fm srv.fs m.relativePath := by
  rw [Server.handleNegotiationRequest, hm, ← @negotiate_returns env.sha256 env.fm srv.fs
    m.relativePath srv.session.negotiator m.clientSha256Hash]
  cases hr : srv.session.negotiator.negotiate env.sha256 env.fm srv.fs m.relativePath
    m.clientSha256Hash <;> simp [hr, Server.throw, Server.setState, h]

theorem crash_handleZeroCopyDownloadRequest_iff (h : srv.crash = none) {payload : Bytes}
    {m : ZeroCopyDownloadRequest} (hm : env.proto.zeroCopyDownloadRequest.decode payload = some m) :
    (Server.handleZeroCopyDownloadRequest env srv payload).1.crash = none ↔
      Queryable env.fm srv.fs m.relativePath ∧
        ∀ t b, env.fm.resolvePath m.relativePath = .ok t → srv.fs.stat (cStr t) = .file b →
          m.offset < UInt64.ofNat b.length → Hashable env.fm srv.fs m.relativePath := by
  rw [Server.handleZeroCopyDownloadRequest, hm,
    ← @sendFile_returns srv.fs m.relativePath env m.offset]
  cases hr : sendFile env srv.fs m.relativePath m.offset with
  | mk r out =>
    cases r with
    | error e => simp [hr, Server.throw, Server.setState]
    | ok served => cases served <;> simp [hr, Server.setState, h]

theorem crash_handleDeltaSyncSignatureRequest_iff (h : srv.crash = none) {payload : Bytes}
    {m : DeltaSyncSignatureRequest}
    (hm : env.proto.deltaSyncSignatureRequest.decode payload = some m) :
    (Server.handleDeltaSyncSignatureRequest env srv payload).1.crash = none ↔
      Queryable env.fm srv.fs m.relativePath ∧ m.blockSize ≠ 0 := by
  rw [Server.handleDeltaSyncSignatureRequest, hm, ← @handleSignatureRequest_returns env.sha256
    env.fm srv.fs m.relativePath m.fileSize m.blockSize (m.signatures.map fun sig =>
      ⟨sig.blockIndex, sig.rollingHash, sig.strongHash, sig.blockOffset, sig.blockSize⟩)]
  simp only
  split
  · next e he => simp [he, Server.throw, Server.setState]
  · next r hr => simp [hr, Server.setState, h]

theorem crash_handleListFilesRequest_iff (h : srv.crash = none) {payload : Bytes}
    {m : ListFilesRequest} (hm : env.proto.listFilesRequest.decode payload = some m) :
    (Server.handleListFilesRequest env srv payload).1.crash = none ↔
      ListableRoot env.fm srv.fs m.directoryPrefix m.recursive := by
  rw [Server.handleListFilesRequest, hm, ← @listFiles_returns env.sha256 env.fm srv.fs
    m.directoryPrefix m.recursive]
  cases hr : env.fm.listFiles env.sha256 srv.fs m.directoryPrefix m.recursive <;>
    simp [hr, Server.throw, h]

/-- Committing throws when the scratch file opens and cannot be read; otherwise it ends with
the file replaced, or, when the scratch file does not open, with the disk as it was. -/
theorem finalize_eq {h : DeltaSyncHandler} {fm : FileManager} {fs : FileSystem} {path : String}
    {t : Text} (hp : fm.resolvePath path = .ok t) :
    DeltaSyncHandler.finalize fm h fs path =
      match fs.openRead (cTmp t) with
      | none => ⟨.ok .ok, h.untrack path, fs, false⟩
      | some n =>
        match FileManager.readToEnd fs (t ++ tmpSuffix) n with
        | .error e => ⟨.error e, h, fs, false⟩
        | .ok _ =>
          match fs.rename (cTmp t) (cStr t) with
          | none => ⟨.ok .error, h, fs, false⟩
          | some fs' => ⟨.ok .ok, h.untrack path, fs', true⟩ := by
  have htmp : fm.tmpPathFor path = .ok (t ++ tmpSuffix) :=
    FileManager.tmpPathFor_eq_ok_iff.mpr ⟨t, hp, rfl⟩
  simp only [DeltaSyncHandler.finalize, htmp, cStr_append_tmpSuffix]
  cases ho : fs.openRead (cTmp t) with
  | none => rfl
  | some n =>
    simp only
    cases FileManager.readToEnd fs (t ++ tmpSuffix) n with
    | error e => rfl
    | ok b =>
      -- what opens is there
      have hstat : fs.stat (cTmp t) ≠ .failed ∧ fs.stat (cTmp t) ≠ .notFound := by
        unfold FileSystem.openRead at ho
        split at ho
        · exact absurd ho (by simp)
        · constructor <;> intro hs <;> simp [hs] at ho
      simp only [atomicRenameTmp_eq hp]
      cases hs : fs.stat (cTmp t) with
      | failed => exact absurd hs hstat.1
      | notFound => exact absurd hs hstat.2
      | file b => cases fs.rename (cTmp t) (cStr t) <;> rfl
      | dir => cases fs.rename (cTmp t) (cStr t) <;> rfl

/-- A scratch file can be committed exactly when committing it does not throw and hashing
the file then does not either. -/
theorem committable_iff {h : DeltaSyncHandler} {fm : FileManager} {fs : FileSystem} {path : String}
    {t : Text} (hp : fm.resolvePath path = .ok t) :
    Committable fm fs path t ↔
      (DeltaSyncHandler.finalize fm h fs path).result.Returns ∧
        ((DeltaSyncHandler.finalize fm h fs path).result = .ok .ok →
          Hashable fm (DeltaSyncHandler.finalize fm h fs path).fs path) := by
  rw [finalize_eq hp, Committable]
  cases ho : fs.openRead (cTmp t) with
  | none => simp [readsThrough_of_none ho]
  | some n =>
    rw [readsThrough_of_openRead ho]
    cases hr : FileManager.readToEnd fs (t ++ tmpSuffix) n with
    | error e => simp [hr]
    | ok b => cases hmv : fs.rename (cTmp t) (cStr t) <;> simp [hr]

/-- A block can be merged exactly when merging it does not throw and hashing the file then does
not either. -/
theorem mergeable_iff {d : DeltaSyncBlockData} :
    Mergeable env srv d ↔ (mergeOf env srv d).result.Returns ∧
      (srv.isFinal d.data = true → (mergeOf env srv d).result = .ok .ok →
        Hashable env.fm (mergeOf env srv d).fs d.relativePath) := by
  rw [Mergeable, mergeOf, DeltaSyncHandler.handleBlockData]
  by_cases hhash : env.sha256 d.data = d.strongHash
  · simp only [hhash, ne_eq, not_true_eq_false, if_false, true_imp_iff]
    have hreturns := @writeBlockAtomic_returns env.fm srv.fs d.relativePath d.blockOffset d.data
    cases hw : env.fm.writeBlockAtomic srv.fs d.relativePath d.blockOffset d.data with
    | error e =>
      rw [hw] at hreturns
      constructor
      · rintro ⟨t, ht, -⟩
        exact absurd (hreturns.mpr ⟨t, ht⟩) (Except.not_returns_error e)
      · intro hc
        exact absurd hc.1 (by simp)
    | ok written =>
      rw [hw] at hreturns
      obtain ⟨t, ht⟩ := hreturns.mp (Except.returns_ok written)
      obtain ⟨done, fs'⟩ := written
      cases done with
      | false => simp [ht]
      | true =>
        cases hfinal : srv.isFinal d.data with
        | false => simp [ht]
        | true =>
          simp only [if_true, true_imp_iff, ht, Except.ok.injEq, exists_eq_left', Prod.mk.injEq,
            true_and, forall_eq']
          exact committable_iff ht
  · -- a block with a wrong hash is not looked at further
    simp [hhash]

/-- The end of `handle_delta_sync_block_data`: a block that was merged and final leads to the
hash of the file. -/
theorem crash_handleDeltaSyncBlockData_iff (h : srv.crash = none) {payload : Bytes}
    {m : DeltaSyncBlockData} (hm : env.proto.deltaSyncBlockData.decode payload = some m) :
    (Server.handleDeltaSyncBlockData env srv payload).1.crash = none ↔ Mergeable env srv m := by
  rw [mergeable_iff, Server.handleDeltaSyncBlockData, hm, ← @computeSha256_returns env.sha256]
  simp only [mergeOf]
  generalize srv.session.deltaSyncHandler.handleBlockData env.sha256 env.fm srv.fs m.relativePath
    m.blockIndex m.blockOffset m.data m.strongHash (srv.isFinal m.data) = r
  cases hres : r.result with
  | error e => simp [Server.throw]
  | ok status =>
    simp only [Except.returns_ok, true_and, Except.ok.injEq]
    by_cases hok : status = .ok
    · cases srv.isFinal m.data with
      -- a block that is not final is not answered
      | false => simp [hok, Server.setState, h]
      | true =>
        cases env.fm.computeSha256 env.sha256 r.fs m.relativePath <;>
          simp [hok, Server.throw, Server.setState, h]
    · -- a block that was not merged is answered without a hash
      simp [hok, Server.setState, h]

end Handlers

/-! ### Survival -/

section Survival

variable {env : Env} {srv : Server}

/-- The handler a request goes to. -/
theorem dispatch_incoming (env : Env) (srv : Server) (frame : WireFrame) :
    match incoming env.proto frame with
    | .clientHello m => env.proto.clientHello.decode frame.payload = some m ∧
        Server.dispatch env srv frame = Server.handleClientHello env srv frame.payload
    | .negotiationRequest m => env.proto.negotiationRequest.decode frame.payload = some m ∧
        Server.dispatch env srv frame = Server.handleNegotiationRequest env srv frame.payload
    | .zeroCopyDownloadRequest m =>
        env.proto.zeroCopyDownloadRequest.decode frame.payload = some m ∧
        Server.dispatch env srv frame = Server.handleZeroCopyDownloadRequest env srv frame.payload
    | .zeroCopyUploadRequest m => env.proto.zeroCopyUploadRequest.decode frame.payload = some m ∧
        Server.dispatch env srv frame = Server.handleZeroCopyUploadRequest env srv frame.payload
    | .deltaSyncSignatureRequest m =>
        env.proto.deltaSyncSignatureRequest.decode frame.payload = some m ∧
        Server.dispatch env srv frame = Server.handleDeltaSyncSignatureRequest env srv frame.payload
    | .deltaSyncBlockData m => env.proto.deltaSyncBlockData.decode frame.payload = some m ∧
        Server.dispatch env srv frame = Server.handleDeltaSyncBlockData env srv frame.payload
    | .listFilesRequest m => env.proto.listFilesRequest.decode frame.payload = some m ∧
        Server.dispatch env srv frame = Server.handleListFilesRequest env srv frame.payload
    | .malformed text => Server.dispatch env srv frame =
        (srv, [Server.sendError env .protocolError text]) := by
  unfold incoming Server.dispatch parse
  -- the tests of the dispatch, in its order
  by_cases h₁ : frame.messageType = MessageType.clientHello.code
  · simp only [if_pos h₁]
    cases hm : env.proto.clientHello.decode frame.payload <;> simp [Server.handleClientHello, hm]
  simp only [if_neg h₁]
  by_cases h₂ : frame.messageType = MessageType.negotiationRequest.code
  · simp only [if_pos h₂]
    cases hm : env.proto.negotiationRequest.decode frame.payload <;>
      simp [Server.handleNegotiationRequest, hm]
  simp only [if_neg h₂]
  by_cases h₃ : frame.messageType = MessageType.zeroCopyDownloadRequest.code
  · simp only [if_pos h₃]
    cases hm : env.proto.zeroCopyDownloadRequest.decode frame.payload <;>
      simp [Server.handleZeroCopyDownloadRequest, hm]
  simp only [if_neg h₃]
  by_cases h₄ : frame.messageType = MessageType.zeroCopyUploadRequest.code
  · simp only [if_pos h₄]
    cases hm : env.proto.zeroCopyUploadRequest.decode frame.payload <;>
      simp [Server.handleZeroCopyUploadRequest, hm]
  simp only [if_neg h₄]
  by_cases h₅ : frame.messageType = MessageType.deltaSyncSignatureRequest.code
  · simp only [if_pos h₅]
    cases hm : env.proto.deltaSyncSignatureRequest.decode frame.payload <;>
      simp [Server.handleDeltaSyncSignatureRequest, hm]
  simp only [if_neg h₅]
  by_cases h₆ : frame.messageType = MessageType.deltaSyncBlockData.code
  · simp only [if_pos h₆]
    cases hm : env.proto.deltaSyncBlockData.decode frame.payload <;>
      simp [Server.handleDeltaSyncBlockData, hm]
  simp only [if_neg h₆]
  by_cases h₇ : frame.messageType = MessageType.listFilesRequest.code
  · simp only [if_pos h₇]
    cases hm : env.proto.listFilesRequest.decode frame.payload <;>
      simp [Server.handleListFilesRequest, hm]
  · simp only [if_neg h₇]

/-- **One frame.** A frame ends the server exactly when it is not harmless. -/
theorem crash_step_iff (h : srv.crash = none) (frame : WireFrame) :
    (Server.step env srv frame).1.crash = none ↔ Harmless env srv frame := by
  unfold Server.step Harmless
  split
  · -- inside an upload every frame goes to the loop
    exact crash_uploadFrame_iff h frame
  have hdispatch := dispatch_incoming env srv frame
  cases hin : incoming env.proto frame with
  | clientHello m =>
    rw [hin] at hdispatch
    rw [hdispatch.2, Server.handleClientHello, hdispatch.1]
    exact iff_of_true h trivial
  | negotiationRequest m =>
    rw [hin] at hdispatch
    rw [hdispatch.2]
    exact crash_handleNegotiationRequest_iff h hdispatch.1
  | zeroCopyDownloadRequest m =>
    rw [hin] at hdispatch
    rw [hdispatch.2]
    exact crash_handleZeroCopyDownloadRequest_iff h hdispatch.1
  | zeroCopyUploadRequest m =>
    rw [hin] at hdispatch
    rw [hdispatch.2]
    exact crash_handleZeroCopyUploadRequest_iff h hdispatch.1
  | deltaSyncSignatureRequest m =>
    rw [hin] at hdispatch
    rw [hdispatch.2]
    exact crash_handleDeltaSyncSignatureRequest_iff h hdispatch.1
  | deltaSyncBlockData m =>
    rw [hin] at hdispatch
    rw [hdispatch.2]
    exact crash_handleDeltaSyncBlockData_iff h hdispatch.1
  | listFilesRequest m =>
    rw [hin] at hdispatch
    rw [hdispatch.2]
    exact crash_handleListFilesRequest_iff h hdispatch.1
  | malformed text =>
    rw [hin] at hdispatch
    rw [hdispatch]
    exact iff_of_true h trivial

/-- The upload that a frame leads to. -/
def uploadAfter (env : Env) (srv : Server) (frame : WireFrame) : Option UploadState :=
  if srv.uploading then some (srv.session.uploadState.next frame)
  else
    match incoming env.proto frame with
    | .zeroCopyUploadRequest m => some m.upload
    | _ => none

/-- The block that a frame carries to a session that waits for a request. -/
def blockAfter (env : Env) (srv : Server) (frame : WireFrame) : Option DeltaSyncBlockData :=
  if srv.uploading then none
  else
    match incoming env.proto frame with
    | .deltaSyncBlockData m => some m
    | _ => none

/-- The session turns the frame down without an exception. -/
inductive Refused (env : Env) (srv : Server) (frame : WireFrame) : Prop
  | malformed (text : String) (hidle : srv.uploading = false)
      (hin : incoming env.proto frame = .malformed text)
  | download (m : ZeroCopyDownloadRequest) (hidle : srv.uploading = false)
      (hin : incoming env.proto frame = .zeroCopyDownloadRequest m)
      (hsend : (sendFile env srv.fs m.relativePath m.offset).1 = .ok false)
  /-- A frame inside an upload that is not raw data is dropped. -/
  | dropped (hup : srv.uploading = true)
      (hmore : srv.session.uploadState.received < srv.session.uploadState.totalSize)
      (hother : frame.messageType ≠ MSG_RAW_DATA)
  /-- More has arrived than was announced. -/
  | excess (u : UploadState) (hu : uploadAfter env srv frame = some u)
      (hmore : u.totalSize < u.received)
  | write (u : UploadState) (hu : uploadAfter env srv frame = some u)
      (hdone : u.received = u.totalSize) {fs' : FileSystem}
      (hwrite : env.fm.writeFileAtomic srv.fs u.relativePath u.buffer = .ok (false, fs'))
  | rename (u : UploadState) (hu : uploadAfter env srv frame = some u)
      (hdone : u.received = u.totalSize) {fs' fs'' : FileSystem}
      (hwrite : env.fm.writeFileAtomic srv.fs u.relativePath u.buffer = .ok (true, fs'))
      (hrename : env.fm.atomicRenameTmp fs' u.relativePath = .ok (false, fs''))
  | block (d : DeltaSyncBlockData) (hd : blockAfter env srv frame = some d) (status : StatusCode)
      (hstatus : (mergeOf env srv d).result = .ok status) (hne : status ≠ .ok)

/-- The last thing sent is an error. -/
def EndsInError (env : Env) (out : List Sent) : Prop :=
  ∃ e, out.getLast? = some (.frame (message env.proto.errorPayload .error e))

theorem endsInError_append (out : List Sent) (code : StatusCode) (text : String) :
    EndsInError env (out ++ [Server.sendError env code text]) :=
  ⟨⟨code, text, ""⟩, by simp [Server.sendError]⟩

theorem not_endsInError_nil (env : Env) : ¬ EndsInError env [] := by
  rintro ⟨e, he⟩
  exact absurd he (by simp)

/-- A message of another type is no error. -/
theorem not_endsInError_message {α : Type} (env : Env) (out : List Sent) (c : Codec α)
    {type : MessageType} (m : α) (h : type.code ≠ MessageType.error.code) :
    ¬ EndsInError env (out ++ [.frame (message c type m)]) := by
  rintro ⟨e, he⟩
  simp only [List.getLast?_concat, Option.some.injEq, Sent.frame.injEq] at he
  exact h (congrArg WireFrame.messageType he)

theorem not_endsInError_sendProgress (u : UploadState) (n : ℕ) :
    ¬ EndsInError env (Server.sendProgress env u n) := by
  unfold Server.sendProgress
  split
  · exact not_endsInError_nil env
  · exact not_endsInError_message env [] _ _ (by decide)

/-- What goes out before an upload's end and is no error stays none when nothing follows. -/
theorem endsInError_append_iff {out : List Sent} (h : ¬ EndsInError env out) (out' : List Sent) :
    EndsInError env (out ++ out') ↔ EndsInError env out' := by
  unfold EndsInError at h ⊢
  rw [List.getLast?_append]
  cases hlast : out'.getLast? with
  | none => simpa using h
  | some x => simp

/-- A frame that leads to an upload goes through the loop with it. Nothing that is sent before
is an error. -/
theorem step_of_uploadAfter {frame : WireFrame} {u : UploadState}
    (h : uploadAfter env srv frame = some u) :
    ∃ (srv' : Server) (out : List Sent), srv'.fs = srv.fs ∧ srv'.session.uploadState = u ∧
      Server.step env srv frame =
        ((Server.uploadLoop env srv').1, out ++ (Server.uploadLoop env srv').2) ∧
      ¬ EndsInError env out := by
  unfold uploadAfter at h
  split at h
  · next hup =>
    obtain rfl := Option.some.inj h
    rw [Server.step, if_pos hup, Server.uploadFrame, UploadState.next]
    split
    · exact ⟨{ srv with
        session := { srv.session with uploadState := { srv.session.uploadState with
          buffer := srv.session.uploadState.buffer ++ frame.payload
          received := srv.session.uploadState.received + UInt64.ofNat frame.payload.length } }
        ticks := srv.ticks + 1 }, _, rfl, rfl, rfl, not_endsInError_sendProgress _ _⟩
    · exact ⟨srv, [], rfl, rfl, rfl, not_endsInError_nil env⟩
  next hidle =>
  have hdispatch := dispatch_incoming env srv frame
  cases hin : incoming env.proto frame with
  | zeroCopyUploadRequest m =>
    rw [hin] at h hdispatch
    obtain rfl := Option.some.inj h
    rw [Server.step, if_neg hidle, hdispatch.2, Server.handleZeroCopyUploadRequest, hdispatch.1]
    exact ⟨{ srv with
      session := { srv.session with uploadState := m.upload, state := .transferring } },
      _, rfl, rfl, rfl, not_endsInError_message env [] _ _ (by decide)⟩
  | clientHello | negotiationRequest | zeroCopyDownloadRequest | deltaSyncSignatureRequest
  | deltaSyncBlockData | listFilesRequest | malformed =>
    rw [hin] at h
    exact absurd h (by simp)

/-- **The end of an upload is an error** exactly when it is complete and cannot be written. -/
theorem endsInError_uploadLoop_iff :
    EndsInError env (Server.uploadLoop env srv).2 ↔
      srv.session.uploadState.received = srv.session.uploadState.totalSize ∧
        ∃ fs', env.fm.writeFileAtomic srv.fs srv.session.uploadState.relativePath
          srv.session.uploadState.buffer = .ok (false, fs') := by
  have hnil := not_endsInError_nil env
  unfold Server.uploadLoop
  split
  · next hmore =>
    refine iff_of_false hnil fun hc => ?_
    rw [hc.1] at hmore
    exact absurd hmore (UInt64.lt_irrefl _)
  unfold Server.finishUpload
  simp only
  split
  swap
  · next hne => exact iff_of_false hnil fun hc => hne hc.1
  next hdone =>
  simp only [hdone, true_and]
  cases env.fm.writeFileAtomic srv.fs srv.session.uploadState.relativePath
    srv.session.uploadState.buffer with
  | error e => exact iff_of_false hnil (by simp)
  | ok r =>
    obtain ⟨written, fs'⟩ := r
    cases written with
    | false => exact iff_of_true (endsInError_append [] _ _) ⟨_, rfl⟩
    | true =>
      refine iff_of_false ?_ (by simp)
      -- whether the rename succeeded is not looked at
      dsimp only
      split <;> exact hnil

/-- The upload ends with the file in its place, or goes on: no byte is too many, and if the
scratch file can be written it can be moved. -/
def UploadState.Settles (env : Env) (fs : FileSystem) (u : UploadState) : Prop :=
  u.received ≤ u.totalSize ∧
    (u.received = u.totalSize → ∀ t fs', env.fm.resolvePath u.relativePath = .ok t →
      env.fm.writeFileAtomic fs u.relativePath u.buffer = .ok (true, fs') →
        fs'.rename (cTmp t) (cStr t) ≠ none)

/-- The block is merged: its hash is right, it can be written, and if it is final and its scratch
file opens, that can be moved. -/
def Merges (env : Env) (srv : Server) (d : DeltaSyncBlockData) : Prop :=
  env.sha256 d.data = d.strongHash ∧
    ∀ t, env.fm.resolvePath d.relativePath = .ok t →
      ∃ fs', env.fm.writeBlockAtomic srv.fs d.relativePath d.blockOffset d.data =
          .ok (true, fs') ∧
        (srv.isFinal d.data = true → fs'.openRead (cTmp t) ≠ none →
          fs'.rename (cTmp t) (cStr t) ≠ none)

/-- **The frame is heard**: it is not turned down without an error. -/
structure Heard (env : Env) (srv : Server) (frame : WireFrame) : Prop where
  taken : srv.uploading = true →
    srv.session.uploadState.received < srv.session.uploadState.totalSize →
      frame.messageType = MSG_RAW_DATA
  upload : ∀ u, uploadAfter env srv frame = some u → u.Settles env srv.fs
  block : ∀ d, blockAfter env srv frame = some d → Merges env srv d

/-- A rename that can be made and one that returns `true` are the same. -/
theorem atomicRenameTmp_eq_false_iff {fm : FileManager} {fs : FileSystem} {path : String} {t : Text}
    (hp : fm.resolvePath path = .ok t) (hstat : fs.stat (cTmp t) ≠ .failed) :
    (∃ fs', fm.atomicRenameTmp fs path = .ok (false, fs')) ↔
      fs.rename (cTmp t) (cStr t) = none := by
  rw [atomicRenameTmp_eq hp]
  cases hs : fs.stat (cTmp t) with
  | failed => exact absurd hs hstat
  | notFound => simp [FileSystem.rename, hs]
  | file b => cases fs.rename (cTmp t) (cStr t) <;> simp
  | dir => simp [FileSystem.rename, hs]

/-- A block that does not throw is merged exactly when the handler says so. -/
theorem mergeOf_eq_ok_iff {d : DeltaSyncBlockData} (h : Mergeable env srv d) :
    (mergeOf env srv d).result = .ok .ok ↔ Merges env srv d := by
  rw [mergeOf, DeltaSyncHandler.handleBlockData]
  by_cases hhash : env.sha256 d.data = d.strongHash
  swap
  · simp [hhash, Merges]
  obtain ⟨t, ht, hcommit⟩ := h hhash
  simp only [hhash, ne_eq, not_true_eq_false, if_false, Merges, true_and, ht, Except.ok.injEq,
    forall_eq']
  obtain ⟨⟨written, fs'⟩, hw⟩ := (@writeBlockAtomic_returns env.fm srv.fs d.relativePath
    d.blockOffset d.data).mpr ⟨t, ht⟩
  simp only [hw, Except.ok.injEq, Prod.mk.injEq]
  cases written with
  | false => simp
  | true =>
    cases hfinal : srv.isFinal d.data with
    | false => simp
    | true =>
      obtain ⟨hthrough, -⟩ := hcommit fs' hw hfinal
      simp only [if_true, true_and, exists_eq_left', true_imp_iff]
      rw [finalize_eq ht]
      cases ho : fs'.openRead (cTmp t) with
      | none => simp
      | some n =>
        -- what opens can be read, so the rename decides
        obtain ⟨b, hb⟩ := (readsThrough_of_openRead ho).mp (by simpa using hthrough)
        simp only [hb]
        cases fs'.rename (cTmp t) (cStr t) <;> simp

/-- A block that is turned down is answered with a completion. -/
theorem not_endsInError_of_block {frame : WireFrame} {d : DeltaSyncBlockData}
    (hd : blockAfter env srv frame = some d) {status : StatusCode}
    (hstatus : (mergeOf env srv d).result = .ok status) (hne : status ≠ .ok) :
    ¬ EndsInError env (Server.step env srv frame).2 := by
  unfold blockAfter at hd
  split at hd
  · exact absurd hd (by simp)
  next hidle =>
  have hdispatch := dispatch_incoming env srv frame
  cases hin : incoming env.proto frame with
  | deltaSyncBlockData m =>
    rw [hin] at hd hdispatch
    obtain rfl := Option.some.inj hd
    rw [mergeOf] at hstatus
    rw [Server.step, if_neg hidle, hdispatch.2, Server.handleDeltaSyncBlockData, hdispatch.1]
    simp only [hstatus, hne, ne_eq, not_false_eq_true, or_true, if_true, if_false]
    exact not_endsInError_message env [] _ _ (by decide)
  | clientHello | negotiationRequest | zeroCopyDownloadRequest | zeroCopyUploadRequest
  | deltaSyncSignatureRequest | listFilesRequest | malformed =>
    rw [hin] at hd
    exact absurd hd (by simp)

/-- A harmless frame that leads to an upload leads to one that can be saved. -/
theorem Harmless.upload {frame : WireFrame} (h : Harmless env srv frame) {u : UploadState}
    (hu : uploadAfter env srv frame = some u) : u.Harmless env srv.fs := by
  unfold uploadAfter at hu
  unfold Harmless at h
  split at hu
  · next hup =>
    obtain rfl := Option.some.inj hu
    rwa [if_pos hup] at h
  · next hidle =>
    rw [if_neg hidle] at h
    split at hu
    · next m hin =>
      obtain rfl := Option.some.inj hu
      rwa [hin] at h
    · exact absurd hu (by simp)

/-- A harmless frame with a block carries one that can be merged. -/
theorem Harmless.block {frame : WireFrame} (h : Harmless env srv frame) {d : DeltaSyncBlockData}
    (hd : blockAfter env srv frame = some d) : Mergeable env srv d := by
  unfold blockAfter at hd
  unfold Harmless at h
  split at hd
  · exact absurd hd (by simp)
  · next hidle =>
    rw [if_neg hidle] at h
    split at hd
    · next m hin =>
      obtain rfl := Option.some.inj hd
      rwa [hin] at h
    · exact absurd hd (by simp)

/-- **What is turned down and heard is answered with an error.** -/
theorem Refused.answered {frame : WireFrame} (hheard : Heard env srv frame)
    (hharmless : Harmless env srv frame) (h : Refused env srv frame) :
    EndsInError env (Server.step env srv frame).2 := by
  cases h with
  | malformed text hidle hin =>
    have hdispatch := dispatch_incoming env srv frame
    rw [hin] at hdispatch
    rw [Server.step_of_idle hidle, hdispatch]
    exact endsInError_append [] _ _
  | download m hidle hin hsend =>
    have hdispatch := dispatch_incoming env srv frame
    rw [hin] at hdispatch
    rw [Server.step_of_idle hidle, hdispatch.2, Server.handleZeroCopyDownloadRequest, hdispatch.1]
    cases hr : sendFile env srv.fs m.relativePath m.offset with
    | mk r out =>
      rw [hr] at hsend
      obtain rfl : r = .ok false := hsend
      simp only [hr]
      exact endsInError_append out _ _
  | dropped hup hmore hother => exact absurd (hheard.taken hup hmore) hother
  | excess u hu hmore => exact absurd (hheard.upload u hu).1 (UInt64.not_le.mpr hmore)
  | write u hu hdone hwrite =>
    obtain ⟨srv', out, hfs, rfl, hstep, hout⟩ := step_of_uploadAfter hu
    rw [hstep, endsInError_append_iff hout, endsInError_uploadLoop_iff, hfs]
    exact ⟨hdone, _, hwrite⟩
  | rename u hu hdone hwrite hrename =>
    obtain ⟨t, ht, hstat⟩ := hharmless.upload hu hdone
    refine absurd ?_ ((hheard.upload u hu).2 hdone t _ ht hwrite)
    exact (atomicRenameTmp_eq_false_iff ht (hstat _ hwrite)).mp ⟨_, hrename⟩
  | block d hd status hstatus hne =>
    rw [(mergeOf_eq_ok_iff (hharmless.block hd)).mpr (hheard.block d hd)] at hstatus
    exact absurd (Except.ok.inj hstatus).symm hne

/-- A harmless frame whose refusals are all answered with an error is heard. -/
theorem heard_of_answered {frame : WireFrame} (hharmless : Harmless env srv frame)
    (h : Refused env srv frame → EndsInError env (Server.step env srv frame).2) :
    Heard env srv frame where
  taken hup hmore := by
    by_contra hother
    -- the loop drops the frame and reads on
    have hsilent : (Server.step env srv frame).2 = [] := by
      rw [Server.step, if_pos hup, Server.uploadFrame, if_neg hother, Server.uploadLoop,
        if_pos hmore]
    exact not_endsInError_nil env (hsilent ▸ h (.dropped hup hmore hother))
  upload u hu := by
    obtain ⟨srv', out, hfs, hstate, hstep, hout⟩ := step_of_uploadAfter hu
    -- only a write that fails is answered
    have hanswered : Refused env srv frame → u.received = u.totalSize ∧
        ∃ fs', env.fm.writeFileAtomic srv.fs u.relativePath u.buffer = .ok (false, fs') := by
      intro hrefused
      have hends := h hrefused
      rw [hstep, endsInError_append_iff hout, endsInError_uploadLoop_iff, hfs, hstate] at hends
      exact hends
    constructor
    · by_contra hmore
      have hlt := UInt64.not_le.mp hmore
      rw [(hanswered (.excess u hu hlt)).1] at hlt
      exact absurd hlt (UInt64.lt_irrefl _)
    · intro hdone t fs' ht hwrite hnone
      obtain ⟨t', ht', hstat⟩ := hharmless.upload hu hdone
      obtain rfl := Except.ok.inj (ht.symm.trans ht')
      obtain ⟨fs'', hrename⟩ := (atomicRenameTmp_eq_false_iff ht (hstat fs' hwrite)).mpr hnone
      obtain ⟨-, fs₁, hfailed⟩ := hanswered (.rename u hu hdone hwrite hrename)
      rw [hwrite] at hfailed
      exact absurd hfailed (by simp)
  block d hd := by
    have hmergeable := hharmless.block hd
    by_contra hmerges
    have hstatus : ∃ status, (mergeOf env srv d).result = .ok status ∧ status ≠ .ok := by
      obtain ⟨status, hstatus⟩ := (mergeable_iff.mp hmergeable).1
      refine ⟨status, hstatus, ?_⟩
      rintro rfl
      exact hmerges ((mergeOf_eq_ok_iff hmergeable).mp hstatus)
    obtain ⟨status, hstatus, hne⟩ := hstatus
    exact not_endsInError_of_block hd hstatus hne (h (.block d hd status hstatus hne))

/-- No exception leaves the session over these frames, and each one it refuses it answers
with an error. -/
def Survives (env : Env) : Server → List WireFrame → Prop
  | _, [] => True
  | srv, frame :: frames =>
    (Server.step env srv frame).1.crash = none ∧
      (Refused env srv frame → EndsInError env (Server.step env srv frame).2) ∧
      Survives env (Server.step env srv frame).1 frames

/-- Every frame is harmless and heard when it arrives. -/
def HarmlessRun (env : Env) : Server → List WireFrame → Prop
  | _, [] => True
  | srv, frame :: frames =>
    (Harmless env srv frame ∧ Heard env srv frame) ∧
      HarmlessRun env (Server.step env srv frame).1 frames

theorem survives_iff_of_up (frames : List WireFrame) :
    ∀ {srv : Server}, srv.crash = none →
      (Survives env srv frames ↔ HarmlessRun env srv frames) := by
  induction frames with
  | nil =>
    intro srv _
    exact Iff.rfl
  | cons frame frames ih =>
    intro srv h
    constructor
    · -- a server that is up after the frame was sent a harmless one
      rintro ⟨hup, hanswered, hrest⟩
      have hharmless := (crash_step_iff h frame).mp hup
      exact ⟨⟨hharmless, heard_of_answered hharmless hanswered⟩, (ih hup).mp hrest⟩
    · rintro ⟨⟨hharmless, hheard⟩, hrest⟩
      have hup := (crash_step_iff h frame).mpr hharmless
      exact ⟨hup, Refused.answered hheard hharmless, (ih hup).mpr hrest⟩

end Survival

end AdaptiveSync
