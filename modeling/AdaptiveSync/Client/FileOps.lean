import AdaptiveSync.Lib.Except
import AdaptiveSync.Lib.Fs
import AdaptiveSync.Messages

/-!
# Local files of the client

`FileOps` (`client/src/file_ops.rs`): what the client does with files under its sync root.
Paths are joined without any check. A fallible function returns in `Except ClientError`,
with the message of the source.

`read_block` makes a single `read` call, which may hand over less than it was asked for;
how much is the operating system's to decide (`Os.delivers`).

`Found` is the situation in which a path names a file that can be opened and read, and
`Readable` the one in which each `read` of it hands over all that was asked for; the lemmas
below them give the results of the queries there.
-/

namespace AdaptiveSync

open LexPath Fs

/-- `FileOps`. -/
structure FileOps where
  syncRoot : String
  blockSize : UInt32

/-- `LocalFileInfo`. -/
structure LocalFileInfo where
  relativePath : String
  fileSize : UInt64
  lastModifiedNs : UInt64
  sha256Hash : String
  deriving DecidableEq

/-- The message of a call that failed at a path. -/
def ioError (fs : FileSystem) (what : String) (call : Call) (t : Text) : ClientError :=
  .fileIo (what ++ ": " ++ fs.os.errorText call (fs.locate t))

namespace FileOps

variable (sha256 : Bytes → String) (ops : FileOps) (fs : FileSystem)

/-- `resolve_path`. -/
def resolvePath (relativePath : String) : Text := append ops.syncRoot.toList relativePath.toList

/-- `file_size`. -/
def fileSize (relativePath : String) : Except ClientError UInt64 :=
  let path := ops.resolvePath relativePath
  match fs.stat path with
  | .file b => .ok (UInt64.ofNat b.length)
  | .dir => .ok (fs.os.dirSize (fs.locate path))
  | _ => .error (ioError fs ("Cannot stat " ++ String.ofList path) .stat path)

/-- `last_modified_ns`. -/
def lastModifiedNs (relativePath : String) : Except ClientError UInt64 :=
  let path := ops.resolvePath relativePath
  match fs.stat path with
  | .file _ => .ok (fs.os.mtime (fs.locate path))
  | .dir => .ok (fs.os.mtime (fs.locate path))
  | _ => .error (ioError fs ("Cannot stat " ++ String.ofList path) .stat path)

/-- Open a file and read it to its end. -/
def readAll (opening reading : String) (path : Text) : Except ClientError Bytes :=
  match fs.openRead path with
  | none => .error (ioError fs opening .openRead path)
  | some .dir => .error (ioError fs reading .read path)
  | some (.file b) =>
    if fs.os.fails .read (fs.locate path) then .error (ioError fs reading .read path) else .ok b

/-- `sha256`, through `hashing::sha256_file`. -/
def sha256File (relativePath : String) : Except ClientError String := do
  let path := ops.resolvePath relativePath
  return sha256 (← readAll fs ("Failed to open " ++ String.ofList path) "Read error" path)

/-- `get_file_info`. -/
def getFileInfo (relativePath : String) : Except ClientError LocalFileInfo := do
  let fileSize ← ops.fileSize fs relativePath
  let lastModifiedNs ← ops.lastModifiedNs fs relativePath
  let sha256Hash ← ops.sha256File sha256 fs relativePath
  return ⟨relativePath, fileSize, lastModifiedNs, sha256Hash⟩

/-- `read_block`. -/
def readBlock (relativePath : String) (offset : UInt64) (size : UInt32) :
    Except ClientError Bytes :=
  let path := ops.resolvePath relativePath
  match fs.openRead path with
  | none => .error (ioError fs ("Cannot open " ++ String.ofList path) .openRead path)
  | some node =>
    -- the seek fails before the read does
    if maxOffset ≤ offset.toNat then .error (ioError fs "Seek error" .read path)
    else
      match node with
      | .dir => .error (ioError fs "Read error" .read path)
      | .file b =>
        if fs.os.fails .read (fs.locate path) then .error (ioError fs "Read error" .read path)
        -- one `read`, which may hand over less than was asked for
        else .ok ((b.drop offset.toNat).take
          (min size.toNat (fs.os.delivers (fs.locate path) offset.toNat size.toNat)))

/-- The scratch file of a path: the extension is replaced, so files that differ in it alone
share a scratch file. -/
def tmpPath (p : String) : Text := withExtension (ops.resolvePath p) "tmp".toList

/-- The disk with the parent directories made, and whether they could be. -/
def makeParents (p : String) : FileSystem × Bool :=
  match lastComponent (ops.resolvePath p) with
  -- a path without a file name has no parent to create
  | none => (fs, true)
  | some (before, _) => fs.mkdirs (walk true (fs.base (ops.resolvePath p)) before)

/-- `write_file`: how it ended, and the disk after it. -/
def writeFile (relativePath : String) (data : Bytes) : Except ClientError Unit × FileSystem :=
  let path := ops.resolvePath relativePath
  let tmpPath := ops.tmpPath relativePath
  let made := ops.makeParents fs relativePath
  if made.2 = false then (.error (ioError fs "Cannot create dirs" .mkdir path), made.1)
  else
    match made.1.openTruncate tmpPath with
    | none => (.error (ioError fs "Write error" .openWrite tmpPath), made.1)
    | some opened =>
      match opened.pwrite tmpPath 0 data with
      | none => (.error (ioError fs "Write error" .write tmpPath), opened.torn tmpPath 0 data)
      | some written =>
        match written.rename tmpPath path with
        | none => (.error (ioError fs "Rename error" .rename path), written)
        | some renamed => (.ok (), renamed)

/-- `write_block`: how it ended, and the disk after it. -/
def writeBlock (relativePath : String) (offset : UInt64) (data : Bytes) :
    Except ClientError Unit × FileSystem :=
  let path := ops.resolvePath relativePath
  let tmpPath := ops.tmpPath relativePath
  let made := ops.makeParents fs relativePath
  if made.2 = false then (.error (ioError fs "Cannot create dirs" .mkdir path), made.1)
  else
    match made.1.openCreate tmpPath with
    | none => (.error (ioError fs "Cannot open tmp" .openWrite tmpPath), made.1)
    | some opened =>
      if maxOffset ≤ offset.toNat then (.error (ioError fs "Seek error" .write tmpPath), opened)
      else
        match opened.pwrite tmpPath offset.toNat data with
        | none => (.error (ioError fs "Write error" .write tmpPath),
            opened.torn tmpPath offset.toNat data)
        | some written => (.ok (), written)

/-- `finalize_file`: how it ended, and the disk after it. -/
def finalizeFile (relativePath : String) : Except ClientError Unit × FileSystem :=
  let path := ops.resolvePath relativePath
  let tmpPath := ops.tmpPath relativePath
  let found : Bool :=
    match fs.stat tmpPath with
    | .file _ => true
    | .dir => true
    | _ => false
  -- without a scratch file there is nothing to do
  if found then
    match fs.rename tmpPath path with
    | none => (.error (ioError fs "Rename error" .rename path), fs)
    | some renamed => (.ok (), renamed)
  else (.ok (), fs)

/-! ### A file that can be read -/

/-- `relativePath` names the file `c`, and no call on it is refused. -/
structure Found (ops : FileOps) (fs : FileSystem) (relativePath : String) (c : Bytes) : Prop where
  quiet : fs.Quiet
  stat : fs.stat (ops.resolvePath relativePath) = .file c
  length_lt : c.length < maxOffset

/-- `relativePath` names the file `c`, and each `read` of it is served in full. -/
structure Readable (ops : FileOps) (fs : FileSystem) (relativePath : String) (c : Bytes) : Prop
    extends ops.Found fs relativePath c where
  full : fs.FullReads

variable {ops fs} {p : String} {c : Bytes}

namespace Found

theorem fileSize (h : ops.Found fs p c) : ops.fileSize fs p = .ok (UInt64.ofNat c.length) := by
  simp [FileOps.fileSize, h.stat]

theorem openRead (h : ops.Found fs p c) : fs.openRead (ops.resolvePath p) = some (.file c) := by
  simp [FileSystem.openRead, h.quiet .openRead _, h.stat]

theorem readAll (h : ops.Found fs p c) (opening reading : String) :
    FileOps.readAll fs opening reading (ops.resolvePath p) = .ok c := by
  simp [FileOps.readAll, h.openRead, h.quiet .read _]

theorem getFileInfo (h : ops.Found fs p c) (sha256 : Bytes → String) :
    ops.getFileInfo sha256 fs p =
      .ok ⟨p, UInt64.ofNat c.length, fs.os.mtime (fs.locate (ops.resolvePath p)), sha256 c⟩ := by
  simp only [FileOps.getFileInfo, h.fileSize, lastModifiedNs, h.stat, sha256File, h.readAll,
    Except.ok_bind]
  rfl

theorem readBlock (h : ops.Found fs p c) {offset : UInt64} (size : UInt32)
    (hoff : offset.toNat < maxOffset) :
    ops.readBlock fs p offset size = .ok ((c.drop offset.toNat).take (min size.toNat
      (fs.os.delivers (fs.locate (ops.resolvePath p)) offset.toNat size.toNat))) := by
  simp [FileOps.readBlock, h.openRead, h.quiet .read _, Nat.not_le.mpr hoff]

end Found

/-- What was read to its end is the file at the path. -/
theorem stat_of_readAll {opening reading : String} {path : Text} {b : Bytes}
    (h : readAll fs opening reading path = .ok b) : fs.stat path = .file b := by
  unfold readAll at h
  split at h
  · exact absurd h (by simp)
  · exact absurd h (by simp)
  next b' hopen =>
  split at h
  · exact absurd h (by simp)
  obtain rfl := Except.ok.inj h
  unfold FileSystem.openRead at hopen
  split at hopen
  · exact absurd hopen (by simp)
  split at hopen
  · next hstat => rw [hstat, Node.file.inj (Option.some.inj hopen)]
  · exact absurd hopen (by simp)
  · exact absurd hopen (by simp)

/-! ### A file that was written -/

theorem makeParents_agree : fs.FilesAgree ∅ (ops.makeParents fs p).1 := by
  unfold makeParents
  split
  · exact .refl ∅ fs
  · exact FileSystem.filesAgree_mkdirs _

theorem makeParents_locate : (ops.makeParents fs p).1.locate = fs.locate :=
  FileSystem.locate_congr makeParents_agree.os

/-- A `write_file` that succeeded has opened its scratch file, written and renamed it. -/
theorem writeFile_eq_ok {data : Bytes} {fs' : FileSystem}
    (h : ops.writeFile fs p data = (.ok (), fs')) :
    ∃ made opened written : FileSystem, made.os = fs.os ∧
      made.openTruncate (ops.tmpPath p) = some opened ∧
      opened.pwrite (ops.tmpPath p) 0 data = some written ∧
      written.rename (ops.tmpPath p) (ops.resolvePath p) = some fs' := by
  unfold writeFile at h
  extract_lets path tmpPath made at h
  have hos : made.1.os = fs.os := makeParents_agree.os
  split at h
  · exact absurd (Prod.mk.inj h).1 (by simp)
  split at h
  · exact absurd (Prod.mk.inj h).1 (by simp)
  next opened hopened =>
  split at h
  · exact absurd (Prod.mk.inj h).1 (by simp)
  next written hwritten =>
  split at h
  · exact absurd (Prod.mk.inj h).1 (by simp)
  next renamed hrenamed =>
  rw [← (Prod.mk.inj h).2]
  exact ⟨made.1, opened, written, hos, hopened, hwritten, hrenamed⟩

/-- **What `write_file` leaves behind** when it succeeds: the data, at the path. -/
theorem stat_of_writeFile {data : Bytes} {fs' : FileSystem} (hquiet : fs.Quiet)
    (h : ops.writeFile fs p data = (.ok (), fs')) :
    fs'.Quiet ∧ fs'.stat (ops.resolvePath p) = .file data := by
  obtain ⟨made, opened, written, hos, hopened, hwritten, hrenamed⟩ := writeFile_eq_ok h
  obtain ⟨hnode, hos'⟩ := FileSystem.node_of_truncate_pwrite hopened hwritten
  have hquiet' : written.Quiet := fun c l => by
    rw [hos', hos]
    exact hquiet c l
  obtain ⟨b, hb, hstat, hos''⟩ := FileSystem.stat_of_rename hquiet' hrenamed
  -- the scratch file was cut and written, so it is the data that is moved
  obtain rfl : b = data := by
    have hnode' := FileSystem.node_of_stat hb
    rw [FileSystem.locate_congr hos', hnode] at hnode'
    exact (Node.file.inj (Option.some.inj hnode')).symm
  refine ⟨fun c l => ?_, hstat⟩
  rw [hos'']
  exact hquiet' c l

end FileOps

end AdaptiveSync
