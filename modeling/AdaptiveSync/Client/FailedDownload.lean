import AdaptiveSync.Client.TcpClient
import AdaptiveSync.Protobuf

/-!
# What a failed download leaves of the local file

`download_file` writes what it received to a scratch file, renames that over the local file,
and computes the hash afterwards: a `HashMismatch` is returned when the old content is gone.
(`apply_blocks` hashes its scratch file before it renames it.) The scratch file has the name
of the local file with its extension replaced, so it is the local file itself when that
ends in `.tmp`, and then a failure inside `write_file` is enough: `std::fs::write` has emptied
the file, and may have written some of the data when it fails.

The server is anything: a sequence of frames, after which it is gone (`Proc.hears`).
`failed_download_spares_iff` says on which frames and disks a download that fails leaves
the local file as it was.
-/

namespace AdaptiveSync

open LexPath Fs Duplex

/-! ### How `write_file` ends -/

namespace FileOps

variable (ops : FileOps) (fs : FileSystem) (p : String) (data : Bytes)

/-- `write_file` comes as far as its scratch file, which it empties. -/
def OpensTmp : Prop :=
  (ops.makeParents fs p).2 = true ∧ (ops.makeParents fs p).1.canOpenWrite (ops.tmpPath p) = true

/-- The data cannot be written. -/
def WriteRefused : Prop :=
  data ≠ [] ∧ (fs.os.fails .write (fs.locate (ops.tmpPath p)) = true ∨ maxOffset ≤ data.length)

/-- How many bytes of the data are in the scratch file when its writing ends or fails. -/
def taken : ℕ :=
  if maxOffset ≤ data.length then 0
  else if fs.os.fails .write (fs.locate (ops.tmpPath p)) then
    min (fs.os.takes (fs.locate (ops.tmpPath p)) 0 data.length) (data.length - 1)
  else data.length

/-- The scratch file cannot be renamed. -/
def RenameRefused : Prop :=
  fs.os.fails .stat (fs.locate (ops.tmpPath p)) = true ∨
    ¬ (ops.resolvePath p ≠ [] ∧ endsInDirectory (ops.resolvePath p) = false ∧
      (ops.makeParents fs p).1.node (fs.parent (ops.resolvePath p)) = some .dir ∧
      (ops.makeParents fs p).1.node (fs.locate (ops.resolvePath p)) ≠ some .dir ∧
      fs.os.fails .rename (fs.locate (ops.resolvePath p)) = false)

/-- The disk with these bytes in the scratch file. -/
def withTmp (bytes : Bytes) : FileSystem :=
  (ops.makeParents fs p).1.set (fs.locate (ops.tmpPath p)) (.file bytes)

/-- The disk with the scratch file renamed. -/
def renamed : FileSystem :=
  ((ops.withTmp fs p data).remove (fs.locate (ops.tmpPath p))).set
    (fs.locate (ops.resolvePath p)) (.file data)

variable {ops fs p data}

theorem writeFile_eq : ops.writeFile fs p data =
    if (ops.makeParents fs p).2 = false then
      (.error (ioError fs "Cannot create dirs" .mkdir (ops.resolvePath p)),
        (ops.makeParents fs p).1)
    else
      match (ops.makeParents fs p).1.openTruncate (ops.tmpPath p) with
      | none => (.error (ioError fs "Write error" .openWrite (ops.tmpPath p)),
          (ops.makeParents fs p).1)
      | some opened =>
        match opened.pwrite (ops.tmpPath p) 0 data with
        | none => (.error (ioError fs "Write error" .write (ops.tmpPath p)),
            opened.torn (ops.tmpPath p) 0 data)
        | some written =>
          match written.rename (ops.tmpPath p) (ops.resolvePath p) with
          | none => (.error (ioError fs "Rename error" .rename (ops.resolvePath p)), written)
          | some renamed => (.ok (), renamed) := by
  unfold writeFile
  rfl

theorem writeFile_of_not_opensTmp (data : Bytes) (h : ¬ ops.OpensTmp fs p) :
    ∃ e, ops.writeFile fs p data = (.error e, (ops.makeParents fs p).1) := by
  rw [writeFile_eq]
  split
  · exact ⟨_, rfl⟩
  · next hmade =>
    have hopen : (ops.makeParents fs p).1.canOpenWrite (ops.tmpPath p) ≠ true :=
      fun hc => h ⟨by simpa using hmade, hc⟩
    rw [FileSystem.openTruncate, if_neg hopen]
    exact ⟨_, rfl⟩

theorem OpensTmp.openTruncate (h : ops.OpensTmp fs p) :
    (ops.makeParents fs p).1.openTruncate (ops.tmpPath p) = some (ops.withTmp fs p []) := by
  rw [FileSystem.openTruncate, if_pos h.2, makeParents_locate]
  rfl

theorem OpensTmp.node_ne (h : ops.OpensTmp fs p) :
    (ops.makeParents fs p).1.node (fs.locate (ops.tmpPath p)) ≠ some .dir := by
  have hopen := h.2
  simp only [FileSystem.canOpenWrite, decide_eq_true_eq] at hopen
  rw [← makeParents_locate]
  exact hopen.2.2.2.1

theorem withTmp_os (bytes : Bytes) : (ops.withTmp fs p bytes).os = fs.os := makeParents_agree.os

theorem withTmp_locate (bytes : Bytes) : (ops.withTmp fs p bytes).locate = fs.locate :=
  FileSystem.locate_congr (withTmp_os bytes)

theorem OpensTmp.node_tmp (h : ops.OpensTmp fs p) (bytes : Bytes) :
    (ops.withTmp fs p bytes).node (fs.locate (ops.tmpPath p)) = some (.file bytes) :=
  FileSystem.node_set_self h.node_ne

theorem pwrite_of_refused (hw : ops.WriteRefused fs p data) :
    (ops.withTmp fs p []).pwrite (ops.tmpPath p) 0 data = none := by
  rw [FileSystem.pwrite, withTmp_locate, withTmp_os, Nat.zero_add]
  exact if_pos hw

theorem taken_of_not_refused (hw : ¬ ops.WriteRefused fs p data) :
    ops.taken fs p data = data.length := by
  obtain rfl | hne := eq_or_ne data []
  · simp [taken]
  · obtain ⟨hfails, hlen⟩ := not_or.mp (not_and.mp hw hne)
    rw [taken, if_neg hlen, if_neg hfails]

theorem taken_le : ops.taken fs p data ≤ data.length := by
  unfold taken
  split
  · exact Nat.zero_le _
  split
  · exact (min_le_right _ _).trans (Nat.sub_le _ _)
  · exact le_rfl

/-- What a failed write leaves in the scratch file. -/
theorem OpensTmp.torn_of_refused (h : ops.OpensTmp fs p) (hw : ops.WriteRefused fs p data) :
    (ops.withTmp fs p []).torn (ops.tmpPath p) 0 data =
      ops.withTmp fs p (data.take (ops.taken fs p data)) := by
  rw [FileSystem.torn, withTmp_locate, withTmp_os, Nat.zero_add,
    FileSystem.bytesAt_of_file (h.node_tmp []), Blocks.writeAt_zero_nil, taken]
  split
  · rw [List.take_zero]
  · next hlen =>
    rw [if_pos (hw.2.resolve_right hlen), withTmp, FileSystem.set_set, List.dropLast_eq_take,
      List.take_take]
    rfl

theorem OpensTmp.pwrite (h : ops.OpensTmp fs p) (hw : ¬ ops.WriteRefused fs p data) :
    (ops.withTmp fs p []).pwrite (ops.tmpPath p) 0 data = some (ops.withTmp fs p data) := by
  rw [FileSystem.pwrite, withTmp_locate, withTmp_os, Nat.zero_add,
    FileSystem.bytesAt_of_file (h.node_tmp []), Blocks.writeAt_zero_nil, withTmp,
    FileSystem.set_set]
  exact if_neg hw

/-- A file in the place of the scratch file is no directory, so the rename sees the
directories that were there. -/
theorem OpensTmp.node_dir_iff (h : ops.OpensTmp fs p) (l : Loc) :
    (ops.withTmp fs p data).node l = some .dir ↔
      (ops.makeParents fs p).1.node l = some .dir := by
  by_cases hl : l = fs.locate (ops.tmpPath p)
  · subst hl
    exact iff_of_false (by rw [h.node_tmp]; simp) h.node_ne
  · rw [withTmp, FileSystem.node_set_of_ne hl]

theorem OpensTmp.stat (h : ops.OpensTmp fs p) :
    (ops.withTmp fs p data).stat (ops.tmpPath p) =
      if fs.os.fails .stat (fs.locate (ops.tmpPath p)) then .failed else .file data := by
  have hopen := h.2
  simp only [FileSystem.canOpenWrite, decide_eq_true_eq] at hopen
  rw [FileSystem.stat, if_neg hopen.1, withTmp_locate, withTmp_os, h.node_tmp, hopen.2.1]
  rfl

/-- The place the file is renamed to can take one, before and after the write. -/
theorem OpensTmp.free_iff (h : ops.OpensTmp fs p) :
    (ops.resolvePath p ≠ [] ∧ endsInDirectory (ops.resolvePath p) = false ∧
      (ops.withTmp fs p data).node ((ops.withTmp fs p data).parent (ops.resolvePath p)) =
        some .dir ∧
      (ops.withTmp fs p data).node ((ops.withTmp fs p data).locate (ops.resolvePath p)) ≠
        some .dir ∧
      (ops.withTmp fs p data).os.fails .rename
        ((ops.withTmp fs p data).locate (ops.resolvePath p)) = false) ↔
    ops.resolvePath p ≠ [] ∧ endsInDirectory (ops.resolvePath p) = false ∧
      (ops.makeParents fs p).1.node (fs.parent (ops.resolvePath p)) = some .dir ∧
      (ops.makeParents fs p).1.node (fs.locate (ops.resolvePath p)) ≠ some .dir ∧
      fs.os.fails .rename (fs.locate (ops.resolvePath p)) = false := by
  rw [withTmp_locate, withTmp_os, FileSystem.parent_congr (withTmp_os data), ne_eq, ne_eq,
    h.node_dir_iff, h.node_dir_iff]

theorem OpensTmp.rename_of_refused (h : ops.OpensTmp fs p) (hr : ops.RenameRefused fs p) :
    (ops.withTmp fs p data).rename (ops.tmpPath p) (ops.resolvePath p) = none := by
  rw [FileSystem.rename, h.stat]
  by_cases hstat : fs.os.fails .stat (fs.locate (ops.tmpPath p)) = true
  · rw [if_pos hstat]
  · rw [if_neg hstat]
    exact if_neg (mt h.free_iff.mp (hr.resolve_left hstat))

theorem OpensTmp.rename (h : ops.OpensTmp fs p) (hr : ¬ ops.RenameRefused fs p) :
    (ops.withTmp fs p data).rename (ops.tmpPath p) (ops.resolvePath p) =
      some (ops.renamed fs p data) := by
  obtain ⟨hstat, hfree⟩ := not_or.mp hr
  rw [FileSystem.rename, h.stat, if_neg hstat]
  dsimp only
  rw [if_pos (h.free_iff.mpr (not_not.mp hfree)), withTmp_locate]
  rfl

/-- The ways `write_file` can end. -/
inductive WriteEnds (ops : FileOps) (fs : FileSystem) (p : String) (data : Bytes) :
    Except ClientError Unit × FileSystem → Prop
  | unopened (h : ¬ ops.OpensTmp fs p) (e : ClientError) :
      WriteEnds ops fs p data (.error e, (ops.makeParents fs p).1)
  | unwritten (h : ops.OpensTmp fs p) (hw : ops.WriteRefused fs p data) (e : ClientError) :
      WriteEnds ops fs p data (.error e, ops.withTmp fs p (data.take (ops.taken fs p data)))
  | unrenamed (h : ops.OpensTmp fs p) (hw : ¬ ops.WriteRefused fs p data)
      (hr : ops.RenameRefused fs p) (e : ClientError) :
      WriteEnds ops fs p data (.error e, ops.withTmp fs p data)
  | renamed (h : ops.OpensTmp fs p) (hw : ¬ ops.WriteRefused fs p data)
      (hr : ¬ ops.RenameRefused fs p) : WriteEnds ops fs p data (.ok (), ops.renamed fs p data)

theorem writeEnds_writeFile : WriteEnds ops fs p data (ops.writeFile fs p data) := by
  -- the exits in the order `write_file` comes to them
  by_cases h : ops.OpensTmp fs p
  swap
  · obtain ⟨e, he⟩ := writeFile_of_not_opensTmp data h
    rw [he]
    exact .unopened h e
  rw [writeFile_eq, if_neg (by simp [h.1]), h.openTruncate]
  dsimp only
  by_cases hw : ops.WriteRefused fs p data
  · rw [pwrite_of_refused hw, h.torn_of_refused hw]
    exact .unwritten h hw _
  rw [h.pwrite hw]
  dsimp only
  by_cases hr : ops.RenameRefused fs p
  · rw [h.rename_of_refused hr]
    exact .unrenamed h hw hr _
  · rw [h.rename hr]
    exact .renamed h hw hr

/-! ### What is then at the path -/

theorem fileAt_makeParents (l : Loc) : (ops.makeParents fs p).1.fileAt l = fs.fileAt l :=
  makeParents_agree.fileAt (Set.notMem_empty l)

theorem fileAt_of_ne {l : Loc} (hl : fs.locate (ops.tmpPath p) ≠ l) (bytes : Bytes) :
    (ops.withTmp fs p bytes).fileAt l = fs.fileAt l := by
  have hset : (ops.makeParents fs p).1.FilesAgree {fs.locate (ops.tmpPath p)}
      (ops.withTmp fs p bytes) := .set _ (Set.mem_singleton _)
  rw [hset.fileAt hl.symm, fileAt_makeParents]

theorem OpensTmp.fileAt_tmp (h : ops.OpensTmp fs p) (bytes : Bytes) :
    (ops.withTmp fs p bytes).fileAt (fs.locate (ops.tmpPath p)) = some bytes :=
  FileSystem.fileAt_eq_some_iff.mpr (h.node_tmp bytes)

/-- A file that was left with these bytes in its scratch file is as it was exactly when the
two are apart or it held them before. -/
theorem OpensTmp.fileAt_withTmp_eq_iff (h : ops.OpensTmp fs p) (bytes : Bytes) (l : Loc) :
    (ops.withTmp fs p bytes).fileAt l = fs.fileAt l ↔
      fs.locate (ops.tmpPath p) ≠ l ∨ fs.fileAt l = some bytes := by
  by_cases hl : fs.locate (ops.tmpPath p) = l
  · subst hl
    rw [h.fileAt_tmp, eq_comm]
    simp
  · exact iff_of_true (fileAt_of_ne hl bytes) (.inl hl)

theorem renamed_os : (ops.renamed fs p data).os = fs.os := by
  rw [renamed, FileSystem.set_os, FileSystem.remove_os, withTmp_os]

theorem renamed_locate : (ops.renamed fs p data).locate = fs.locate :=
  FileSystem.locate_congr renamed_os

theorem OpensTmp.node_renamed (h : ops.OpensTmp fs p) (hr : ¬ ops.RenameRefused fs p) :
    (ops.renamed fs p data).node (fs.locate (ops.resolvePath p)) = some (.file data) := by
  obtain ⟨-, -, -, hfree, -⟩ := not_not.mp (not_or.mp hr).2
  refine FileSystem.node_set_self ?_
  -- the scratch file can be the file itself, and is then gone before it is put back
  by_cases hl : fs.locate (ops.resolvePath p) = fs.locate (ops.tmpPath p)
  · rw [hl, FileSystem.node_remove_self (by rw [h.node_tmp]; simp)]
    simp
  · rw [FileSystem.node_remove_of_ne hl]
    exact mt (h.node_dir_iff _).mp hfree

/-- The file at the path can be read. -/
def Hashable (ops : FileOps) (fs : FileSystem) (p : String) : Prop :=
  fs.os.fails .openRead (fs.locate (ops.resolvePath p)) = false ∧
    fs.os.fails .stat (fs.locate (ops.resolvePath p)) = false ∧
    fs.os.fails .read (fs.locate (ops.resolvePath p)) = false

theorem OpensTmp.stat_renamed (h : ops.OpensTmp fs p) (hr : ¬ ops.RenameRefused fs p) :
    (ops.renamed fs p data).stat (ops.resolvePath p) =
      if fs.os.fails .stat (fs.locate (ops.resolvePath p)) then .failed else .file data := by
  obtain ⟨hne, hleaf, -⟩ := not_not.mp (not_or.mp hr).2
  rw [FileSystem.stat, if_neg hne, renamed_locate, renamed_os, h.node_renamed hr, hleaf]
  rfl

theorem OpensTmp.sha256File_renamed (h : ops.OpensTmp fs p) (hr : ¬ ops.RenameRefused fs p)
    (sha256 : Bytes → String) (hread : ops.Hashable fs p) :
    ops.sha256File sha256 (ops.renamed fs p data) p = .ok (sha256 data) := by
  obtain ⟨hopen, hstat, hread⟩ := hread
  simp [sha256File, FileOps.readAll, FileSystem.openRead, renamed_locate, renamed_os, hopen,
    h.stat_renamed hr, hstat, hread]

theorem OpensTmp.sha256File_renamed_error (h : ops.OpensTmp fs p) (hr : ¬ ops.RenameRefused fs p)
    (sha256 : Bytes → String) (hread : ¬ ops.Hashable fs p) :
    ∃ e, ops.sha256File sha256 (ops.renamed fs p data) p = .error e := by
  simp only [sha256File, FileOps.readAll, FileSystem.openRead, renamed_locate, renamed_os,
    h.stat_renamed hr]
  by_cases hopen : fs.os.fails .openRead (fs.locate (ops.resolvePath p)) = true
  · simp [hopen]
  by_cases hstat : fs.os.fails .stat (fs.locate (ops.resolvePath p)) = true
  · simp [hopen, hstat]
  -- the file is there after the rename, so what is left to fail is the read
  have hfails : fs.os.fails .read (fs.locate (ops.resolvePath p)) = true := by
    by_contra hc
    exact hread ⟨by simpa using hopen, by simpa using hstat, by simpa using hc⟩
  simp [hopen, hstat, hfails]

end FileOps

/-! ### What a download leaves -/

/-- A failure has left the local file as it was. -/
def LeavesAlone (ops : FileOps) (fs : FileSystem) (p : String)
    (r : Except ClientError String × FileSystem) : Prop :=
  ∀ e, r.1 = .error e →
    r.2.fileAt (fs.locate (ops.resolvePath p)) = fs.fileAt (fs.locate (ops.resolvePath p))

/-- The hash of the data can be computed and is not in conflict with the header. -/
def Verified (ops : FileOps) (sha256 : Bytes → String) (fs : FileSystem) (p : String)
    (header : ZeroCopyDownloadHeader) (data : Bytes) : Prop :=
  ops.Hashable fs p ∧ (header.sha256Hash = "" ∨ sha256 data = header.sha256Hash)

/-- The local file survives the end of a download of `data`, whatever it is: the scratch
file is apart from it where writing or renaming fails, or it happens to hold what is left. -/
structure Spares (ops : FileOps) (sha256 : Bytes → String) (fs : FileSystem) (p : String)
    (header : ZeroCopyDownloadHeader) (data : Bytes) : Prop where
  unwritten : ops.OpensTmp fs p → ops.WriteRefused fs p data →
    fs.locate (ops.tmpPath p) ≠ fs.locate (ops.resolvePath p) ∨
      fs.fileAt (fs.locate (ops.resolvePath p)) = some (data.take (ops.taken fs p data))
  unrenamed : ops.OpensTmp fs p → ¬ ops.WriteRefused fs p data → ops.RenameRefused fs p →
    fs.locate (ops.tmpPath p) ≠ fs.locate (ops.resolvePath p) ∨
      fs.fileAt (fs.locate (ops.resolvePath p)) = some data
  unverified : ops.OpensTmp fs p → ¬ ops.WriteRefused fs p data → ¬ ops.RenameRefused fs p →
    ¬ Verified ops sha256 fs p header data →
      fs.fileAt (fs.locate (ops.resolvePath p)) = some data

section Keep

variable {cl : TcpClient} {sha256 : Bytes → String} {fs : FileSystem} {p : String}
  {header : ZeroCopyDownloadHeader} {data : Bytes}

theorem leavesAlone_error (e : ClientError) {fs' : FileSystem} :
    LeavesAlone cl.fileOps fs p (.error e, fs') ↔
      fs'.fileAt (fs.locate (cl.fileOps.resolvePath p)) =
        fs.fileAt (fs.locate (cl.fileOps.resolvePath p)) :=
  ⟨fun h => h e rfl, fun h _ _ => h⟩

theorem keep_of_error {e : ClientError} {fs' : FileSystem}
    (h : cl.fileOps.writeFile fs p data = (.error e, fs')) :
    cl.keep sha256 fs p (.ok (header, data)) = (.error e, fs') := by
  simp only [TcpClient.keep, h]

/-- Behind the rename, success and verification are the same. -/
theorem keep_of_renamed {fs' : FileSystem} (h : cl.fileOps.writeFile fs p data = (.ok (), fs'))
    (hread : cl.fileOps.Hashable fs p →
      cl.fileOps.sha256File sha256 fs' p = .ok (sha256 data))
    (hfails : ¬ cl.fileOps.Hashable fs p → ∃ e, cl.fileOps.sha256File sha256 fs' p = .error e) :
    (Verified cl.fileOps sha256 fs p header data ∧
      cl.keep sha256 fs p (.ok (header, data)) = (.ok (sha256 data), fs')) ∨
    ¬ Verified cl.fileOps sha256 fs p header data ∧
      ∃ e, cl.keep sha256 fs p (.ok (header, data)) = (.error e, fs') := by
  by_cases hhash : cl.fileOps.Hashable fs p
  · -- an empty hash in the header is not compared
    by_cases hmatch : header.sha256Hash ≠ "" ∧ sha256 data ≠ header.sha256Hash
    · refine .inr ⟨fun hv => ?_, ?_⟩
      · obtain hempty | heq := hv.2
        · exact hmatch.1 hempty
        · exact hmatch.2 heq
      · simp only [TcpClient.keep, h, hread hhash, if_pos hmatch]
        exact ⟨_, rfl⟩
    · refine .inl ⟨⟨hhash, ?_⟩, ?_⟩
      · by_cases hempty : header.sha256Hash = ""
        · exact .inl hempty
        · exact .inr (not_not.mp fun hne => hmatch ⟨hempty, hne⟩)
      · simp only [TcpClient.keep, h, hread hhash, if_neg hmatch]
  · obtain ⟨e, he⟩ := hfails hhash
    refine .inr ⟨fun hv => hhash hv.1, e, ?_⟩
    simp only [TcpClient.keep, h, he]

/-- **The end of `download_file`.** -/
theorem leavesAlone_keep_iff :
    LeavesAlone cl.fileOps fs p (cl.keep sha256 fs p (.ok (header, data))) ↔
      Spares cl.fileOps sha256 fs p header data := by
  -- one clause of `Spares` for each way to end; the others then ask for nothing
  have hends := @FileOps.writeEnds_writeFile cl.fileOps fs p data
  generalize hwrite : cl.fileOps.writeFile fs p data = w at hends
  cases hends with
  | unopened h e =>
    rw [keep_of_error hwrite, leavesAlone_error, FileOps.fileAt_makeParents]
    exact iff_of_true rfl ⟨fun ho => absurd ho h, fun ho => absurd ho h, fun ho => absurd ho h⟩
  | unwritten h hw e =>
    rw [keep_of_error hwrite, leavesAlone_error, h.fileAt_withTmp_eq_iff]
    exact ⟨fun hk => ⟨fun _ _ => hk, fun _ hn => absurd hw hn, fun _ hn => absurd hw hn⟩,
      fun hs => hs.unwritten h hw⟩
  | unrenamed h hw hr e =>
    rw [keep_of_error hwrite, leavesAlone_error, h.fileAt_withTmp_eq_iff]
    exact ⟨fun hk => ⟨fun _ hc => absurd hc hw, fun _ _ _ => hk, fun _ _ hn => absurd hr hn⟩,
      fun hs => hs.unrenamed h hw hr⟩
  | renamed h hw hr =>
    have hfile : (cl.fileOps.renamed fs p data).fileAt (fs.locate (cl.fileOps.resolvePath p)) =
        some data := FileSystem.fileAt_eq_some_iff.mpr (h.node_renamed hr)
    obtain ⟨hv, hkeep⟩ | ⟨hv, e, hkeep⟩ := @keep_of_renamed cl sha256 fs p header data _ hwrite
      (h.sha256File_renamed hr sha256) (h.sha256File_renamed_error hr sha256)
    · rw [hkeep]
      refine iff_of_true (fun e he => absurd he (by simp)) ⟨fun _ hc => absurd hc hw,
        fun _ _ hc => absurd hc hr, fun _ _ _ hn => absurd hv hn⟩
    · rw [hkeep, leavesAlone_error, hfile, eq_comm]
      exact ⟨fun hk => ⟨fun _ hc => absurd hc hw, fun _ _ hc => absurd hc hr, fun _ _ _ _ => hk⟩,
        fun hs => hs.unverified h hw hr hv⟩

end Keep

/-! ### What the server sends -/

section Frames

variable {α : Type}

/-- `read_expected` goes on with the first frame of the type it waits for. -/
theorem hears_readExpected_eq_ok_iff {t : MessageType} {k : WireFrame → Fallible α} {a : α}
    {n : ℕ} :
    ∀ {frames : List WireFrame}, ((readExpected t k n).hears frames).1 = .ok a ↔
      ∃ skipped f rest, frames = skipped ++ f :: rest ∧ skipped.length < n ∧
        (∀ g ∈ skipped, g.messageType ≠ t.code) ∧ f.messageType = t.code ∧
        ((k f).hears rest).1 = .ok a := by
  induction n with
  | zero =>
    intro frames
    refine iff_of_false (by simp [readExpected, Proc.hears]) ?_
    rintro ⟨skipped, f, rest, -, hlen, -⟩
    exact absurd hlen (Nat.not_lt_zero _)
  | succ n ih =>
    rintro (_ | ⟨f, frames⟩)
    · exact iff_of_false (by simp [readExpected, readFrame, Proc.hears]) (by simp)
    by_cases hf : f.messageType = t.code
    · -- nothing is skipped
      simp only [readExpected, readFrame, Proc.hears, if_pos hf]
      constructor
      · intro h
        exact ⟨[], f, frames, rfl, Nat.succ_pos n, by simp, hf, h⟩
      · rintro ⟨skipped, g, rest, heq, -, hskip, -, h⟩
        cases skipped with
        | nil =>
          obtain ⟨rfl, rfl⟩ := List.cons.inj heq
          exact h
        | cons s skipped =>
          obtain ⟨rfl, -⟩ := List.cons.inj heq
          exact absurd hf (hskip f List.mem_cons_self)
    · simp only [readExpected, readFrame, Proc.hears, if_neg hf]
      refine ih.trans ⟨?_, ?_⟩
      · rintro ⟨skipped, g, rest, rfl, hlen, hskip, hg, h⟩
        exact ⟨f :: skipped, g, rest, rfl, Nat.succ_lt_succ hlen,
          List.forall_mem_cons.mpr ⟨hf, hskip⟩, hg, h⟩
      · rintro ⟨skipped, g, rest, heq, hlen, hskip, hg, h⟩
        cases skipped with
        | nil =>
          -- the frame itself is not of the type
          obtain ⟨rfl, -⟩ := List.cons.inj heq
          exact absurd hg hf
        | cons s skipped =>
          obtain ⟨rfl, rfl⟩ := List.cons.inj heq
          exact ⟨skipped, g, rest, rfl, Nat.lt_of_succ_lt_succ hlen,
            (List.forall_mem_cons.mp hskip).2, hg, h⟩

/-- The frames bring a header, with fewer than a hundred others before it, and file data
right behind it. -/
def Brings (proto : Proto) (frames : List WireFrame) (header : ZeroCopyDownloadHeader)
    (data : Bytes) : Prop :=
  ∃ skipped f rest, frames = skipped ++ f :: ⟨MSG_RAW_DATA, data⟩ :: rest ∧ skipped.length < 100 ∧
    (∀ g ∈ skipped, g.messageType ≠ MessageType.zeroCopyDownloadHeader.code) ∧
    Carrying proto.zeroCopyDownloadHeader .zeroCopyDownloadHeader header f

/-- Behind the header the next frame has to be raw data. -/
theorem hears_rawFrame_eq_ok_iff {header header' : ZeroCopyDownloadHeader} {data : Bytes}
    {rest : List WireFrame} :
    ((readFrame fun raw : WireFrame =>
      if raw.messageType ≠ MSG_RAW_DATA then
        .ret (.error (.protocol "Expected raw data frame"))
      else .emit ⟨.rawData, raw⟩ (.ret (.ok (header', raw.payload)))).hears rest).1 =
        .ok (header, data) ↔
      header' = header ∧ ∃ rest', rest = ⟨MSG_RAW_DATA, data⟩ :: rest' := by
  cases rest with
  | nil => simp [readFrame, Proc.hears]
  | cons raw rest =>
    simp only [readFrame, Proc.hears]
    obtain ⟨type, payload⟩ := raw
    by_cases htype : type = MSG_RAW_DATA
    · simp [htype, Proc.hears]
    · simp [htype, Proc.hears]

theorem hears_fetch_eq_ok_iff {proto : Proto} {p : String} {frames : List WireFrame}
    {header : ZeroCopyDownloadHeader} {data : Bytes} :
    ((TcpClient.fetch proto p).hears frames).1 = .ok (header, data) ↔
      Brings proto frames header data := by
  unfold TcpClient.fetch
  rw [Proc.hears, hears_readExpected_eq_ok_iff]
  constructor
  · rintro ⟨skipped, f, rest, rfl, hlen, hskip, hf, h⟩
    unfold accept at h
    split at h
    · exact absurd h (by simp [Proc.hears])
    · next header' hdecode =>
      obtain ⟨rfl, rest', rfl⟩ := hears_rawFrame_eq_ok_iff.mp h
      exact ⟨skipped, f, rest', rfl, hlen, hskip, hf, hdecode⟩
  · rintro ⟨skipped, f, rest, rfl, hlen, hskip, hf, hdecode⟩
    refine ⟨skipped, f, _, rfl, hlen, hskip, hf, ?_⟩
    unfold accept
    rw [hdecode]
    exact hears_rawFrame_eq_ok_iff.mpr ⟨rfl, rest, rfl⟩

end Frames

/-! ### A failed download -/

theorem hears_downloadFile (proto : Proto) (sha256 : Bytes → String) {cl : TcpClient}
    (fs : FileSystem) (p : String) (frames : List WireFrame) (hconn : cl.connected = true) :
    ((cl.downloadFile proto sha256 fs p).hears frames).1 =
      cl.keep sha256 fs p ((TcpClient.fetch proto p).hears frames).1 := by
  rw [TcpClient.downloadFile, hconn, Bool.not_true, if_neg Bool.false_ne_true, Proc.hears_bind]
  rfl

/-- **A download that fails leaves the local file alone if and only if** the frames bring no
header with data, or the local file survives the end of a download of that data. -/
theorem failed_download_spares_iff (proto : Proto) (sha256 : Bytes → String) (cl : TcpClient)
    (fs : FileSystem) (p : String) (frames : List WireFrame) :
    LeavesAlone cl.fileOps fs p ((cl.downloadFile proto sha256 fs p).hears frames).1 ↔
      (cl.connected = true → ∀ header data, Brings proto frames header data →
        Spares cl.fileOps sha256 fs p header data) := by
  cases hconn : cl.connected with
  | false =>
    refine iff_of_true ?_ (fun hc => absurd hc Bool.false_ne_true)
    rw [TcpClient.downloadFile, hconn]
    exact (leavesAlone_error notConnected).mpr rfl
  | true =>
    rw [hears_downloadFile proto sha256 fs p frames hconn, forall_prop_of_true rfl]
    cases hfetch : ((TcpClient.fetch proto p).hears frames).1 with
    | error e =>
      -- nothing has been written
      refine iff_of_true ((leavesAlone_error e).mpr rfl) fun header data hbrings => ?_
      exact absurd (hfetch.symm.trans (hears_fetch_eq_ok_iff.mpr hbrings)) (by simp)
    | ok fetched =>
      obtain ⟨header, data⟩ := fetched
      rw [leavesAlone_keep_iff]
      constructor
      · intro hs header' data' hbrings
        obtain ⟨rfl, rfl⟩ := Prod.mk.inj (Except.ok.inj
          (hfetch.symm.trans (hears_fetch_eq_ok_iff.mpr hbrings)))
        exact hs
      · intro h
        exact h header data (hears_fetch_eq_ok_iff.mp hfetch)

/-- The file `f` is `7`. A header with the hash `x` arrives, and the byte `1`. -/
theorem failed_download_replaces :
    let cl := { TcpClient.new "rust-client-1" "c" 4096 with connected := true }
    let fs := FileSystem.single ['c'] ['f'] (some [7])
    ¬ LeavesAlone cl.fileOps fs "f" ((cl.downloadFile protobuf sha256Hex fs "f").hears
      [message protobuf.zeroCopyDownloadHeader .zeroCopyDownloadHeader ⟨"f", 1, "x", 0⟩,
        ⟨MSG_RAW_DATA, [1]⟩]).1 := by
  intro cl fs h
  have hbrings : Brings protobuf [message protobuf.zeroCopyDownloadHeader .zeroCopyDownloadHeader
      ⟨"f", 1, "x", 0⟩, ⟨MSG_RAW_DATA, [1]⟩] ⟨"f", 1, "x", 0⟩ [1] :=
    ⟨[], _, [], rfl, by decide, by simp, carrying_message _ _ _⟩
  rw [hears_downloadFile _ _ _ _ _ rfl, hears_fetch_eq_ok_iff.mpr hbrings] at h
  have hopens : cl.fileOps.OpensTmp fs "f" := ⟨by decide, by decide⟩
  have hwrite : ¬ cl.fileOps.WriteRefused fs "f" [1] := by
    rintro ⟨-, hc | hc⟩
    · exact absurd hc (by decide)
    · exact absurd hc (by decide)
  have hrename : ¬ cl.fileOps.RenameRefused fs "f" := by
    rintro (hc | hc)
    · exact absurd hc (by decide)
    · exact hc (by decide)
  have hverify : ¬ Verified cl.fileOps sha256Hex fs "f" ⟨"f", 1, "x", 0⟩ [1] := by
    rintro ⟨-, hempty | heq⟩
    · exact absurd hempty (by decide)
    · -- a hash has 64 characters
      have hlen := length_sha256Hex [1]
      rw [show sha256Hex [1] = "x" from heq] at hlen
      exact absurd hlen (by decide)
  have hfile := (leavesAlone_keep_iff.mp h).unverified hopens hwrite hrename hverify
  exact absurd hfile (by decide)

end AdaptiveSync
