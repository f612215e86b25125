import AdaptiveSync.Lib.Except
import AdaptiveSync.Lib.Fs
import AdaptiveSync.Messages

/-!
# The file manager

`FileManager` (`server/src/file_manager.cpp`) is the server's only way to the disk: path
resolution, queries, block and whole-file writes to a scratch file `p.tmp`, and the
rename that commits it.

The paths are `std::string`s, which may hold U+0000. Path resolution takes it for a
character like any other; the calls to the operating system get C strings (`cStr`).

Functions that may throw return in `Except Crash`: `resolve_path` throws on a path it
takes for a traversal, and the throwing overloads of `std::filesystem` throw when the
operating system fails. `SHA-256` is a parameter; `Hash` embeds the server's own.

## Containment

`resolvePath` drops the client's path into the storage root with `path::operator/`, after
looking at the first two characters of its normal form. Relative paths are contained by
that check. An absolute path passes it and then replaces the root altogether:
`contained_iff` says exactly which paths stay inside.

## What the operations do

`Ready` is the situation in which every file operation on a path succeeds. The lemmas
below it give, in that situation, the result of each operation in terms of the nodes at
the file and at its scratch file.
-/

namespace AdaptiveSync

open LexPath Fs

/-- What can escape a handler of the server. -/
inductive Crash where
  /-- `std::runtime_error`. -/
  | runtimeError (what : String)
  /-- `std::filesystem::filesystem_error`. -/
  | filesystemError (what : String)
  /-- `std::ios_base::failure`, thrown when reading a stream buffer fails. -/
  | iosFailure
  /-- An integer division by zero. -/
  | divideByZero
  deriving DecidableEq

/-- `FileInfo`. -/
structure FileInfo where
  relativePath : String
  fileSize : UInt64
  lastModifiedNs : UInt64
  sha256Hex : String
  deriving DecidableEq

/-- `FileManager`. Its storage root comes from the command line, and so from a C string. -/
structure FileManager where
  storageRoot : String
  plain : nul ∉ storageRoot.toList := by decide

/-- The suffix of scratch files. -/
def tmpSuffix : Text := ".tmp".toList

/-- The scratch path as the calls to the operating system get it. -/
def cTmp (t : Text) : Text := cStr (t ++ tmpSuffix)

/-- `std::filesystem::exists`. -/
def existsOrThrow (fs : FileSystem) (t : Text) : Except Crash Bool :=
  match fs.stat (cStr t) with
  | .failed => .error (.filesystemError "status")
  | .notFound => .ok false
  | .file _ => .ok true
  | .dir => .ok true

/-! ### The scratch path -/

@[simp] theorem cStr_append_tmpSuffix (t : Text) : cStr (t ++ tmpSuffix) = cTmp t := rfl

theorem cTmp_of_not_mem {t : Text} (h : nul ∉ t) : cTmp t = t ++ tmpSuffix := by
  rw [cTmp, cStr_append_suffix (by decide), if_neg h]

/-- Behind U+0000 the suffix is not seen: the scratch file is the file. -/
theorem cTmp_of_mem {t : Text} (h : nul ∈ t) : cTmp t = cStr t := cStr_append_of_mem h _

theorem cTmp_ne_nil {t : Text} (h : cStr t ≠ []) : cTmp t ≠ [] := by
  by_cases hnul : nul ∈ t
  · rwa [cTmp_of_mem hnul]
  · rw [cTmp_of_not_mem hnul]
    simp [tmpSuffix]

theorem endsInDirectory_cTmp {t : Text} (h : endsInDirectory (cStr t) = false) :
    endsInDirectory (cTmp t) = false := by
  by_cases hnul : nul ∈ t
  · rwa [cTmp_of_mem hnul]
  · rw [cTmp_of_not_mem hnul]
    exact FileSystem.endsInDirectory_append t (by decide) (by decide)

/-- The scratch file stands in the directory of the file. -/
theorem parent_cTmp (fs : FileSystem) (t : Text) : fs.parent (cTmp t) = fs.parent (cStr t) := by
  by_cases hnul : nul ∈ t
  · rw [cTmp_of_mem hnul]
  · rw [cTmp_of_not_mem hnul, cStr_of_not_mem hnul, FileSystem.parent_append (by decide)]

/-- **The scratch file is another file** where U+0000 does not cut its suffix off. -/
theorem locate_cTmp_eq_iff (fs : FileSystem) (t : Text) :
    fs.locate (cTmp t) = fs.locate (cStr t) ↔ nul ∈ t := by
  constructor
  · intro h
    by_contra hnul
    rw [cTmp_of_not_mem hnul, cStr_of_not_mem hnul] at h
    exact FileSystem.locate_append_ne (by decide) (by decide) h
  · intro h
    rw [cTmp_of_mem h]

theorem locate_cTmp_ne {t : Text} (h : nul ∉ t) (fs : FileSystem) :
    fs.locate (cTmp t) ≠ fs.locate (cStr t) := fun hc => h ((locate_cTmp_eq_iff fs t).mp hc)

namespace FileManager

variable (sha256 : Bytes → String) (fm : FileManager)

/-! ### Path helpers -/

/-- `resolve_path`. -/
def resolvePath (relativePath : String) : Except Crash Text :=
  let clean := lexicallyNormal relativePath.toList
  -- two characters are compared, so a name that begins with two dots is refused too
  if clean.take 2 = dotdot then
    .error (.runtimeError ("Directory traversal detected: " ++ relativePath))
  else .ok (append fm.storageRoot.toList clean)

/-- `tmp_path_for`. -/
def tmpPathFor (relativePath : String) : Except Crash Text := do
  return (← fm.resolvePath relativePath) ++ tmpSuffix

/-- `ensure_parent_dirs`. -/
def ensureParentDirs (fs : FileSystem) (relativePath : String) :
    Except Crash (FileSystem × Bool) := do
  let p ← fm.resolvePath relativePath
  return fs.mkdirs (fs.cParent p)

/-! ### Queries -/

/-- `file_exists`. -/
def fileExists (fs : FileSystem) (relativePath : String) : Except Crash Bool := do
  existsOrThrow fs (← fm.resolvePath relativePath)

/-- `get_file_size`. `std::filesystem::file_size` throws on a directory. -/
def getFileSize (fs : FileSystem) (relativePath : String) : Except Crash UInt64 := do
  let p ← fm.resolvePath relativePath
  if !(← existsOrThrow fs p) then return 0
  match fs.stat (cStr p) with
  | .file b => return UInt64.ofNat b.length
  | _ => .error (.filesystemError "file_size")

/-- `get_last_modified_ns`. -/
def getLastModifiedNs (fs : FileSystem) (relativePath : String) : Except Crash UInt64 := do
  let p ← fm.resolvePath relativePath
  if !(← existsOrThrow fs p) then return 0
  return fs.os.mtime (fs.locate (cStr p))

/-- Reading an open stream to its end through its buffer, as
`std::istreambuf_iterator` does: a failing read throws. -/
def readToEnd (fs : FileSystem) (t : Text) : Node → Except Crash Bytes
  | .dir => .error .iosFailure
  | .file b => if fs.os.fails .read (fs.locate (cStr t)) then .error .iosFailure else .ok b

/-- `compute_sha256`. -/
def computeSha256 (fs : FileSystem) (relativePath : String) : Except Crash String := do
  let p ← fm.resolvePath relativePath
  match fs.openRead (cStr p) with
  | none => return ""
  | some n => return sha256 (← readToEnd fs p n)

/-- `get_file_info`. -/
def getFileInfo (fs : FileSystem) (relativePath : String) : Except Crash (Option FileInfo) := do
  if !(← fm.fileExists fs relativePath) then return none
  let fileSize ← fm.getFileSize fs relativePath
  let lastModifiedNs ← fm.getLastModifiedNs fs relativePath
  let sha256Hex ← fm.computeSha256 sha256 fs relativePath
  return some ⟨relativePath, fileSize, lastModifiedNs, sha256Hex⟩

/-! ### Block and file writes -/

/-- `read_block`. An offset past `off_t` fails the seek, a failing read reads nothing. -/
def readBlock (fs : FileSystem) (relativePath : String) (offset : UInt64) (size : UInt32) :
    Except Crash Bytes := do
  let p ← fm.resolvePath relativePath
  match fs.openRead (cStr p) with
  | none => return []
  | some .dir => return []
  | some (.file b) =>
    if maxOffset ≤ offset.toNat then return []
    else if fs.os.fails .read (fs.locate (cStr p)) then return []
    else return (b.drop offset.toNat).take size.toNat

/-- `write_block_atomic`: whether it succeeded, and the disk after it. The scratch file
is created when it is not there. -/
def writeBlockAtomic (fs : FileSystem) (relativePath : String) (offset : UInt64)
    (data : Bytes) : Except Crash (Bool × FileSystem) := do
  let tmp ← fm.tmpPathFor relativePath
  -- whether the directories could be made is not looked at
  let (fs, _) ← fm.ensureParentDirs fs relativePath
  match (if fs.openUpdate (cStr tmp) then some fs else fs.openTruncate (cStr tmp)) with
  | none => return (false, fs)
  | some fs =>
    -- a seek to an offset that is negative as `off_t` fails, and the write with it
    if maxOffset ≤ offset.toNat then return (false, fs)
    else
      match fs.pwrite (cStr tmp) offset.toNat data with
      | none => return (false, fs.torn (cStr tmp) offset.toNat data)
      | some fs => return (true, fs)

/-- `write_file_atomic`. -/
def writeFileAtomic (fs : FileSystem) (relativePath : String) (data : Bytes) :
    Except Crash (Bool × FileSystem) := do
  let tmp ← fm.tmpPathFor relativePath
  let (fs, _) ← fm.ensureParentDirs fs relativePath
  match fs.openTruncate (cStr tmp) with
  | none => return (false, fs)
  | some fs =>
    match fs.pwrite (cStr tmp) 0 data with
    | none => return (false, fs.torn (cStr tmp) 0 data)
    | some fs => return (true, fs)

/-- `atomic_rename_tmp`. -/
def atomicRenameTmp (fs : FileSystem) (relativePath : String) :
    Except Crash (Bool × FileSystem) := do
  let tmp ← fm.tmpPathFor relativePath
  let target ← fm.resolvePath relativePath
  if !(← existsOrThrow fs tmp) then return (false, fs)
  match fs.rename (cStr tmp) (cStr target) with
  | none => return (false, fs)
  | some fs => return (true, fs)

/-! ### Listing -/

/-- The relative path of an entry, as `std::filesystem::relative` spells it. -/
def relativeText (rel : List Name) : String := String.ofList (['/'].intercalate rel)

/-- One entry of a listing: `none` when it is skipped. -/
def listEntry (fs : FileSystem) (namePrefix : String) (recursive : Bool) (root : Loc)
    (entry : List Name × Node) : Except Crash (Option FileInfo) := do
  if fs.os.fails .stat (root ++ entry.1) then .error (.filesystemError "status")
  match entry.2 with
  | .dir =>
    if recursive && fs.os.fails .readdir (root ++ entry.1) then
      .error (.filesystemError "recursive directory iterator")
    else return none
  | .file b =>
    let rel := relativeText entry.1
    if recursive && extension (entry.1.getLastD []) = tmpSuffix then return none
    else if !namePrefix.toList.isEmpty &&
        rel.toList.take namePrefix.toList.length ≠ namePrefix.toList then
      return none
    else
      let lastModifiedNs ← fm.getLastModifiedNs fs rel
      -- recursive listings leave the hash empty
      let sha256Hex ← if recursive then pure "" else fm.computeSha256 sha256 fs rel
      return some ⟨rel, UInt64.ofNat b.length, lastModifiedNs, sha256Hex⟩

/-- `list_files`. -/
def listFiles (fs : FileSystem) (namePrefix : String) (recursive : Bool) :
    Except Crash (List FileInfo) := do
  -- a root that is not there has no files
  let root := fm.storageRoot.toList
  if !(← existsOrThrow fs root) then return []
  if fs.stat (cStr root) ≠ .dir ∨ fs.os.fails .readdir (fs.locate (cStr root)) then
    .error (.filesystemError "directory iterator")
  -- without recursion only what stands in the root itself
  let entries :=
    (fs.entriesBelow (fs.locate (cStr root))).filter fun e => recursive || e.1.length = 1
  let infos ← entries.mapM (listEntry sha256 fm fs namePrefix recursive (fs.locate (cStr root)))
  return infos.filterMap id

/-! ### Containment -/

variable {fm : FileManager}

/-- The text of the storage root. -/
def root (fm : FileManager) : Text := fm.storageRoot.toList

@[simp] theorem cStr_root (fm : FileManager) : cStr fm.root = fm.root := cStr_of_not_mem fm.plain

theorem cStr_storageRoot (fm : FileManager) : cStr fm.storageRoot.toList = fm.root :=
  fm.cStr_root

/-- Both the path a client's string resolves to and its scratch path lie inside the
storage root, or resolution throws. -/
def Contained (fm : FileManager) (relativePath : String) : Prop :=
  (∀ t, fm.resolvePath relativePath = .ok t → Inside fm.root t) ∧
    ∀ t, fm.tmpPathFor relativePath = .ok t → Inside fm.root t

theorem tmpPathFor_eq_ok_iff {relativePath : String} {t : Text} :
    fm.tmpPathFor relativePath = .ok t ↔
      ∃ p, fm.resolvePath relativePath = .ok p ∧ t = p ++ tmpSuffix := by
  unfold tmpPathFor
  rw [Except.bind_eq_ok_iff]
  constructor
  · rintro ⟨p, hp, h⟩
    exact ⟨p, hp, (Except.ok.inj h).symm⟩
  · rintro ⟨p, hp, rfl⟩
    exact ⟨p, hp, rfl⟩

/-- A commit that returned did nothing, or moved the scratch file to the file's place. -/
theorem atomicRenameTmp_cases {fs fs' : FileSystem} {relativePath : String} {r : Bool}
    (h : fm.atomicRenameTmp fs relativePath = .ok (r, fs')) :
    (r = false ∧ fs' = fs) ∨ r = true ∧ ∃ t b, fm.resolvePath relativePath = .ok t ∧
      fs.stat (cTmp t) = .file b ∧ fs.node (fs.locate (cStr t)) ≠ some .dir ∧
      fs' = (fs.remove (fs.locate (cTmp t))).set (fs.locate (cStr t)) (.file b) := by
  obtain ⟨tmp, htmp, h⟩ := Except.bind_eq_ok_iff.mp h
  obtain ⟨t, ht, rfl⟩ := tmpPathFor_eq_ok_iff.mp htmp
  obtain ⟨target, htarget, h⟩ := Except.bind_eq_ok_iff.mp h
  obtain rfl := Except.ok.inj (ht.symm.trans htarget)
  obtain ⟨found, -, h⟩ := Except.bind_eq_ok_iff.mp h
  split at h
  · obtain ⟨rfl, rfl⟩ := Prod.mk.inj (Except.ok.inj h)
    exact .inl ⟨rfl, rfl⟩
  split at h
  · obtain ⟨rfl, rfl⟩ := Prod.mk.inj (Except.ok.inj h)
    exact .inl ⟨rfl, rfl⟩
  · next renamed hrename =>
    obtain ⟨rfl, rfl⟩ := Prod.mk.inj (Except.ok.inj h)
    obtain ⟨b, hstat, -, -, hfree, heq⟩ := FileSystem.rename_eq_some hrename
    exact .inr ⟨rfl, t, b, ht, hstat, hfree, heq⟩

/-- A whole-file write that succeeded has left the data in the scratch file. -/
theorem node_of_writeFileAtomic {fs fs' : FileSystem} {relativePath : String} {data : Bytes}
    {t : Text} (ht : fm.resolvePath relativePath = .ok t)
    (h : fm.writeFileAtomic fs relativePath data = .ok (true, fs')) :
    fs'.node (fs.locate (cTmp t)) = some (.file data) ∧ fs'.os = fs.os := by
  obtain ⟨tmp, htmp, h⟩ := Except.bind_eq_ok_iff.mp h
  obtain ⟨t', ht', rfl⟩ := tmpPathFor_eq_ok_iff.mp htmp
  obtain rfl := Except.ok.inj (ht.symm.trans ht')
  obtain ⟨made, hmade, h⟩ := Except.bind_eq_ok_iff.mp h
  have hos : made.1.os = fs.os := by
    obtain ⟨t', -, hmade⟩ := Except.bind_eq_ok_iff.mp hmade
    obtain rfl := Except.ok.inj hmade
    exact FileSystem.mkdirs_os _
  dsimp only at h
  split at h
  · exact absurd (Prod.mk.inj (Except.ok.inj h)).1 (by simp)
  next opened hopen =>
  split at h
  · exact absurd (Prod.mk.inj (Except.ok.inj h)).1 (by simp)
  · next written hwrite =>
    obtain ⟨-, rfl⟩ := Prod.mk.inj (Except.ok.inj h)
    obtain ⟨hnode, hos'⟩ := FileSystem.node_of_truncate_pwrite hopen hwrite
    rw [FileSystem.locate_congr hos] at hnode
    exact ⟨hnode, hos'.trans hos⟩

/-- `resolve_path` never throws on an absolute path, and returns its normal form. -/
theorem resolvePath_of_isAbsolute {relativePath : String}
    (h : isAbsolute relativePath.toList = true) :
    fm.resolvePath relativePath = .ok (lexicallyNormal relativePath.toList) := by
  obtain ⟨r, hr⟩ : ∃ r, lexicallyNormal relativePath.toList = '/' :: r := by
    unfold lexicallyNormal
    rw [if_neg (by rintro hc; rw [hc] at h; exact absurd h (by decide)), h]
    split
    · exact ⟨[], rfl⟩
    · exact ⟨_, rfl⟩
  unfold resolvePath
  simp only [hr]
  rw [if_neg (by simp [dotdot])]
  simp [append, isAbsolute]

/-- A relative path that resolves only goes down from the root. -/
theorem resolvePath_of_relative {relativePath : String} {t : Text}
    (h : isAbsolute relativePath.toList = false) (ht : fm.resolvePath relativePath = .ok t) :
    ∃ c, Downward c ∧ t = append fm.root c := by
  unfold resolvePath at ht
  simp only at ht
  split at ht
  · exact absurd ht (by simp)
  · next hup => exact ⟨_, downward_lexicallyNormal h hup, (Except.ok.inj ht).symm⟩

/-- **Containment.** A client's path is contained exactly when it is relative, or is an
absolute path that lies inside the storage root by itself, scratch file included. -/
theorem contained_iff (fm : FileManager) (relativePath : String) :
    fm.Contained relativePath ↔
      isAbsolute relativePath.toList = false ∨
        (Inside fm.root (lexicallyNormal relativePath.toList) ∧
          Inside fm.root (lexicallyNormal relativePath.toList ++ tmpSuffix)) := by
  constructor
  · rintro ⟨hres, htmp⟩
    cases habs : isAbsolute relativePath.toList with
    | false => exact Or.inl rfl
    | true =>
      have h := @resolvePath_of_isAbsolute fm _ habs
      exact Or.inr ⟨hres _ h, htmp _ (tmpPathFor_eq_ok_iff.mpr ⟨_, h, rfl⟩)⟩
  · intro h
    cases habs : isAbsolute relativePath.toList with
    | false =>
      refine ⟨fun t ht => ?_, fun t ht => ?_⟩
      · obtain ⟨c, hc, rfl⟩ := resolvePath_of_relative habs ht
        exact inside_append fm.root hc
      · -- the suffix lengthens the last name, so the scratch path only goes down too
        obtain ⟨p, hp, rfl⟩ := tmpPathFor_eq_ok_iff.mp ht
        obtain ⟨c, hc, rfl⟩ := resolvePath_of_relative habs hp
        have hcs : Downward (c ++ tmpSuffix) := hc.append_suffix (by decide) (by decide)
        rw [append_append_suffix fm.root hc.1 hcs.1]
        exact inside_append fm.root hcs
    | true =>
      rw [habs] at h
      -- an absolute path replaces the root
      obtain ⟨h₁, h₂⟩ := h.resolve_left (by simp)
      have hres := @resolvePath_of_isAbsolute fm _ habs
      refine ⟨fun t ht => ?_, fun t ht => ?_⟩
      · rw [hres] at ht
        rw [← Except.ok.inj ht]
        exact h₁
      · obtain ⟨p, hp, rfl⟩ := tmpPathFor_eq_ok_iff.mp ht
        rw [hres] at hp
        rw [← Except.ok.inj hp]
        exact h₂

/-- An absolute path leaves the storage root. -/
theorem not_contained_etc_passwd : ¬ (FileManager.mk "./storage").Contained "/etc/passwd" := by
  intro h
  have hin := h.1 "/etc/passwd".toList (by decide)
  exact absurd hin (by decide)

/-! ### Queries on a file that can be read -/

/-- The path is not taken for a traversal. -/
def Resolves (fm : FileManager) (relativePath : String) : Prop :=
  ∃ t, fm.resolvePath relativePath = .ok t

/-- A path at which there is nothing. -/
theorem fileExists_of_notFound {fs : FileSystem} {relativePath : String} {t : Text}
    (hres : fm.resolvePath relativePath = .ok t) (hstat : fs.stat (cStr t) = .notFound) :
    fm.fileExists fs relativePath = .ok false := by
  simp [fileExists, hres, existsOrThrow, hstat]

/-- The path resolves to the text of a file `b`, which can be opened and read. -/
structure Legible (fm : FileManager) (fs : FileSystem) (relativePath : String) (t : Text)
    (b : Bytes) : Prop where
  resolves : fm.resolvePath relativePath = .ok t
  stat : fs.stat (cStr t) = .file b
  opens : fs.os.fails .openRead (fs.locate (cStr t)) = false
  reads : fs.os.fails .read (fs.locate (cStr t)) = false

namespace Legible

variable {fs : FileSystem} {p : String} {t : Text} {b : Bytes}

theorem fileExists (h : fm.Legible fs p t b) : fm.fileExists fs p = .ok true := by
  simp [FileManager.fileExists, h.resolves, existsOrThrow, h.stat]

theorem getFileSize (h : fm.Legible fs p t b) :
    fm.getFileSize fs p = .ok (UInt64.ofNat b.length) := by
  simp [FileManager.getFileSize, h.resolves, existsOrThrow, h.stat]
  rfl

theorem openRead (h : fm.Legible fs p t b) : fs.openRead (cStr t) = some (.file b) := by
  simp [FileSystem.openRead, h.opens, h.stat]

theorem readBlock (h : fm.Legible fs p t b) {offset : UInt64} (size : UInt32)
    (hoff : offset.toNat < maxOffset) :
    fm.readBlock fs p offset size = .ok ((b.drop offset.toNat).take size.toNat) := by
  simp [FileManager.readBlock, h.resolves, h.openRead, h.reads, Nat.not_le.mpr hoff]
  rfl

theorem computeSha256 (h : fm.Legible fs p t b) :
    fm.computeSha256 sha256 fs p = .ok (sha256 b) := by
  simp [FileManager.computeSha256, h.resolves, h.openRead, readToEnd, h.reads]

end Legible

/-! ### Operations on a path that can be written -/

/-- Every file operation on `relativePath` succeeds: it resolves to the text `t` of a
possible file, whose directory is there, and neither it nor its scratch file is a
directory. -/
structure Ready (fm : FileManager) (fs : FileSystem) (relativePath : String) (t : Text) :
    Prop where
  resolves : fm.resolvePath relativePath = .ok t
  quiet : fs.Quiet
  nonempty : cStr t ≠ []
  leaf : endsInDirectory (cStr t) = false
  parent_dir : fs.node (fs.cParent t) = some .dir
  not_dir : fs.node (fs.locate (cStr t)) ≠ some .dir
  tmp_not_dir : fs.node (fs.locate (cTmp t)) ≠ some .dir

namespace Ready

variable {fs : FileSystem} {p : String} {t : Text}

theorem tmpPathFor (h : fm.Ready fs p t) : fm.tmpPathFor p = .ok (t ++ tmpSuffix) :=
  tmpPathFor_eq_ok_iff.mpr ⟨t, h.resolves, rfl⟩

theorem parent_eq (h : fm.Ready fs p t) : fs.cParent t = fs.parent (cStr t) := by
  -- otherwise the directory would stand at the place of the file
  refine FileSystem.cParent_of_not_mem fun hc => h.not_dir ?_
  rw [← FileSystem.cParent_of_mem hc]
  exact h.parent_dir

/-- A path into the one directory of a disk. -/
theorem of_single {dir name file scratch : Name} {content : Option Bytes}
    (hresolves : fm.resolvePath p = .ok t) (hnonempty : cStr t ≠ [])
    (hleaf : endsInDirectory (cStr t) = false)
    (hparent : (FileSystem.single dir name content).cParent t = [dir])
    (hfile : (FileSystem.single dir name content).locate (cStr t) = [dir, file])
    (hscratch : (FileSystem.single dir name content).locate (cTmp t) = [dir, scratch]) :
    fm.Ready (FileSystem.single dir name content) p t where
  resolves := hresolves
  quiet := FileSystem.quiet_of_calm rfl
  nonempty := hnonempty
  leaf := hleaf
  parent_dir := by
    rw [hparent, FileSystem.node_single]
    simp
  not_dir := by
    rw [hfile]
    exact FileSystem.node_single_ne_dir dir name content file
  tmp_not_dir := by
    rw [hscratch]
    exact FileSystem.node_single_ne_dir dir name content scratch

/-- Writing the file or its scratch file leaves the path ready. -/
theorem set (h : fm.Ready fs p t) {l : Loc} {b : Bytes}
    (hl : l = fs.locate (cStr t) ∨ l = fs.locate (cTmp t)) :
    fm.Ready (fs.set l (.file b)) p t := by
  -- a file is put where no directory is, so directories stay
  have hnode : ∀ l', fs.node l' = some .dir → (fs.set l (.file b)).node l' = some .dir := by
    intro l' hl'
    rw [FileSystem.node_set_of_ne, hl']
    rintro rfl
    rcases hl with rfl | rfl
    · exact h.not_dir hl'
    · exact h.tmp_not_dir hl'
  have hkeep : ∀ l', fs.node l' ≠ some .dir → (fs.set l (.file b)).node l' ≠ some .dir := by
    intro l' hl'
    by_cases heq : l' = l
    · rw [heq] at hl' ⊢
      rw [FileSystem.node_set_self hl']
      simp
    · rwa [FileSystem.node_set_of_ne heq]
  exact {
    resolves := h.resolves
    quiet := h.quiet
    nonempty := h.nonempty
    leaf := h.leaf
    parent_dir := hnode _ h.parent_dir
    not_dir := hkeep _ h.not_dir
    tmp_not_dir := hkeep _ h.tmp_not_dir }

theorem stat_of_none (h : fm.Ready fs p t) (hn : fs.node (fs.locate (cStr t)) = none) :
    fs.stat (cStr t) = .notFound := by
  simp [FileSystem.stat, h.nonempty, h.quiet .stat _, hn]

theorem stat_of_file (h : fm.Ready fs p t) {b : Bytes}
    (hn : fs.node (fs.locate (cStr t)) = some (.file b)) : fs.stat (cStr t) = .file b :=
  FileSystem.stat_of_node h.nonempty h.leaf (h.quiet .stat _) hn

/-- A file on a path that can be written can be read. -/
theorem legible (h : fm.Ready fs p t) {b : Bytes}
    (hn : fs.node (fs.locate (cStr t)) = some (.file b)) : fm.Legible fs p t b where
  resolves := h.resolves
  stat := h.stat_of_file hn
  opens := h.quiet .openRead _
  reads := h.quiet .read _

theorem ensureParentDirs (h : fm.Ready fs p t) : fm.ensureParentDirs fs p = .ok (fs, true) := by
  simp only [FileManager.ensureParentDirs, h.resolves, Except.ok_bind,
    FileSystem.mkdirs_of_dir h.parent_dir]
  rfl

theorem canOpenWrite_tmp (h : fm.Ready fs p t) : fs.canOpenWrite (cTmp t) = true := by
  have hne : cTmp t ≠ [] := cTmp_ne_nil h.nonempty
  have hleaf : endsInDirectory (cTmp t) = false := endsInDirectory_cTmp h.leaf
  have hparent : fs.node (fs.parent (cTmp t)) = some .dir := by
    rw [parent_cTmp, ← h.parent_eq]
    exact h.parent_dir
  simp [FileSystem.canOpenWrite, hne, hleaf, hparent, h.tmp_not_dir, h.quiet .openWrite _]

/-- **A block write** overwrites the scratch file at the offset, starting from nothing
when there was none, and touches nothing else. -/
theorem writeBlockAtomic (h : fm.Ready fs p t) {offset : UInt64} {data : Bytes}
    (hoff : offset.toNat + data.length < maxOffset) :
    fm.writeBlockAtomic fs p offset data =
      .ok (true, fs.set (fs.locate (cTmp t)) (.file
        (Blocks.writeAt 0 (fs.bytesAt (fs.locate (cTmp t))) offset.toNat data))) := by
  have hlt : ¬ maxOffset ≤ offset.toNat := by omega
  have hlt' : ¬ maxOffset ≤ offset.toNat + data.length := by omega
  simp only [FileManager.writeBlockAtomic, h.tmpPathFor, Except.ok_bind, h.ensureParentDirs,
    cStr_append_tmpSuffix, FileSystem.openUpdate, FileSystem.openTruncate, h.canOpenWrite_tmp,
    Bool.true_and]
  cases hn : fs.node (fs.locate (cTmp t)) with
  | none =>
    -- the scratch file is created empty, then written
    have hbytes : (fs.set (fs.locate (cTmp t)) (.file [])).bytesAt
        (fs.locate (cTmp t)) = fs.bytesAt (fs.locate (cTmp t)) := by
      rw [FileSystem.bytesAt_of_none hn]
      exact FileSystem.bytesAt_of_file (FileSystem.node_set_self h.tmp_not_dir)
    simp only [Option.isSome_none, Bool.false_eq_true, if_false, if_true, if_neg hlt,
      FileSystem.pwrite, FileSystem.set_os, FileSystem.set_locate, h.quiet .write _, hlt',
      or_false, and_false, hbytes, FileSystem.set_set]
    rfl
  | some n =>
    simp only [Option.isSome_some, if_true, if_neg hlt, FileSystem.pwrite, h.quiet .write _,
      Bool.false_eq_true, hlt', or_false, and_false, if_false]
    rfl

/-- A block write that reaches past the last offset fails, when the scratch file may already
have been created. -/
theorem writeBlockAtomic_far (h : fm.Ready fs p t) {offset : UInt64} {data : Bytes}
    (hfar : maxOffset ≤ offset.toNat + data.length) :
    ∃ fs', fm.writeBlockAtomic fs p offset data = .ok (false, fs') ∧
      (fs.node (fs.locate (cTmp t)) ≠ none ∧ fs' = fs ∨ fs.node (fs.locate (cTmp t)) = none ∧
        fs' = fs.set (fs.locate (cTmp t)) (.file [])) := by
  -- the seek fails, or the write behind it
  have hfails : ∀ fs' : FileSystem, (if maxOffset ≤ offset.toNat then
      (pure (false, fs') : Except Crash (Bool × FileSystem))
    else match fs'.pwrite (cTmp t) offset.toNat data with
      | none => pure (false, fs'.torn (cTmp t) offset.toNat data)
      | some fs'' => pure (true, fs'')) = .ok (false, fs') := by
    intro fs'
    split
    · rfl
    · next hlt =>
      have hne : data ≠ [] := by
        rintro rfl
        exact hlt hfar
      simp only [FileSystem.pwrite, FileSystem.torn, hne, hfar, ne_eq, not_false_eq_true, or_true,
        and_self, if_true]
      rfl
  simp only [FileManager.writeBlockAtomic, h.tmpPathFor, Except.ok_bind, h.ensureParentDirs,
    cStr_append_tmpSuffix, FileSystem.openUpdate, FileSystem.openTruncate, h.canOpenWrite_tmp,
    Bool.true_and, if_true]
  cases hn : fs.node (fs.locate (cTmp t)) with
  | none => exact ⟨_, hfails _, .inr ⟨rfl, rfl⟩⟩
  | some n => exact ⟨_, hfails _, .inl ⟨by simp, rfl⟩⟩

/-- **A whole-file write** makes the scratch file the data, whatever it was before, and
touches nothing else. -/
theorem writeFileAtomic (h : fm.Ready fs p t) {data : Bytes} (hlen : data.length < maxOffset) :
    fm.writeFileAtomic fs p data =
      .ok (true, fs.set (fs.locate (cTmp t)) (.file data)) := by
  have hbytes : (fs.set (fs.locate (cTmp t)) (.file [])).bytesAt
      (fs.locate (cTmp t)) = [] :=
    FileSystem.bytesAt_of_file (FileSystem.node_set_self h.tmp_not_dir)
  have hlt : ¬ maxOffset ≤ 0 + data.length := by omega
  simp only [FileManager.writeFileAtomic, h.tmpPathFor, Except.ok_bind, h.ensureParentDirs,
    cStr_append_tmpSuffix, FileSystem.openTruncate, h.canOpenWrite_tmp, if_true,
    FileSystem.pwrite, FileSystem.set_os, FileSystem.set_locate, h.quiet .write _,
    Bool.false_eq_true, hlt, or_false, and_false, if_false, hbytes, FileSystem.set_set,
    Blocks.writeAt_zero_nil]
  rfl

theorem stat_tmp_of_file (h : fm.Ready fs p t) {b : Bytes}
    (hn : fs.node (fs.locate (cTmp t)) = some (.file b)) :
    fs.stat (cTmp t) = .file b := by
  exact FileSystem.stat_of_node (cTmp_ne_nil h.nonempty) (endsInDirectory_cTmp h.leaf)
    (h.quiet .stat _) hn

theorem openRead_tmp_of_file (h : fm.Ready fs p t) {b : Bytes}
    (hn : fs.node (fs.locate (cTmp t)) = some (.file b)) :
    fs.openRead (cTmp t) = some (.file b) := by
  simp [FileSystem.openRead, h.quiet .openRead _, h.stat_tmp_of_file hn]

/-- **A commit** moves the scratch file to the file's place. -/
theorem atomicRenameTmp (h : fm.Ready fs p t) {b : Bytes}
    (hn : fs.node (fs.locate (cTmp t)) = some (.file b)) :
    fm.atomicRenameTmp fs p =
      .ok (true, (fs.remove (fs.locate (cTmp t))).set (fs.locate (cStr t)) (.file b)) := by
  have hstat := h.stat_tmp_of_file hn
  have hparent : fs.node (fs.parent (cStr t)) = some .dir := h.parent_eq ▸ h.parent_dir
  have hrename : fs.rename (cTmp t) (cStr t) =
      some ((fs.remove (fs.locate (cTmp t))).set (fs.locate (cStr t)) (.file b)) := by
    simp only [FileSystem.rename, hstat]
    rw [if_pos ⟨h.nonempty, h.leaf, hparent, h.not_dir, h.quiet .rename _⟩]
  simp only [FileManager.atomicRenameTmp, h.tmpPathFor, h.resolves, Except.ok_bind, existsOrThrow,
    cStr_append_tmpSuffix, hstat, hrename, Bool.not_true, Bool.false_eq_true, if_false]
  rfl

/-- The disk after a commit. -/
theorem node_commit (h : fm.Ready fs p t) (b : Bytes) :
    ((fs.remove (fs.locate (cTmp t))).set (fs.locate (cStr t)) (.file b)).node
      (fs.locate (cStr t)) = some (.file b) := by
  refine FileSystem.node_set_self ?_
  by_cases heq : fs.locate (cStr t) = fs.locate (cTmp t)
  · rw [heq, FileSystem.node_remove_self h.tmp_not_dir]
    simp
  · rw [FileSystem.node_remove_of_ne heq]
    exact h.not_dir

/-- The scratch file has left its place, when that was not the file's own. -/
theorem node_commit_tmp (h : fm.Ready fs p t) (hnul : nul ∉ t) (b : Bytes) :
    ((fs.remove (fs.locate (cTmp t))).set (fs.locate (cStr t)) (.file b)).node
      (fs.locate (cTmp t)) = none := by
  rw [FileSystem.node_set_of_ne (locate_cTmp_ne hnul fs)]
  exact FileSystem.node_remove_self h.tmp_not_dir

/-- A commit leaves the path ready. -/
theorem commit (h : fm.Ready fs p t) (b : Bytes) :
    fm.Ready ((fs.remove (fs.locate (cTmp t))).set (fs.locate (cStr t)) (.file b)) p t := by
  have hkeep : ∀ l, fs.node l ≠ some .dir →
      ((fs.remove (fs.locate (cTmp t))).set (fs.locate (cStr t)) (.file b)).node l ≠
        some .dir := by
    intro l hl
    by_cases heq : l = fs.locate (cStr t)
    · rw [heq, h.node_commit b]
      simp
    rw [FileSystem.node_set_of_ne heq]
    by_cases htmp : l = fs.locate (cTmp t)
    · rw [htmp, FileSystem.node_remove_self h.tmp_not_dir]
      simp
    · rwa [FileSystem.node_remove_of_ne htmp]
  have hparent : ((fs.remove (fs.locate (cTmp t))).set (fs.locate (cStr t)) (.file b)).node
      (fs.cParent t) = some .dir := by
    -- the directory is neither of the two files
    have h₁ : fs.cParent t ≠ fs.locate (cStr t) := fun hc => h.not_dir (hc ▸ h.parent_dir)
    have h₂ : fs.cParent t ≠ fs.locate (cTmp t) :=
      fun hc => h.tmp_not_dir (hc ▸ h.parent_dir)
    rw [FileSystem.node_set_of_ne h₁, FileSystem.node_remove_of_ne h₂]
    exact h.parent_dir
  exact {
    resolves := h.resolves
    quiet := h.quiet
    nonempty := h.nonempty
    leaf := h.leaf
    parent_dir := hparent
    not_dir := hkeep _ h.not_dir
    tmp_not_dir := hkeep _ h.tmp_not_dir }

end Ready

/-! ### Operations on a path whose directories may have to be made -/

/-- Every file operation on `relativePath` succeeds once the directories above it are
made. -/
def Writable (fm : FileManager) (fs : FileSystem) (relativePath : String) (t : Text) : Prop :=
  fm.Ready (fs.mkdirs (fs.cParent t)).1 relativePath t

theorem Ready.writable {fs : FileSystem} {p : String} {t : Text} (h : fm.Ready fs p t) :
    fm.Writable fs p t := by
  rw [Writable, FileSystem.mkdirs_of_dir h.parent_dir]
  exact h

namespace Writable

variable {fs : FileSystem} {p : String} {t : Text}

/-- Making directories changes neither the file nor its scratch file. -/
theorem node_mkdirs (h : fm.Writable fs p t) :
    (fs.mkdirs (fs.cParent t)).1.node (fs.locate (cStr t)) = fs.node (fs.locate (cStr t)) ∧
      (fs.mkdirs (fs.cParent t)).1.node (fs.locate (cTmp t)) =
        fs.node (fs.locate (cTmp t)) := by
  have hfile := h.not_dir
  have htmp := h.tmp_not_dir
  rw [FileSystem.mkdirs_locate] at hfile htmp
  constructor
  · exact (fs.node_mkdirs _ _).resolve_right fun hc => hfile hc.2
  · exact (fs.node_mkdirs _ _).resolve_right fun hc => htmp hc.2

theorem resolves (h : fm.Writable fs p t) : fm.resolvePath p = .ok t := Ready.resolves h

theorem quiet (h : fm.Writable fs p t) : fs.Quiet := by
  have hmade := Ready.quiet h
  unfold FileSystem.Quiet at hmade ⊢
  rwa [FileSystem.mkdirs_os] at hmade

theorem ensureParentDirs (h : fm.Writable fs p t) :
    fm.ensureParentDirs fs p = .ok (fs.mkdirs (fs.cParent t)) := by
  rw [FileManager.ensureParentDirs, h.resolves]
  rfl

/-- A block write makes the directories first. -/
theorem writeBlockAtomic_eq (h : fm.Writable fs p t) (offset : UInt64) (data : Bytes) :
    fm.writeBlockAtomic fs p offset data =
      fm.writeBlockAtomic (fs.mkdirs (fs.cParent t)).1 p offset data := by
  simp only [writeBlockAtomic, h.ensureParentDirs, Ready.ensureParentDirs h, Except.ok_bind]

/-- A whole-file write makes the directories first. -/
theorem writeFileAtomic_eq (h : fm.Writable fs p t) (data : Bytes) :
    fm.writeFileAtomic fs p data = fm.writeFileAtomic (fs.mkdirs (fs.cParent t)).1 p data := by
  simp only [writeFileAtomic, h.ensureParentDirs, Ready.ensureParentDirs h, Except.ok_bind]

theorem stat_of_none (h : fm.Writable fs p t) (hn : fs.node (fs.locate (cStr t)) = none) :
    fs.stat (cStr t) = .notFound := by
  simp [FileSystem.stat, Ready.nonempty h, h.quiet .stat _, hn]

theorem stat_of_file (h : fm.Writable fs p t) {b : Bytes}
    (hn : fs.node (fs.locate (cStr t)) = some (.file b)) : fs.stat (cStr t) = .file b :=
  FileSystem.stat_of_node (Ready.nonempty h) (Ready.leaf h) (h.quiet .stat _) hn

end Writable

/-- The file `x` has taken its place and its scratch file has gone. Nothing else has changed,
but that directories may have been made above it. -/
structure Commits (fs fs' : FileSystem) (t : Text) (x : Bytes) : Prop where
  grows : fs.Grows {fs.locate (cStr t), fs.locate (cTmp t)} {d | d <+: fs.cParent t} fs'
  node : fs'.node (fs.locate (cStr t)) = some (.file x)
  no_scratch : nul ∉ t → fs'.node (fs.locate (cTmp t)) = none

namespace Commits

variable {fs fs' fs'' : FileSystem} {p : String} {t : Text} {x : Bytes} {D : Set Loc}

/-- What has happened before at the scratch file alone belongs to the commit. -/
theorem of_grows (h : fs.Grows {fs.locate (cTmp t)} {d | d <+: fs.cParent t} fs')
    (h' : Commits fs' fs'' t x) : Commits fs fs'' t x := by
  obtain ⟨hgrows, hnode, htmp⟩ := h'
  rw [FileSystem.locate_congr h.os] at hgrows hnode htmp
  rw [FileSystem.cParent_congr h.os] at hgrows
  exact ⟨(h.mono (fun _ hl => .inr hl) fun _ hl => hl).trans hgrows, hnode, htmp⟩

/-- The move of the scratch file. -/
theorem of_ready (h : fm.Ready fs p t) (x : Bytes) :
    Commits fs ((fs.remove (fs.locate (cTmp t))).set (fs.locate (cStr t)) (.file x)) t x where
  grows := (FileSystem.Grows.remove (.inr rfl)).trans (.set _ (.inl rfl))
  node := h.node_commit x
  no_scratch hnul := h.node_commit_tmp hnul x

end Commits

end FileManager

/-- The file at `p`, if there is one. -/
def storedAt (fm : FileManager) (fs : FileSystem) (p : String) : Option Bytes :=
  match fm.resolvePath p with
  | .error _ => none
  | .ok t => fs.fileAt (fs.locate (cStr t))

end AdaptiveSync
