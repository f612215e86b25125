import Mathlib.Data.List.Dedup
import AdaptiveSync.Lib.Links

/-!
# Importing local files

`upload_local_file` of `ui/src-tauri/src/main.rs` copies what the user has picked, a file or a
folder, to the sync root under its own name. `copy_recursive` does the copying: it makes the
destination of a folder and then copies its entries one by one, in the order in which
`read_dir` hands them over. What is neither a file nor a folder is passed over without an
error.

`copy_recursive` calls itself on every entry, and nothing bounds how deep the calls nest. The
definition here takes a bound, and is `none` when the calls nest deeper.

The calls of `std::fs` are a parameter (`StdFs`). On a disk without links a text leads where it
says (`StdFs.plain`); on a disk with symbolic and hard links it leads through them
(`StdFs.linked`). The order of the entries is the operating system's to decide, and so is
whether an entry that is made while the folder is read is among them (`Listing`, `ReadDir`).
-/

namespace AdaptiveSync

open Fs LexPath

/-! ### Paths and calls of the standard library -/

/-- `Path::file_name`. -/
def fileName (t : Text) : Option Name :=
  match lastComponent t with
  | none => none
  | some (_, n) => if n = dotdot then none else some n

/-- `Path::components`: the root, a `.` at the beginning of a relative path, and the names. -/
def components (t : Text) : List Name :=
  let ns := (names t).filter fun n => n ≠ [] ∧ n ≠ dot
  if isAbsolute t then ['/'] :: ns
  else if (names t).head? = some dot then dot :: ns
  else ns

/-- `Path::strip_prefix`: the components behind those of the base. -/
def stripPrefix (t base : Text) : Option Text :=
  if components base <+: components t then
    some (['/'].intercalate ((components t).drop (components base).length))
  else none

/-- `fs::copy`. The destination is cut to length zero before anything is read, and has a part of
the bytes when reading or writing fails. -/
def copyFile (fs : FileSystem) (src dst : Text) : Except String Unit × FileSystem :=
  match fs.openRead src with
  | none => (.error (fs.os.errorText .openRead (fs.locate src)), fs)
  | some .dir =>
    (.error "the source path is neither a regular file nor a symlink to a regular file", fs)
  | some (.file _) =>
    match fs.openTruncate dst with
    | none => (.error (fs.os.errorText .openWrite (fs.locate dst)), fs)
    | some opened =>
      let bytes := opened.bytesAt (opened.locate src)
      if opened.os.fails .read (opened.locate src) then
        (.error (opened.os.errorText .read (opened.locate src)), opened.torn dst 0 bytes)
      else
        match opened.pwrite dst 0 bytes with
        | none =>
          (.error (opened.os.errorText .write (opened.locate dst)), opened.torn dst 0 bytes)
        | some written => (.ok (), written)

/-- What `read_dir` hands over for a folder of a disk without links: the names of its entries,
or the text of an error in the place of one. Without an error every entry that is there is among
them, once; others may be, too. -/
structure Listing where
  entries : FileSystem → Loc → List (Except String Name)
  nodup : ∀ fs l, ((entries fs l).filterMap Except.toOption).Nodup
  named : ∀ fs l n, .ok n ∈ entries fs l → FileName n
  complete : ∀ fs l, (∀ e, .error e ∉ entries fs l) → ∀ n, FileName n →
    fs.node (l ++ [n]) ≠ none → .ok n ∈ entries fs l

/-- What `read_dir` hands over at a text, when calls at a text are made at its `real` one: of
the names with which something is found behind the text none is missing. -/
structure ReadDir (real : FileSystem → Text → Text) where
  entries : FileSystem → Text → List (Except String Name)
  nodup : ∀ fs t, ((entries fs t).filterMap Except.toOption).Nodup
  named : ∀ fs t n, .ok n ∈ entries fs t → FileName n
  complete : ∀ fs t, (∀ e, .error e ∉ entries fs t) → ∀ n, FileName n →
    fs.found (real fs (append t n)) ≠ none → .ok n ∈ entries fs t

/-- `std::fs` as the import uses it: a call at a text is made at the `real` one. -/
structure StdFs where
  real : FileSystem → Text → Text
  real_congr : ∀ {fs fs' : FileSystem}, fs'.os = fs.os → real fs' = real fs
  /-- `create_dir_all`. -/
  createDirAll : FileSystem → Text → FileSystem × Bool
  edits_createDirAll : ∀ (fs : FileSystem) (t : Text), fs.Edits ∅ (createDirAll fs t).1
  readDir : ReadDir real

/-- The listing of a disk without links, by the texts of the folders. -/
def Listing.readDir (listing : Listing) : ReadDir fun _ t => t where
  entries fs t := listing.entries fs (fs.locate t)
  nodup fs t := listing.nodup fs (fs.locate t)
  named fs t := listing.named fs (fs.locate t)
  complete fs t herror n hn hfound := by
    refine listing.complete fs (fs.locate t) herror n hn ?_
    obtain ⟨x, hx⟩ := Option.ne_none_iff_exists'.mp hfound
    rw [← locate_append hn, FileSystem.node_of_found hx]
    simp

/-- A disk without links. -/
def StdFs.plain (listing : Listing) : StdFs where
  real _ t := t
  real_congr _ := rfl
  createDirAll fs t := fs.mkdirs (fs.locate t)
  edits_createDirAll _ _ := .mkdirs fun _ hn => FileSystem.spelled_of_mem_locate hn
  readDir := listing.readDir

/-- A disk with links. -/
def StdFs.linked (links : Links) (readDir : ReadDir links.real) : StdFs where
  real := links.real
  real_congr := Links.real_congr
  createDirAll := links.mkdirs
  edits_createDirAll := links.edits_mkdirs
  readDir := readDir

/-! ### The import -/

/-- How a call ended, and the disk after it. -/
abbrev Copied := Except String (List String) × FileSystem

/-- The loop of `copy_recursive` over the entries of a folder. -/
def copyEntries (copy : Text → Text → FileSystem → Option Copied) (src dst : Text) :
    List (Except String Name) → FileSystem → Option Copied
  | [], fs => some (.ok [], fs)
  | .error e :: _, fs => some (.error ("Dir entry error: " ++ e), fs)
  | .ok n :: entries, fs =>
    match copy (append src n) (append dst n) fs with
    | none => none
    | some (.error e, fs) => some (.error e, fs)
    | some (.ok sub, fs) =>
      match copyEntries copy src dst entries fs with
      | none => none
      | some (.error e, fs) => some (.error e, fs)
      | some (.ok results, fs) => some (.ok (sub ++ results), fs)

namespace StdFs

variable (std : StdFs)

/-- The branch of `copy_recursive` for a file. -/
def copySingle (base src dst : Text) (fs : FileSystem) : Copied :=
  match std.createDirAll fs (parentPath dst) with
  | (fs, false) =>
    (.error ("Failed to create parent dir: " ++
      fs.os.errorText .mkdir (fs.locate (std.real fs (parentPath dst)))), fs)
  | (fs, true) =>
    match copyFile fs (std.real fs src) (std.real fs dst) with
    | (.error e, fs) => (.error ("Failed to copy " ++ String.ofList src ++ ": " ++ e), fs)
    | (.ok (), fs) =>
      match stripPrefix dst base with
      | none => (.error ("Path " ++ String.ofList dst ++ " is not under sync root"), fs)
      | some rel => (.ok [String.ofList rel], fs)

/-- `copy_recursive`, with calls nested at most as deep as the bound. -/
def copyRecursive (base : Text) : ℕ → Text → Text → FileSystem → Option Copied
  | 0, _, _, _ => none
  | depth + 1, src, dst, fs =>
    match fs.stat (std.real fs src) with
    | .dir =>
      match std.createDirAll fs dst with
      | (fs, false) =>
        some (.error ("Failed to create dir " ++ String.ofList dst ++ ": " ++
          fs.os.errorText .mkdir (fs.locate (std.real fs dst))), fs)
      | (fs, true) =>
        if fs.os.fails .readdir (fs.locate (std.real fs src)) then
          some (.error ("Failed to read dir: " ++
            fs.os.errorText .readdir (fs.locate (std.real fs src))), fs)
        else
          copyEntries (copyRecursive base depth) src dst (std.readDir.entries fs src) fs
    | .file _ => some (std.copySingle base src dst fs)
    | _ => some (.ok [], fs)

/-- `upload_local_file`. The sync root is the one of the connection. -/
def uploadLocalFile (syncRoot absolutePath : String) (depth : ℕ) (fs : FileSystem) :
    Option Copied :=
  let src := absolutePath.toList
  match fileName src with
  | none => some (.error "Invalid file path", fs)
  | some name =>
    let sr := syncRoot.toList
    let dest := append sr name
    match std.createDirAll fs sr with
    | (fs, false) =>
      some (.error ("Failed to create sync root: " ++
        fs.os.errorText .mkdir (fs.locate (std.real fs sr))), fs)
    | (fs, true) => std.copyRecursive sr depth src dest fs

end StdFs

/-- `copy_recursive` on a disk without links. -/
def copyRecursive (listing : Listing) : Text → ℕ → Text → Text → FileSystem → Option Copied :=
  (StdFs.plain listing).copyRecursive

/-- `upload_local_file` on a disk without links. -/
def uploadLocalFile (listing : Listing) : String → String → ℕ → FileSystem → Option Copied :=
  (StdFs.plain listing).uploadLocalFile

/-! ### What a call does -/

section Calls

variable {fs : FileSystem} {src dst : Text}

/-- The destination is not touched, or it is a file afterwards. -/
theorem copyFile_cases : (copyFile fs src dst).2 = fs ∨
    fs.node (fs.locate dst) ≠ some .dir ∧
      ∃ b, (copyFile fs src dst).2 = fs.set (fs.locate dst) (.file b) := by
  unfold copyFile
  split
  · exact .inl rfl
  · exact .inl rfl
  split
  · exact .inl rfl
  next opened hopen =>
  obtain ⟨rfl, hfree⟩ := FileSystem.openTruncate_eq_some hopen
  refine .inr ⟨hfree, ?_⟩
  -- what a copy that fails has copied is at the destination, too
  have htorn : ∀ bytes, ∃ b, (fs.set (fs.locate dst) (.file [])).torn dst 0 bytes =
      fs.set (fs.locate dst) (.file b) := by
    intro bytes
    unfold FileSystem.torn
    split
    · exact ⟨[], rfl⟩
    · rw [FileSystem.set_locate, FileSystem.set_set]
      exact ⟨_, rfl⟩
  extract_lets bytes
  split
  · exact htorn bytes
  split
  · exact htorn bytes
  · next written hwrite =>
    have hset := FileSystem.pwrite_eq_some hwrite
    rw [FileSystem.set_locate, FileSystem.set_set] at hset
    exact ⟨_, hset⟩

/-- What a copy that succeeded has put at the destination. Of a file that is copied to itself
nothing is left when it is read. -/
theorem copyFile_eq_ok {fs' : FileSystem} (h : copyFile fs src dst = (.ok (), fs')) :
    ∃ b, fs.stat src = .file b ∧ fs.canOpenWrite dst = true ∧
      fs' = fs.set (fs.locate dst)
        (.file (if fs.locate src = fs.locate dst then [] else b)) := by
  unfold copyFile at h
  split at h
  · exact absurd (congrArg Prod.fst h) (by simp)
  · exact absurd (congrArg Prod.fst h) (by simp)
  next b hread =>
  have hstat : fs.stat src = .file b := by
    unfold FileSystem.openRead at hread
    split at hread
    · exact absurd hread (by simp)
    split at hread
    · next hstat => rw [hstat, Node.file.inj (Option.some.inj hread)]
    · exact absurd hread (by simp)
    · exact absurd hread (by simp)
  split at h
  · exact absurd (congrArg Prod.fst h) (by simp)
  next opened hopen =>
  obtain ⟨hcan, -⟩ := FileSystem.canOpenWrite_of_openTruncate hopen
  obtain ⟨rfl, hfree⟩ := FileSystem.openTruncate_eq_some hopen
  extract_lets bytes at h
  split at h
  · exact absurd (congrArg Prod.fst h) (by simp)
  split at h
  · exact absurd (congrArg Prod.fst h) (by simp)
  next written hwrite =>
  refine ⟨b, hstat, hcan, ?_⟩
  -- what is read is what the cut has left
  have hcut : (fs.set (fs.locate dst) (.file [])).node (fs.locate dst) = some (.file []) :=
    FileSystem.node_set_self hfree
  have hdata : bytes = if fs.locate src = fs.locate dst then [] else b := by
    change (fs.set (fs.locate dst) (.file [])).bytesAt (fs.locate src) = _
    split
    · next heq => rw [heq, FileSystem.bytesAt_of_file hcut]
    · next heq =>
      apply FileSystem.bytesAt_of_file
      rw [FileSystem.node_set_of_ne heq, FileSystem.node_of_stat hstat]
  have hset := FileSystem.pwrite_eq_some hwrite
  rw [FileSystem.set_locate, hdata, FileSystem.bytesAt_of_file hcut, Blocks.writeAt_zero_nil,
    FileSystem.set_set] at hset
  exact (congrArg Prod.snd h).symm.trans hset

theorem StdFs.copySingle_eq_ok {std : StdFs} {base : Text} {fs' : FileSystem}
    {results : List String} (h : std.copySingle base src dst fs = (.ok results, fs')) :
    ∃ made b rel, (std.createDirAll fs (parentPath dst)).1 = made ∧
      made.stat (std.real fs src) = .file b ∧ made.canOpenWrite (std.real fs dst) = true ∧
      stripPrefix dst base = some rel ∧ results = [String.ofList rel] ∧
      fs' = made.set (made.locate (std.real fs dst))
        (.file (if made.locate (std.real fs src) = made.locate (std.real fs dst) then []
          else b)) := by
  have hos := (std.edits_createDirAll fs (parentPath dst)).os
  unfold copySingle at h
  split at h
  · exact absurd (congrArg Prod.fst h) (by simp)
  next made hmade =>
  rw [hmade] at hos
  rw [std.real_congr hos] at h
  split at h
  · exact absurd (congrArg Prod.fst h) (by simp)
  next copied hcopy =>
  obtain ⟨b, hstat, hopen, hset⟩ := copyFile_eq_ok hcopy
  split at h
  · exact absurd (congrArg Prod.fst h) (by simp)
  next rel hrel =>
  obtain ⟨hresults, rfl⟩ := Prod.mk.inj h
  exact ⟨made, b, rel, congrArg Prod.fst hmade, hstat, hopen, hrel,
    (Except.ok.inj hresults).symm, hset⟩

/-- Once the directory of the destination is made, so is all that is. -/
theorem StdFs.copySingle_cases (std : StdFs) (base src : Text) {made : FileSystem}
    (hmade : (std.createDirAll fs (parentPath dst)).1 = made) :
    (std.copySingle base src dst fs).2 = made ∨
      made.node (fs.locate (std.real fs dst)) ≠ some .dir ∧
        ∃ b, (std.copySingle base src dst fs).2 =
          made.set (fs.locate (std.real fs dst)) (.file b) := by
  have hos : made.os = fs.os := hmade ▸ (std.edits_createDirAll fs (parentPath dst)).os
  have hcopy := @copyFile_cases made (std.real made src) (std.real made dst)
  rw [FileSystem.locate_congr hos, std.real_congr hos] at hcopy
  unfold copySingle
  split
  · next heq =>
    rw [heq] at hmade
    exact .inl hmade
  · next heq =>
    rw [heq] at hmade
    obtain rfl : _ = made := hmade
    rw [std.real_congr hos]
    split
    · next hfile => rwa [hfile] at hcopy
    · next hfile =>
      rw [hfile] at hcopy
      split <;> exact hcopy

theorem StdFs.copyRecursive_file (std : StdFs) (base : Text) (depth : ℕ) (dst : Text)
    {b : List UInt8} (hstat : fs.stat (std.real fs src) = .file b) :
    std.copyRecursive base (depth + 1) src dst fs = some (std.copySingle base src dst fs) := by
  rw [StdFs.copyRecursive, hstat]

/-- What is neither a file nor a folder is passed over. -/
theorem StdFs.copyRecursive_other (std : StdFs) (base : Text) (depth : ℕ) (dst : Text)
    (hdir : fs.stat (std.real fs src) ≠ .dir) (hfile : ∀ b, fs.stat (std.real fs src) ≠ .file b) :
    std.copyRecursive base (depth + 1) src dst fs = some (.ok [], fs) := by
  rw [StdFs.copyRecursive]
  split
  · next hstat => exact absurd hstat hdir
  · next b hstat => exact absurd hstat (hfile b)
  · rfl

/-- A folder whose destination is made, and which can be listed, is copied entry by entry. -/
theorem StdFs.copyRecursive_dir (std : StdFs) (base : Text) (depth : ℕ) (dst : Text)
    {made : FileSystem} (hstat : fs.stat (std.real fs src) = .dir)
    (hmade : (std.createDirAll fs dst).1 = made) :
    ((std.createDirAll fs dst).2 = true ∧
      fs.os.fails .readdir (fs.locate (std.real fs src)) = false ∧
      std.copyRecursive base (depth + 1) src dst fs =
        copyEntries (std.copyRecursive base depth) src dst (std.readDir.entries made src) made) ∨
    (((std.createDirAll fs dst).2 = false ∨
      fs.os.fails .readdir (fs.locate (std.real fs src)) = true) ∧
      ∃ e, std.copyRecursive base (depth + 1) src dst fs = some (.error e, made)) := by
  have hos : made.os = fs.os := hmade ▸ (std.edits_createDirAll fs dst).os
  rw [StdFs.copyRecursive, hstat]
  dsimp only
  split
  · next heq =>
    rw [heq] at hmade ⊢
    obtain rfl : _ = made := hmade
    exact .inr ⟨.inl rfl, _, rfl⟩
  · next heq =>
    rw [heq] at hmade ⊢
    obtain rfl : _ = made := hmade
    rw [FileSystem.locate_congr hos, std.real_congr hos, hos]
    split
    · next hread => exact .inr ⟨.inr hread, _, rfl⟩
    · next hread => exact .inl ⟨rfl, by simpa using hread, rfl⟩

/-- The same on a disk without links. -/
theorem copyRecursive_dir (listing : Listing) (base : Text) (depth : ℕ) (dst : Text)
    {made : FileSystem} (hstat : fs.stat src = .dir)
    (hmade : (fs.mkdirs (fs.locate dst)).1 = made) :
    ((fs.mkdirs (fs.locate dst)).2 = true ∧ fs.os.fails .readdir (fs.locate src) = false ∧
      copyRecursive listing base (depth + 1) src dst fs =
        copyEntries (copyRecursive listing base depth) src dst
          (listing.entries made (made.locate src)) made) ∨
    (((fs.mkdirs (fs.locate dst)).2 = false ∨ fs.os.fails .readdir (fs.locate src) = true) ∧
      ∃ e, copyRecursive listing base (depth + 1) src dst fs = some (.error e, made)) :=
  (StdFs.plain listing).copyRecursive_dir base depth dst hstat hmade

theorem copyRecursive_other (listing : Listing) (base : Text) (depth : ℕ) (dst : Text)
    (hdir : fs.stat src ≠ .dir) (hfile : ∀ b, fs.stat src ≠ .file b) :
    copyRecursive listing base (depth + 1) src dst fs = some (.ok [], fs) :=
  (StdFs.plain listing).copyRecursive_other base depth dst hdir hfile

/-- The loop over the entries keeps what the calls keep, and ends when they do. -/
theorem copyEntries_total {P : FileSystem → Prop}
    {copy : Text → Text → FileSystem → Option Copied} {entries : List (Except String Name)} :
    ∀ {fs : FileSystem}, P fs →
      (∀ n, .ok n ∈ entries → ∀ fs, P fs →
        ∃ copied, copy (append src n) (append dst n) fs = some copied ∧ P copied.2) →
      ∃ copied, copyEntries copy src dst entries fs = some copied ∧ P copied.2 := by
  induction entries with
  | nil => intro fs hfs _; exact ⟨_, rfl, hfs⟩
  | cons entry entries ih =>
    intro fs hfs hcopy
    cases entry with
    | error e => exact ⟨_, rfl, hfs⟩
    | ok n =>
      have hrest : ∀ m, .ok m ∈ entries → ∀ fs, P fs →
          ∃ copied, copy (append src m) (append dst m) fs = some copied ∧ P copied.2 :=
        fun m hm => hcopy m (List.mem_cons_of_mem _ hm)
      obtain ⟨⟨result, fs₁⟩, hfirst, hfs₁⟩ := hcopy n List.mem_cons_self fs hfs
      obtain ⟨⟨result', fs₂⟩, hloop, hfs₂⟩ := ih hfs₁ hrest
      unfold copyEntries
      simp only [hfirst]
      cases result with
      | error e => exact ⟨_, rfl, hfs₁⟩
      | ok sub =>
        simp only [hloop]
        cases result' with
        | error e => exact ⟨_, rfl, hfs₂⟩
        | ok results => exact ⟨_, rfl, hfs₂⟩

end Calls

/-! ### Texts of entries -/

section Texts

variable {fs : FileSystem} {t : Text} {n : Name}

/-- What `file_name` finds is a file name. -/
theorem fileName_of_eq_some (h : fileName t = some n) : FileName n := by
  unfold fileName lastComponent at h
  split at h
  · exact absurd h (by simp)
  next _ m hlast =>
  split at hlast
  · exact absurd hlast (by simp)
  next k before hdrop =>
  obtain ⟨-, rfl⟩ := Prod.mk.inj (Option.some.inj hlast)
  have hmem : k ∈ (names t).reverse := by
    apply (List.dropWhile_suffix fun n => n = [] ∨ n = dot).subset
    rw [hdrop]
    exact List.mem_cons_self
  -- the names that were dropped end before one that is not empty and not `.`
  have hkeep := List.head?_dropWhile_not (fun n : Name => n = [] ∨ n = dot) (names t).reverse
  rw [hdrop] at hkeep
  simp only [List.head?_cons, decide_eq_false_iff_not, not_or] at hkeep
  split at h
  · exact absurd h (by simp)
  · next hup =>
    rw [← Option.some.inj h]
    exact ⟨⟨hkeep.1, hkeep.2, hup⟩, not_mem_of_mem_names (List.mem_reverse.mp hmem)⟩

theorem components_append (hn : FileName n) : components (append t n) = components t ++ [n] := by
  obtain ⟨init, happend, ht⟩ := @names_append_fileName t n hn
  have hkeep : n ≠ [] ∧ n ≠ dot := ⟨hn.1.1, hn.1.2.1⟩
  have hfilter : (names (append t n)).filter (fun m => m ≠ [] ∧ m ≠ dot) =
      (names t).filter (fun m => m ≠ [] ∧ m ≠ dot) ++ [n] := by
    rw [happend, List.filter_append]
    obtain ht | ht := ht
    · simp [ht, hkeep]
    · -- the empty name is no component
      simp [ht, hkeep]
  have hhead : (names (append t n)).head? = some dot ↔ (names t).head? = some dot := by
    rw [happend]
    cases init with
    | nil =>
      have hempty : names t = [[]] := by
        obtain ht | ht := ht
        · exact absurd ht (List.splitOn_ne_nil _ _)
        · exact ht
      rw [hempty]
      refine iff_of_false (fun hc => hkeep.2 (Option.some.inj hc)) ?_
      simp [dot]
    | cons m init =>
      obtain ht | ht := ht <;> simp [ht]
  unfold components
  simp only [hfilter, hhead, isAbsolute_append (isAbsolute_fileName hn)]
  split
  · rfl
  · split <;> rfl

end Texts

/-! ### A listing -/

/-- The names that stand directly below a location. -/
def childNames (fs : FileSystem) (l : Loc) : List Name :=
  (((fs.nodes.keys ++ fs.os.cwd.inits).filterMap fun k =>
    if k.dropLast = l then k.getLast? else none).filter fun n => FileName n).dedup

/-- What is there is recorded, or above the working directory. -/
theorem mem_of_node {fs : FileSystem} {l : Loc} (h : fs.node l ≠ none) :
    l ∈ fs.nodes.keys ++ fs.os.cwd.inits := by
  unfold FileSystem.node at h
  split at h
  · next hcwd => exact List.mem_append_right _ (List.mem_inits _ _ |>.mpr hcwd)
  · exact List.mem_append_left _ (AList.lookup_isSome.mp (Option.isSome_iff_ne_none.mpr h))

theorem mem_childNames {fs : FileSystem} {l : Loc} {n : Name} (hn : FileName n)
    (h : fs.node (l ++ [n]) ≠ none) : n ∈ childNames fs l := by
  refine List.mem_dedup.mpr (List.mem_filter.mpr ⟨?_, by simpa using hn⟩)
  exact List.mem_filterMap.mpr ⟨l ++ [n], mem_of_node h, by simp⟩

/-- The names, with the picked one first if it is there. -/
def namesFirst (pick : Loc → Option Name) (fs : FileSystem) (l : Loc) : List Name :=
  match pick l with
  | none => childNames fs l
  | some n =>
    if n ∈ childNames fs l then n :: (childNames fs l).erase n else childNames fs l

theorem namesFirst_perm (pick : Loc → Option Name) (fs : FileSystem) (l : Loc) :
    (namesFirst pick fs l).Perm (childNames fs l) := by
  unfold namesFirst
  split
  · exact .refl _
  · split
    · next hmem => exact (List.perm_cons_erase hmem).symm
    · exact .refl _

/-- An operating system that lists what is there, the picked name first. -/
def Listing.first (pick : Loc → Option Name) : Listing where
  entries fs l := (namesFirst pick fs l).map .ok
  nodup fs l := by
    have hid : ((namesFirst pick fs l).map fun n => (.ok n : Except String Name)).filterMap
        Except.toOption = namesFirst pick fs l := by
      rw [List.filterMap_map]
      exact List.filterMap_some
    rw [hid]
    exact (namesFirst_perm pick fs l).nodup_iff.mpr (List.nodup_dedup _)
  named fs l n h := by
    simp only [List.mem_map, Except.ok.injEq, exists_eq_right] at h
    have hmem := List.mem_dedup.mp ((namesFirst_perm pick fs l).mem_iff.mp h)
    simpa using (List.mem_filter.mp hmem).2
  complete fs l _ n hn hnode := by
    simp only [List.mem_map, Except.ok.injEq, exists_eq_right]
    exact (namesFirst_perm pick fs l).mem_iff.mpr (mem_childNames hn hnode)

/-- An operating system that lists the names with which something is found, for a disk on which
links have some of finitely many names. -/
def ReadDir.ofNames (links : Links) (linkNames : List Name)
    (hlinks : ∀ l n, n ∉ linkNames →
      links.symbolic (l ++ [n]) = none ∧ links.hard (l ++ [n]) = l ++ [n]) :
    ReadDir links.real where
  entries fs t :=
    ((((fs.nodes.keys ++ fs.os.cwd.inits).filterMap List.getLast? ++ linkNames).filter fun n =>
      FileName n ∧ (fs.found (links.real fs (append t n))).isSome).dedup).map .ok
  nodup fs t := by
    rw [List.filterMap_map]
    exact (List.filterMap_some ▸ List.nodup_dedup _)
  named fs t n h := by
    simp only [List.mem_map, Except.ok.injEq, exists_eq_right] at h
    have hmem := (List.mem_filter.mp (List.mem_dedup.mp h)).2
    simp only [decide_eq_true_eq] at hmem
    exact hmem.1
  complete fs t _ n hn hfound := by
    simp only [List.mem_map, Except.ok.injEq, exists_eq_right]
    refine List.mem_dedup.mpr (List.mem_filter.mpr ⟨?_, ?_⟩)
    · by_cases hmem : n ∈ linkNames
      · exact List.mem_append_right _ hmem
      · -- the name is no link, so it is the last one of the place it leads to
        have hreal : ∃ l, links.real fs (append t n) = Links.textOf (l ++ [n]) false := by
          have hne := @append_fileName_ne_nil t n hn
          have hresolve : links.resolve (fs.base (append t n)) (names (append t n)) ≠ none := by
            intro hc
            apply hfound
            rw [Links.real, if_neg hne, hc]
            rfl
          obtain ⟨l, d, hl⟩ := Links.exists_resolve hn hresolve
          have hend := Links.resolve_append hn hl
            (by rw [Links.linkAt, (hlinks l n hmem).1, ite_self])
          exact ⟨l, by rw [Links.real, if_neg hne, hend]; simp only [(hlinks l n hmem).2]⟩
        obtain ⟨l, hl⟩ := hreal
        obtain ⟨l', hl'⟩ := @Links.locate_textOf_concat fs l n hn
        obtain ⟨x, hx⟩ := Option.ne_none_iff_exists'.mp hfound
        have hnode := FileSystem.node_of_found hx
        rw [hl, hl'] at hnode
        refine List.mem_append_left _ (List.mem_filterMap.mpr ⟨_, mem_of_node (l := l' ++ [n]) ?_,
          List.getLast?_concat⟩)
        rw [hnode]
        simp
    · simpa [Option.isSome_iff_ne_none] using ⟨hn, hfound⟩

end AdaptiveSync
