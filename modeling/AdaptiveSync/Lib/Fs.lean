import Mathlib.Algebra.Ring.Nat
import Mathlib.Data.List.AList
import AdaptiveSync.Lib.Blocks
import AdaptiveSync.Lib.LexPath

/-!
# A file system without links

A tree of directories and regular files, addressed by path texts as a process sees
them: relative to a working directory, `.` and `..` included. There are no links,
neither symbolic nor hard ones: a text has one location (`locate`), found by walking its
names, and a file has one location. (`Lib.Links` puts links on such a disk, for calls that
follow them.) `..` leads up from whatever stands before it, be it there or not.

What the program using the file system cannot determine is the operating system's to
decide and sits in `Os`: the working directory, modification times, how much of a
request one `read` serves, which calls fail at which locations (permissions, quotas,
over-long names, damaged media), and how far a write came that failed. Calls that fail for
a reason visible in the tree (a missing parent, a directory where a file is wanted) fail by
themselves.

Only regular files are renamed here.

A text is a C string here: U+0000 does not end it. A program whose strings may hold U+0000
and which passes them on as they are makes its calls at `cStr t`.

* `stat` and the calls below are total functions of the state; a call that fails
  returns `none` (or `Stat.failed`) and leaves the state alone. Only a write leaves
  something behind when it fails (`torn`).
* `Quiet fs` says that the operating system refuses nothing.
* `node_set_self`, `node_set_of_ne` and their `remove` companions are the frame of every
  operation.
-/

namespace Fs

open LexPath

/-- A location: the names from the root. -/
abbrev Loc := List Name

/-- What a location holds. -/
inductive Node where
  | file (bytes : List UInt8)
  | dir
  deriving DecidableEq

/-- The calls the operating system may refuse. -/
inductive Call where
  | stat | openRead | read | openWrite | write | rename | mkdir | readdir
  deriving DecidableEq

/-- What the operating system decides. -/
structure Os where
  /-- The working directory. -/
  cwd : Loc
  /-- The call fails at the location. -/
  fails : Call → Loc → Bool
  /-- The modification time, in nanoseconds. -/
  mtime : Loc → UInt64
  /-- The size reported for a directory. -/
  dirSize : Loc → UInt64
  /-- How many of the bytes asked for at an offset one `read` hands over. -/
  delivers : Loc → ℕ → ℕ → ℕ
  /-- How many of the bytes of a write at an offset are in the file when it fails. -/
  takes : Loc → ℕ → ℕ → ℕ
  /-- What is printed for a call that failed. -/
  errorText : Call → Loc → String

/-- An operating system that refuses nothing and serves every read in full, at work in the
root directory. -/
def Os.calm : Os where
  cwd := []
  fails _ _ := false
  mtime _ := 0
  dirSize _ := 4096
  delivers _ _ n := n
  takes _ _ _ := 0
  errorText _ _ := ""

/-- A file system. -/
structure FileSystem where
  nodes : AList fun _ : Loc => Node
  os : Os

/-- The largest offset a file can reach, `off_t` being signed. -/
def maxOffset : ℕ := 2 ^ 63

/-- A size below `maxOffset` is not changed by 64 bits. -/
theorem toNat_ofNat_of_lt {n : ℕ} (h : n < maxOffset) : (UInt64.ofNat n).toNat = n := by
  rw [UInt64.toNat_ofNat']
  unfold maxOffset at h
  omega

/-- What `stat` reports. -/
inductive Stat where
  | notFound
  | failed
  | file (bytes : List UInt8)
  | dir
  deriving DecidableEq

namespace FileSystem

variable (fs : FileSystem)

/-- Where walking a text starts. -/
def base (t : Text) : Loc := if isAbsolute t then [] else fs.os.cwd

/-- The location of a text. -/
def locate (t : Text) : Loc := walk true (fs.base t) (names t)

/-- The location of the text's parent path. -/
def parent (t : Text) : Loc := walk true (fs.base t) (names t).dropLast

/-- The location of a call at the parent path of a text that may hold U+0000. -/
def cParent (t : Text) : Loc := fs.locate (cStr (parentPath t))

/-- What a location holds. The working directory and all above it are there. -/
def node (l : Loc) : Option Node :=
  if l <+: fs.os.cwd then some .dir else fs.nodes.lookup l

/-- Put a node at a location. -/
def set (l : Loc) (n : Node) : FileSystem := { fs with nodes := fs.nodes.insert l n }

/-- Clear a location. -/
def remove (l : Loc) : FileSystem := { fs with nodes := fs.nodes.erase l }

/-- The operating system refuses nothing. -/
def Quiet : Prop := ∀ c l, fs.os.fails c l = false

/-- One `read` hands over everything asked for that is there. -/
def FullReads : Prop := ∀ l off n, n ≤ fs.os.delivers l off n

/-! ### Calls -/

/-- `stat(2)`. A text that names a directory by its spelling does not find a file. -/
def stat (t : Text) : Stat :=
  if t = [] then .notFound
  else if fs.os.fails .stat (fs.locate t) then .failed
  else
    match fs.node (fs.locate t) with
    | none => .notFound
    | some .dir => .dir
    -- a file under a text that ends like a directory is not found
    | some (.file b) => if endsInDirectory t then .notFound else .file b

/-- Open for reading. Directories can be opened. -/
def openRead (t : Text) : Option Node :=
  if fs.os.fails .openRead (fs.locate t) then none
  else
    match fs.stat t with
    | .file b => some (.file b)
    | .dir => some .dir
    | _ => none

/-- A regular file can be opened for writing at the text: it names no directory, its
parent is a directory, and the operating system does not object. -/
def canOpenWrite (t : Text) : Bool :=
  t ≠ [] ∧ endsInDirectory t = false ∧ fs.node (fs.parent t) = some .dir ∧
    fs.node (fs.locate t) ≠ some .dir ∧ fs.os.fails .openWrite (fs.locate t) = false

/-- Open for writing, creating the file or cutting it to length zero. -/
def openTruncate (t : Text) : Option FileSystem :=
  if fs.canOpenWrite t then some (fs.set (fs.locate t) (.file [])) else none

/-- Open for reading and writing: the file has to be there. -/
def openUpdate (t : Text) : Bool :=
  fs.canOpenWrite t && (fs.node (fs.locate t)).isSome

/-- Open for reading and writing, creating the file when it is not there. -/
def openCreate (t : Text) : Option FileSystem :=
  if fs.canOpenWrite t then
    match fs.node (fs.locate t) with
    | none => some (fs.set (fs.locate t) (.file []))
    | some _ => some fs
  else none

/-- The bytes of the file at a location, none when there is no file. -/
def bytesAt (l : Loc) : List UInt8 :=
  match fs.node l with
  | some (.file b) => b
  | _ => []

/-- The file at a location, if there is one. -/
def fileAt (l : Loc) : Option (List UInt8) :=
  match fs.node l with
  | some (.file b) => some b
  | _ => none

/-- Write at an offset into the file at the text, which is open. Writing nothing makes no
call. -/
def pwrite (t : Text) (off : ℕ) (data : List UInt8) : Option FileSystem :=
  if data ≠ [] ∧ (fs.os.fails .write (fs.locate t) ∨ maxOffset ≤ off + data.length) then none
  else some (fs.set (fs.locate t)
    (.file (Blocks.writeAt 0 (fs.bytesAt (fs.locate t)) off data)))

/-- The disk after a write that failed: some of the data may be in the file, though not all
of them. A write that would reach past the last offset is refused as a whole. -/
def torn (t : Text) (off : ℕ) (data : List UInt8) : FileSystem :=
  if maxOffset ≤ off + data.length then fs
  else fs.set (fs.locate t) (.file (Blocks.writeAt 0 (fs.bytesAt (fs.locate t)) off
    (data.dropLast.take (fs.os.takes (fs.locate t) off data.length))))

/-- `ftruncate(2)` of the file at the text, which is open: it is cut, or extended with
zeros. -/
def setLength (t : Text) (n : ℕ) : Option FileSystem :=
  if fs.os.fails .write (fs.locate t) ∨ maxOffset ≤ n then none
  else some (fs.set (fs.locate t) (.file (Blocks.resize 0 (fs.bytesAt (fs.locate t)) n)))

/-- `rename(2)` of a regular file. -/
def rename (src dst : Text) : Option FileSystem :=
  match fs.stat src with
  | .file b =>
    if dst ≠ [] ∧ endsInDirectory dst = false ∧ fs.node (fs.parent dst) = some .dir ∧
        fs.node (fs.locate dst) ≠ some .dir ∧ fs.os.fails .rename (fs.locate dst) = false then
      -- what was there is replaced
      some ((fs.remove (fs.locate src)).set (fs.locate dst) (.file b))
    else none
  | _ => none

/-- Create the directories `names` below `done`, first to last. -/
def mkdirsBelow : FileSystem → Loc → List Name → FileSystem × Bool
  | fs, _, [] => (fs, true)
  | fs, done, n :: ns =>
    match fs.node (done ++ [n]) with
    | some .dir => mkdirsBelow fs (done ++ [n]) ns
    -- a file stands in the way
    | some (.file _) => (fs, false)
    | none =>
      if fs.os.fails .mkdir (done ++ [n]) then (fs, false)
      else mkdirsBelow (fs.set (done ++ [n]) .dir) (done ++ [n]) ns

/-- A directory can be made at the location as far as the operating system is concerned. -/
def Creatable (l : Loc) : Prop := fs.node l = none ∧ fs.os.fails .mkdir l = false

/-- Create a directory and all above it. -/
def mkdirs (l : Loc) : FileSystem × Bool :=
  if fs.node l = some .dir then (fs, true) else mkdirsBelow fs [] l

/-- What lies below a location, with the names that lead from it to each. -/
def entriesBelow (l : Loc) : List (List Name × Node) :=
  fs.nodes.entries.filterMap fun e =>
    if l <+: e.1 ∧ l ≠ e.1 then some (e.1.drop l.length, e.2) else none

/-! ### Frames -/

variable {fs}

@[simp] theorem set_os (l : Loc) (n : Node) : (fs.set l n).os = fs.os := rfl

@[simp] theorem remove_os (l : Loc) : (fs.remove l).os = fs.os := rfl

@[simp] theorem set_locate (l : Loc) (n : Node) : (fs.set l n).locate = fs.locate := rfl

@[simp] theorem remove_locate (l : Loc) : (fs.remove l).locate = fs.locate := rfl

@[simp] theorem set_cParent (l : Loc) (n : Node) : (fs.set l n).cParent = fs.cParent := rfl

@[simp] theorem remove_cParent (l : Loc) : (fs.remove l).cParent = fs.cParent := rfl

@[simp] theorem torn_os (t : Text) (off : ℕ) (data : List UInt8) :
    (fs.torn t off data).os = fs.os := by
  unfold torn
  split <;> rfl

/-- Where a text leads depends on the operating system alone. -/
theorem locate_congr {fs' : FileSystem} (h : fs'.os = fs.os) : fs'.locate = fs.locate := by
  funext t
  rw [locate, base, h]
  rfl

theorem parent_congr {fs' : FileSystem} (h : fs'.os = fs.os) : fs'.parent = fs.parent := by
  funext t
  rw [parent, base, h]
  rfl

theorem cParent_congr {fs' : FileSystem} (h : fs'.os = fs.os) : fs'.cParent = fs.cParent := by
  funext t
  rw [cParent, locate_congr h]
  rfl

/-- Directories above the working directory are not where files are put. -/
theorem node_set_self {l : Loc} {n : Node} (h : fs.node l ≠ some .dir) :
    (fs.set l n).node l = some n := by
  unfold node at h ⊢
  by_cases hc : l <+: fs.os.cwd
  · exact absurd (if_pos hc) h
  · rw [set_os, if_neg hc]
    exact AList.lookup_insert _

theorem node_set_of_ne {l l' : Loc} {n : Node} (h : l' ≠ l) :
    (fs.set l n).node l' = fs.node l' := by
  unfold node
  rw [set_os]
  split
  · rfl
  · exact AList.lookup_insert_ne h

theorem node_remove_self {l : Loc} (h : fs.node l ≠ some .dir) : (fs.remove l).node l = none := by
  unfold node at h ⊢
  by_cases hc : l <+: fs.os.cwd
  · exact absurd (if_pos hc) h
  · rw [remove_os, if_neg hc]
    exact AList.lookup_erase _ _

theorem node_remove_of_ne {l l' : Loc} (h : l' ≠ l) : (fs.remove l).node l' = fs.node l' := by
  unfold node
  rw [remove_os]
  split
  · rfl
  · exact AList.lookup_erase_ne h

/-- Of two nodes put at one location the second stays. -/
theorem set_set (l : Loc) (m n : Node) : (fs.set l m).set l n = fs.set l n := by
  simp only [set, AList.insert_insert]

theorem quiet_of_calm (h : fs.os = Os.calm) : fs.Quiet := by
  intro c l
  rw [h]
  rfl

theorem fullReads_of_calm (h : fs.os = Os.calm) : fs.FullReads := by
  intro l off n
  rw [h]
  exact le_refl n

theorem mkdirs_of_dir {l : Loc} (h : fs.node l = some .dir) : fs.mkdirs l = (fs, true) := by
  rw [mkdirs, if_pos h]

theorem bytesAt_of_file {l : Loc} {b : List UInt8} (h : fs.node l = some (.file b)) :
    fs.bytesAt l = b := by
  simp [bytesAt, h]

theorem exists_file {l : Loc} (hsome : fs.node l ≠ none) (hdir : fs.node l ≠ some .dir) :
    ∃ b, fs.node l = some (.file b) := by
  cases h : fs.node l with
  | none => exact absurd h hsome
  | some n =>
    cases n with
    | file b => exact ⟨b, rfl⟩
    | dir => exact absurd h hdir

theorem bytesAt_of_none {l : Loc} (h : fs.node l = none) : fs.bytesAt l = [] := by
  simp [bytesAt, h]

theorem fileAt_eq_some_iff {l : Loc} {b : List UInt8} :
    fs.fileAt l = some b ↔ fs.node l = some (.file b) := by
  unfold fileAt
  split
  · next hnode => rw [hnode]; simp
  · next hnode => exact ⟨fun h => absurd h (by simp), fun h => absurd h (hnode b)⟩

/-! ### What a call that succeeded has done -/

theorem mkdirsBelow_os (ns : List Name) :
    ∀ (fs : FileSystem) (done : Loc), (mkdirsBelow fs done ns).1.os = fs.os := by
  induction ns with
  | nil => intro fs done; rfl
  | cons n ns ih =>
    intro fs done
    unfold mkdirsBelow
    split
    · exact ih _ _
    · rfl
    · split
      · rfl
      · exact ih _ _

theorem mkdirs_os (l : Loc) : (fs.mkdirs l).1.os = fs.os := by
  unfold mkdirs
  split
  · rfl
  · exact mkdirsBelow_os l fs []

theorem openTruncate_eq_some {t : Text} {fs' : FileSystem} (h : fs.openTruncate t = some fs') :
    fs' = fs.set (fs.locate t) (.file []) ∧ fs.node (fs.locate t) ≠ some .dir := by
  unfold openTruncate at h
  split at h
  · next hopen =>
    simp only [canOpenWrite, decide_eq_true_eq] at hopen
    exact ⟨(Option.some.inj h).symm, hopen.2.2.2.1⟩
  · exact absurd h (by simp)

theorem pwrite_eq_some {t : Text} {off : ℕ} {data : List UInt8} {fs' : FileSystem}
    (h : fs.pwrite t off data = some fs') :
    fs' = fs.set (fs.locate t)
      (.file (Blocks.writeAt 0 (fs.bytesAt (fs.locate t)) off data)) := by
  unfold pwrite at h
  split at h
  · exact absurd h (by simp)
  · exact (Option.some.inj h).symm

/-- A file that is there is opened as it is. -/
theorem openCreate_of_file {t : Text} {b : List UInt8} (hopen : fs.canOpenWrite t = true)
    (hnode : fs.node (fs.locate t) = some (.file b)) : fs.openCreate t = some fs := by
  rw [openCreate, if_pos hopen, hnode]

/-- What can be opened for writing is no directory. -/
theorem node_ne_of_canOpenWrite {t : Text} (h : fs.canOpenWrite t = true) :
    fs.node (fs.locate t) ≠ some .dir := by
  simp only [canOpenWrite, decide_eq_true_eq] at h
  exact h.2.2.2.1

/-- A file in the place of one that could be written can be written. -/
theorem canOpenWrite_set {t : Text} (b : List UInt8) (h : fs.canOpenWrite t = true) :
    (fs.set (fs.locate t) (.file b)).canOpenWrite t = true := by
  have hfree := node_ne_of_canOpenWrite h
  unfold canOpenWrite at h ⊢
  rw [decide_eq_true_eq] at h ⊢
  obtain ⟨hne, hleaf, hparent, -, hfails⟩ := h
  refine ⟨hne, hleaf, ?_, ?_, hfails⟩
  · -- the directory is not where the file is
    have hne : fs.parent t ≠ fs.locate t := fun hc => hfree (hc ▸ hparent)
    rw [parent_congr (set_os _ _), node_set_of_ne hne]
    exact hparent
  · rw [set_locate, node_set_self hfree]
    simp

/-- What is opened for writing could be, and stays open. -/
theorem canOpenWrite_of_openTruncate {t : Text} {fs' : FileSystem}
    (h : fs.openTruncate t = some fs') :
    fs.canOpenWrite t = true ∧ fs'.canOpenWrite t = true := by
  unfold openTruncate at h
  split at h
  · next hopen =>
    rw [← Option.some.inj h]
    exact ⟨hopen, canOpenWrite_set [] hopen⟩
  · exact absurd h (by simp)

/-- A file that was found is at its location. -/
theorem node_of_stat {t : Text} {b : List UInt8} (h : fs.stat t = .file b) :
    fs.node (fs.locate t) = some (.file b) := by
  unfold stat at h
  split at h
  · exact absurd h (by simp)
  split at h
  · exact absurd h (by simp)
  split at h
  · exact absurd h (by simp)
  · exact absurd h (by simp)
  · next hnode =>
    split at h
    · exact absurd h (by simp)
    · rw [hnode, Stat.file.inj h]

theorem stat_eq_dir_iff {t : Text} : fs.stat t = .dir ↔
    t ≠ [] ∧ fs.os.fails .stat (fs.locate t) = false ∧ fs.node (fs.locate t) = some .dir := by
  unfold stat
  split
  · next h => simp [h]
  next hne =>
  split
  · next h => simp [h]
  next hstat =>
  split
  · next h => simp [h]
  · next h => simp [h, hne, hstat]
  · next h =>
    rw [h]
    split <;> simp

/-- A file at its location is found. -/
theorem stat_of_node {t : Text} {b : List UInt8} (hne : t ≠ []) (hleaf : endsInDirectory t = false)
    (hstat : fs.os.fails .stat (fs.locate t) = false)
    (hnode : fs.node (fs.locate t) = some (.file b)) : fs.stat t = .file b := by
  simp [stat, hne, hstat, hnode, hleaf]

/-- A file that was cut and written to holds the data. -/
theorem node_of_truncate_pwrite {t : Text} {data : List UInt8} {opened written : FileSystem}
    (hopen : fs.openTruncate t = some opened) (hwrite : opened.pwrite t 0 data = some written) :
    written.node (fs.locate t) = some (.file data) ∧ written.os = fs.os := by
  obtain ⟨rfl, hfree⟩ := openTruncate_eq_some hopen
  obtain rfl := pwrite_eq_some hwrite
  have hnode : (fs.set (fs.locate t) (.file [])).node (fs.locate t) = some (.file []) :=
    node_set_self hfree
  refine ⟨?_, rfl⟩
  rw [set_locate, set_set, node_set_self hfree, bytesAt_of_file hnode, Blocks.writeAt_zero_nil]

/-- A rename moves the file it finds to a place that can hold one. -/
theorem rename_eq_some {src dst : Text} {fs' : FileSystem} (h : fs.rename src dst = some fs') :
    ∃ b, fs.stat src = .file b ∧ dst ≠ [] ∧ endsInDirectory dst = false ∧
      fs.node (fs.locate dst) ≠ some .dir ∧
      fs' = (fs.remove (fs.locate src)).set (fs.locate dst) (.file b) := by
  unfold rename at h
  split at h
  · next b hb =>
    split at h
    · next hdst => exact ⟨b, hb, hdst.1, hdst.2.1, hdst.2.2.2.1, (Option.some.inj h).symm⟩
    · exact absurd h (by simp)
  · exact absurd h (by simp)

/-- What a rename has moved is found in its new place. -/
theorem stat_of_rename {src dst : Text} {fs' : FileSystem} (hquiet : fs.Quiet)
    (h : fs.rename src dst = some fs') :
    ∃ b, fs.stat src = .file b ∧ fs'.stat dst = .file b ∧ fs'.os = fs.os := by
  obtain ⟨b, hb, hne, hleaf, hdst, rfl⟩ := rename_eq_some h
  refine ⟨b, hb, stat_of_node hne hleaf (hquiet .stat _) (node_set_self ?_), rfl⟩
  -- the place is free once the file has left its old one
  by_cases heq : fs.locate dst = fs.locate src
  · rw [heq, node_remove_self (heq ▸ hdst)]
    simp
  · rwa [node_remove_of_ne heq]

/-! ### Files that are left alone -/

/-- Outside `S` the same files are there, with the same content. Directories may have been
made. -/
structure FilesAgree (S : Set Loc) (fs fs' : FileSystem) : Prop where
  os : fs'.os = fs.os
  file : ∀ l ∉ S, ∀ b, fs'.node l = some (.file b) ↔ fs.node l = some (.file b)

namespace FilesAgree

variable {S S' : Set Loc} {fs' fs'' : FileSystem}

theorem refl (S : Set Loc) (fs : FileSystem) : FilesAgree S fs fs := ⟨rfl, fun _ _ _ => Iff.rfl⟩

theorem trans (h : FilesAgree S fs fs') (h' : FilesAgree S fs' fs'') : FilesAgree S fs fs'' :=
  ⟨h'.os.trans h.os, fun l hl b => (h'.file l hl b).trans (h.file l hl b)⟩

theorem mono (h : FilesAgree S fs fs') (hS : S ⊆ S') : FilesAgree S' fs fs' :=
  ⟨h.os, fun l hl => h.file l fun hc => hl (hS hc)⟩

theorem fileAt (h : FilesAgree S fs fs') {l : Loc} (hl : l ∉ S) : fs'.fileAt l = fs.fileAt l := by
  apply Option.ext
  intro b
  exact fileAt_eq_some_iff.trans ((h.file l hl b).trans fileAt_eq_some_iff.symm)

theorem set {l : Loc} (n : Node) (hl : l ∈ S) : FilesAgree S fs (fs.set l n) := by
  refine ⟨rfl, fun l' hl' b => ?_⟩
  have hne : l' ≠ l := fun hc => hl' (by rwa [hc])
  rw [node_set_of_ne hne]

theorem remove {l : Loc} (hl : l ∈ S) : FilesAgree S fs (fs.remove l) := by
  refine ⟨rfl, fun l' hl' b => ?_⟩
  have hne : l' ≠ l := fun hc => hl' (by rwa [hc])
  rw [node_remove_of_ne hne]

end FilesAgree

/-- Outside `S` nothing has changed, but that directories were made at locations of `D`. -/
structure Grows (S D : Set Loc) (fs fs' : FileSystem) : Prop where
  os : fs'.os = fs.os
  node : ∀ l ∉ S, fs'.node l = fs.node l ∨ l ∈ D ∧ fs.node l = none ∧ fs'.node l = some .dir

namespace Grows

variable {S S' D D' : Set Loc} {fs' fs'' : FileSystem}

theorem refl (S D : Set Loc) (fs : FileSystem) : Grows S D fs fs := ⟨rfl, fun _ _ => .inl rfl⟩

theorem trans (h : Grows S D fs fs') (h' : Grows S D fs' fs'') : Grows S D fs fs'' := by
  refine ⟨h'.os.trans h.os, fun l hl => ?_⟩
  obtain hsame | ⟨hD, hnone, hdir⟩ := h'.node l hl
  · rw [hsame]
    exact h.node l hl
  · -- what is made last was not there before
    obtain hsame | ⟨-, -, hdir'⟩ := h.node l hl
    · exact .inr ⟨hD, hsame ▸ hnone, hdir⟩
    · exact absurd (hdir'.symm.trans hnone) (by simp)

theorem mono (h : Grows S D fs fs') (hS : S ⊆ S') (hD : D ⊆ D') : Grows S' D' fs fs' :=
  ⟨h.os, fun l hl => (h.node l fun hc => hl (hS hc)).imp_right fun ⟨hmem, hmade⟩ =>
    ⟨hD hmem, hmade⟩⟩

theorem set {l : Loc} (n : Node) (hl : l ∈ S) : Grows S D fs (fs.set l n) :=
  ⟨rfl, fun _ hl' => .inl (node_set_of_ne fun hc => hl' (hc ▸ hl))⟩

theorem remove {l : Loc} (hl : l ∈ S) : Grows S D fs (fs.remove l) :=
  ⟨rfl, fun _ hl' => .inl (node_remove_of_ne fun hc => hl' (hc ▸ hl))⟩

/-- Where there was a file, or none, outside `S` it is as before. -/
theorem filesAgree (h : Grows S D fs fs') : FilesAgree S fs fs' := by
  refine ⟨h.os, fun l hl b => ?_⟩
  obtain hsame | ⟨-, hnone, hdir⟩ := h.node l hl
  · rw [hsame]
  · rw [hnone, hdir]
    simp

theorem dir (h : Grows S D fs fs') {l : Loc} (hl : l ∉ S) (hdir : fs.node l = some .dir) :
    fs'.node l = some .dir := by
  obtain hsame | ⟨-, -, hmade⟩ := h.node l hl
  · exact hsame.trans hdir
  · exact hmade

end Grows

/-- A directory is made only on the way to the one that is wanted, where nothing is and the
operating system does not object. -/
theorem node_mkdirsBelow (l : Loc) (ns : List Name) :
    ∀ (fs : FileSystem) (done : Loc), (mkdirsBelow fs done ns).1.node l = fs.node l ∨
      (∃ r, r <+: ns ∧ l = done ++ r) ∧ fs.Creatable l ∧
        (mkdirsBelow fs done ns).1.node l = some .dir := by
  induction ns with
  | nil => intro fs done; exact .inl rfl
  | cons n ns ih =>
    intro fs done
    -- what is on the way from the next directory is on the way from this one
    have hway : ∀ {r}, r <+: ns ∧ l = done ++ [n] ++ r → n :: r <+: n :: ns ∧ l = done ++ n :: r :=
      fun h => ⟨List.cons_prefix_cons.mpr ⟨rfl, h.1⟩, h.2.trans (List.append_cons _ _ _).symm⟩
    unfold mkdirsBelow
    split
    · exact (ih _ _).imp_right fun ⟨⟨r, h⟩, hmade⟩ => ⟨⟨n :: r, hway h⟩, hmade⟩
    · exact .inl rfl
    · next hnone =>
      split
      · exact .inl rfl
      next hmkdir =>
      by_cases hl : l = done ++ [n]
      · -- what was made stays
        subst hl
        have hset : (fs.set (done ++ [n]) .dir).node (done ++ [n]) = some .dir :=
          node_set_self (by simp [hnone])
        refine .inr ⟨⟨[n], by simp, rfl⟩, ⟨hnone, by simpa using hmkdir⟩, ?_⟩
        obtain h | ⟨-, h⟩ := ih (fs.set (done ++ [n]) .dir) (done ++ [n])
        · exact h.trans hset
        · exact h.2
      · have hset : (fs.set (done ++ [n]) .dir).node l = fs.node l := node_set_of_ne hl
        obtain h | ⟨⟨r, h⟩, ⟨hfree, hmkdir'⟩, hdir⟩ :=
          ih (fs.set (done ++ [n]) .dir) (done ++ [n])
        · exact .inl (h.trans hset)
        · exact .inr ⟨⟨n :: r, hway h⟩, ⟨hset ▸ hfree, hmkdir'⟩, hdir⟩

theorem node_mkdirs_eq_or_made (l l' : Loc) : (fs.mkdirs l).1.node l' = fs.node l' ∨
    l' <+: l ∧ fs.Creatable l' ∧ (fs.mkdirs l).1.node l' = some .dir := by
  unfold mkdirs
  split
  · exact .inl rfl
  · exact (node_mkdirsBelow l' l fs []).imp_right fun ⟨⟨r, hr, h⟩, hmade⟩ => ⟨h ▸ hr, hmade⟩

theorem node_mkdirs (l l' : Loc) : (fs.mkdirs l).1.node l' = fs.node l' ∨
    fs.node l' = none ∧ (fs.mkdirs l).1.node l' = some .dir :=
  (node_mkdirs_eq_or_made l l').imp_right fun ⟨_, hmade, hdir⟩ => ⟨hmade.1, hdir⟩

theorem grows_mkdirs (S : Set Loc) (l : Loc) : Grows S {d | d <+: l} fs (fs.mkdirs l).1 :=
  ⟨mkdirs_os l, fun l' _ => (node_mkdirs_eq_or_made l l').imp_right fun ⟨hway, hmade, hdir⟩ =>
    ⟨hway, hmade.1, hdir⟩⟩

/-- The directory that was to be made is there. -/
theorem node_of_mkdirsBelow (ns : List Name) :
    ∀ (fs : FileSystem) (done : Loc), fs.node done = some .dir →
      (mkdirsBelow fs done ns).2 = true →
        (mkdirsBelow fs done ns).1.node (done ++ ns) = some .dir := by
  induction ns with
  | nil =>
    intro fs done hdone _
    rw [List.append_nil]
    exact hdone
  | cons n ns ih =>
    intro fs done hdone h
    rw [List.append_cons]
    unfold mkdirsBelow at h ⊢
    split at h
    · next hdir => exact ih fs _ hdir h
    · exact absurd h (by simp)
    · next hnone =>
      split at h
      · exact absurd h (by simp)
      · next hmkdir =>
        rw [if_neg hmkdir]
        exact ih _ _ (node_set_self (by simp [hnone])) h

theorem node_of_mkdirs {l : Loc} (h : (fs.mkdirs l).2 = true) :
    (fs.mkdirs l).1.node l = some .dir := by
  unfold mkdirs at h ⊢
  split
  · next hdir => exact hdir
  · next hdir =>
    rw [if_neg hdir] at h
    exact node_of_mkdirsBelow l fs [] (if_pos List.nil_prefix) h

/-- A directory can be made when every directory on the way is there or can be made. -/
theorem mkdirsBelow_succeeds (ns : List Name) :
    ∀ (fs : FileSystem) (done : Loc),
      (∀ r, r ≠ [] → r <+: ns → fs.node (done ++ r) = some .dir ∨ fs.Creatable (done ++ r)) →
        (mkdirsBelow fs done ns).2 = true := by
  induction ns with
  | nil => intro fs done _; rfl
  | cons n ns ih =>
    intro fs done h
    have hfirst := h [n] (by simp) (by simp)
    have hrest : ∀ r, r ≠ [] → r <+: ns → fs.node (done ++ [n] ++ r) = some .dir ∨
        fs.Creatable (done ++ [n] ++ r) := by
      intro r _ hr
      rw [← List.append_cons]
      exact h (n :: r) (by simp) (List.cons_prefix_cons.mpr ⟨rfl, hr⟩)
    unfold mkdirsBelow
    obtain hdir | ⟨hnone, hmkdir⟩ := hfirst
    · rw [hdir]
      exact ih fs _ hrest
    · simp only [hnone, hmkdir, Bool.false_eq_true, if_false]
      refine ih _ _ fun r hr hbegin => ?_
      -- the places further on are as they were
      have hset : (fs.set (done ++ [n]) .dir).node (done ++ [n] ++ r) =
          fs.node (done ++ [n] ++ r) := node_set_of_ne (by simpa using hr)
      unfold Creatable
      rw [hset]
      exact hrest r hr hbegin

theorem mkdirs_succeeds {l : Loc}
    (h : ∀ p, p <+: l → fs.node p = some .dir ∨ fs.Creatable p) : (fs.mkdirs l).2 = true := by
  unfold mkdirs
  split
  · rfl
  · exact mkdirsBelow_succeeds l fs [] fun r _ hr => h r hr

theorem mkdirs_locate (l : Loc) : (fs.mkdirs l).1.locate = fs.locate := locate_congr (mkdirs_os l)

theorem filesAgree_mkdirs (l : Loc) : FilesAgree ∅ fs (fs.mkdirs l).1 := by
  refine ⟨mkdirs_os l, fun l' _ b => ?_⟩
  obtain h | ⟨hnone, hdir⟩ := fs.node_mkdirs l l'
  · rw [h]
  · rw [hnone, hdir]
    simp

theorem fileAt_set {l : Loc} (hfree : fs.node l ≠ some .dir) (b : List UInt8) :
    (fs.set l (.file b)).fileAt = Function.update fs.fileAt l (some b) := by
  funext l'
  by_cases heq : l' = l
  · rw [heq, Function.update_self]
    exact fileAt_eq_some_iff.mpr (node_set_self hfree)
  · rw [Function.update_of_ne heq]
    unfold fileAt
    rw [node_set_of_ne heq]

/-! ### A disk with one file -/

/-- A directory with at most one file in it, and nothing else. -/
def single (dir name : Name) (content : Option (List UInt8)) : FileSystem where
  nodes :=
    match content with
    | none => (∅ : AList _).insert [dir] .dir
    | some b => ((∅ : AList _).insert [dir] .dir).insert [dir, name] (.file b)
  os := Os.calm

theorem node_single (dir name : Name) (content : Option (List UInt8)) (l : Loc) :
    (single dir name content).node l =
      if l = [] then some .dir else if l = [dir] then some .dir
      else if l = [dir, name] then content.map .file else none := by
  have hcwd : l <+: (single dir name content).os.cwd ↔ l = [] := List.prefix_nil
  have hlook : ∀ l : Loc, ((∅ : AList fun _ : Loc => Node).insert [dir] .dir).lookup l =
      if l = [dir] then some .dir else none := by
    intro l
    split
    · next h => rw [h, AList.lookup_insert]
    · next h => rw [AList.lookup_insert_ne h, AList.lookup_empty]
  unfold node
  simp only [hcwd]
  split
  · rfl
  cases content with
  | none =>
    simp only [single, hlook, Option.map_none, ite_self]
  | some b =>
    simp only [single, Option.map_some]
    by_cases hf : l = [dir, name]
    · rw [hf, AList.lookup_insert]
      simp
    · rw [AList.lookup_insert_ne hf, hlook, if_neg hf]

theorem node_single_ne_dir (dir name : Name) (content : Option (List UInt8)) (n : Name) :
    (single dir name content).node [dir, n] ≠ some .dir := by
  rw [node_single, if_neg (by simp), if_neg (by simp)]
  split
  · cases content <;> simp
  · simp

/-! ### Scratch names

A scratch file is named by putting a suffix to the text of the file it is for. -/

theorem endsInDirectory_append (t : Text) {s : Text} (hs : '/' ∉ s) (hlen : 2 < s.length) :
    endsInDirectory (t ++ s) = false := by
  obtain ⟨init, last, -, h₂⟩ := names_append_of_not_mem t hs
  -- the last name is too long to be empty, `.` or `..`
  have hlong : 2 < (last ++ s).length := by simp; omega
  have h₁ : last ++ s ≠ [] := fun h => by simp [h] at hlong
  have h₃ : last ++ s ≠ dot := fun h => by simp [h, dot] at hlong
  have h₄ : last ++ s ≠ dotdot := fun h => by simp [h, dotdot] at hlong
  simp only [endsInDirectory, h₂, List.getLast?_append, List.getLast?_singleton, Option.some_or]
  simp [h₁, h₃, h₄]

theorem proper_of_long {n : Name} (h : 2 < n.length) : Proper n := by
  refine ⟨?_, ?_, ?_⟩ <;> rintro rfl <;> simp [dot, dotdot] at h

theorem base_append (t : Text) {s : Text} (hs : '/' ∉ s) : fs.base (t ++ s) = fs.base t := by
  cases t with
  | nil =>
    have hrel : isAbsolute s = false := by
      cases s with
      | nil => rfl
      | cons c s =>
        have hc : c ≠ '/' := fun hc => hs (hc ▸ List.mem_cons_self)
        simp [isAbsolute, hc]
    rw [List.nil_append, base, hrel]
    rfl
  | cons c t => rfl

/-- A text that does not end in a directory's spelling is its parent and one more
name. -/
theorem locate_eq_parent_append {t : Text} (h : endsInDirectory t = false) :
    ∃ n, fs.locate t = fs.parent t ++ [n] ∧ (names t).getLast? = some n := by
  have hne : names t ≠ [] := List.splitOn_ne_nil _ _
  refine ⟨(names t).getLast hne, ?_, List.getLast?_eq_some_getLast hne⟩
  have hlast : Proper ((names t).getLast hne) := by
    simp only [endsInDirectory, List.getLast?_eq_some_getLast hne, decide_eq_false_iff_not,
      not_or] at h
    exact h
  unfold locate parent
  conv_lhs => rw [← List.dropLast_append_getLast hne]
  rw [walk_append]
  exact push_proper true _ hlast

/-- The scratch file stands in the same directory as the file. -/
theorem parent_append {t s : Text} (hs : '/' ∉ s) :
    fs.parent (t ++ s) = fs.parent t := by
  obtain ⟨init, last, h₁, h₂⟩ := names_append_of_not_mem t hs
  unfold parent
  rw [base_append t hs, h₁, h₂, List.dropLast_concat, List.dropLast_concat]

/-! ### Texts with U+0000 -/

theorem base_parentPath (t : Text) : fs.base (parentPath t) = fs.base t := by
  rw [base, base, isAbsolute_parentPath]

/-- The parent path leads to the parent. -/
theorem locate_parentPath (t : Text) : fs.locate (parentPath t) = fs.parent t := by
  rw [locate, parent, base_parentPath, names_parentPath, walk_append]
  -- the empty name is skipped
  rfl

/-- Where U+0000 stands in the last name, calls at the text and at its parent path see the
same directory. -/
theorem cParent_of_not_mem {t : Text} (h : nul ∉ parentPath t) :
    fs.cParent t = fs.parent (cStr t) := by
  rw [cParent, cStr_of_not_mem h, ← parentPath_cStr h, locate_parentPath]

/-- Where U+0000 stands before the last name, a call at the parent path is one at the text. -/
theorem cParent_of_mem {t : Text} (h : nul ∈ parentPath t) :
    fs.cParent t = fs.locate (cStr t) := by
  rw [cParent, cStr_parentPath_of_mem h]

/-- The location of an absolute text is its normal form. -/
theorem locate_of_isAbsolute {t : Text} (h : isAbsolute t = true) :
    fs.locate t = normalNames t := by
  rw [locate, base, if_pos h, normalNames, h]

/-- What lies inside an absolute root by its text lies below it. -/
theorem locate_prefix_of_inside {root t : Text} (habs : isAbsolute t = true)
    (h : Inside root t) : fs.locate root <+: fs.locate t := by
  rw [locate_of_isAbsolute habs, locate_of_isAbsolute (h.1.symm.trans habs)]
  exact h.2.1

/-- What goes down from a root lies below it. -/
theorem locate_prefix_append (root : Text) {c : Text} (h : Downward c) :
    fs.locate root <+: fs.locate (append root c) := by
  have hbase : fs.base (append root c) = fs.base root := by rw [base, base, isAbsolute_append h.1]
  rw [locate, locate, hbase, walk_names_append h.1]
  exact h.prefix_walk true _

/-- A scratch file is not the file it is for. -/
theorem locate_append_ne {t s : Text} (hs : '/' ∉ s) (hlen : 2 < s.length) :
    fs.locate (t ++ s) ≠ fs.locate t := by
  obtain ⟨init, last, h₁, h₂⟩ := names_append_of_not_mem t hs
  have hlong : Proper (last ++ s) := proper_of_long (by simp; omega)
  unfold locate
  rw [base_append t hs, h₁, h₂, walk_append, walk_append]
  change LexPath.push true _ (last ++ s) ≠ LexPath.push true _ last
  rw [push_proper true _ hlong]
  intro hc
  have hcount := congrArg List.length hc
  -- walking `last` adds no name, or adds one other than `last ++ s`
  unfold LexPath.push at hc hcount
  split at hcount
  · simp at hcount
  next hskip =>
  rw [if_neg hskip] at hc
  split at hcount
  · next hup =>
    rw [if_pos hup] at hc
    split at hcount
    · simp at hcount
    · next top htop =>
      simp only [htop] at hc
      split at hcount
      · next hdd =>
        rw [if_pos hdd] at hc
        exact hlong.2.2 (List.singleton_inj.mp (List.append_cancel_left hc))
      · simp at hcount
        omega
  · next hup =>
    rw [if_neg hup] at hc
    have hsame := List.singleton_inj.mp (List.append_cancel_left hc)
    have := congrArg List.length hsame
    simp at this
    simp [this] at hlen

end FileSystem

end Fs
