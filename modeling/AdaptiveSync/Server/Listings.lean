import AdaptiveSync.Server.Leftovers

/-!
# The two listings of a store

`list_files` has two loops. The recursive one skips what has the extension `.tmp`, the other
one skips nothing, so the scratch file of a file in the storage root shows up in it for as
long as the transfer lasts, or for good when the transfer was left. And a scratch file whose
whole name is `.tmp`, as that of the path `d/` is, has no extension and shows up in both.

A file is `Stray` when it shows up like this. The two listings of a store agree exactly when
no file that matches the prefix is stray (`listingsAgree_iff`).

A listing takes no lock, so it also meets the store in the middle of a frame of another session,
between the write of a scratch file and the rename. A store without stray files stays so, at
every moment, as long as every frame is `Settled`: neither the file it writes for nor the scratch
file would be at such a place (`listings_agree_of_settled`).
-/

namespace AdaptiveSync

open Fs LexPath Blocks

/-! ### Agreement -/

/-- The listing has an entry of this path and size. -/
def Lists (infos : List FileInfo) (relativePath : String) (fileSize : UInt64) : Prop :=
  ∃ info ∈ infos, info.relativePath = relativePath ∧ info.fileSize = fileSize

/-- What the listing of the root shows is what the recursive listing shows without a
separator, and neither shows a file whose name ends in `.tmp`. -/
def ListingsAgree (sha256 : Bytes → String) (fm : FileManager) (fs : FileSystem)
    (namePrefix : String) : Prop :=
  ∀ direct deep, fm.listFiles sha256 fs namePrefix false = .ok direct →
    fm.listFiles sha256 fs namePrefix true = .ok deep →
      (∀ relativePath fileSize, Lists direct relativePath fileSize ↔
        Lists deep relativePath fileSize ∧ '/' ∉ relativePath.toList) ∧
      ∀ info ∈ direct ++ deep, ¬ tmpSuffix <:+ info.relativePath.toList

/-- A file with these names below the root shows up though its name ends in `.tmp`. -/
def StrayName (names : List Name) : Prop :=
  tmpSuffix <:+ names.getLastD [] ∧ (names.length = 1 ∨ names.getLastD [] = tmpSuffix)

/-- The file at the location shows up though its name ends in `.tmp`. -/
def Stray (fm : FileManager) (fs : FileSystem) (l : Loc) : Prop :=
  ∃ names, l = fs.locate fm.root ++ names ∧ StrayName names

/-- The prefix lets the file at these names through. -/
def HasPrefix (namePrefix : String) (names : List Name) : Prop :=
  namePrefix.toList ≠ [] →
    (FileManager.relativeText names).toList.take namePrefix.toList.length = namePrefix.toList

/-! ### Paths of entries -/

section Names

variable {names : List Name}

theorem extension_eq_tmpSuffix_iff {n : Name} :
    extension n = tmpSuffix ↔ tmpSuffix <:+ n ∧ n ≠ tmpSuffix := by
  rw [show tmpSuffix = '.' :: "tmp".toList from rfl,
    extension_eq_cons_iff (by decide) (by decide)]
  constructor
  · rintro ⟨stem, hstem, rfl⟩
    exact ⟨List.suffix_append _ _, fun hc => hstem (List.append_left_eq_self.mp hc)⟩
  · rintro ⟨⟨stem, rfl⟩, hne⟩
    refine ⟨stem, ?_, rfl⟩
    rintro rfl
    exact hne rfl

theorem relativeText_singleton (n : Name) : (FileManager.relativeText [n]).toList = n := by
  simp [FileManager.relativeText]

theorem relativeText_concat (init : List Name) (last : Name) (hinit : init ≠ []) :
    (FileManager.relativeText (init ++ [last])).toList =
      (FileManager.relativeText init).toList ++ '/' :: last := by
  simp only [FileManager.relativeText, String.toList_ofList]
  induction init with
  | nil => exact absurd rfl hinit
  | cons n ns ih =>
    cases ns with
    | nil => simp [List.intercalate_cons_cons]
    | cons m ms =>
      have hrest := ih (by simp)
      simp only [List.cons_append, List.intercalate_cons_cons] at hrest ⊢
      rw [hrest]
      simp

/-- Only an entry of the root itself has a path without a separator. -/
theorem not_mem_relativeText_iff (hne : names ≠ []) (hnames : ∀ n ∈ names, FileName n) :
    '/' ∉ (FileManager.relativeText names).toList ↔ names.length = 1 := by
  obtain ⟨init, last, rfl⟩ := (List.eq_nil_or_concat' names).resolve_left hne
  have hlast := (hnames last (by simp)).2
  by_cases hinit : init = []
  · subst hinit
    simp [relativeText_singleton, hlast]
  · rw [relativeText_concat init last hinit]
    have hlen : init.length ≠ 0 := fun hc => hinit (List.length_eq_zero_iff.mp hc)
    simp [hlen]

/-- A path ends in `.tmp` when its last name does. -/
theorem tmpSuffix_suffix_relativeText_iff (hne : names ≠ []) :
    tmpSuffix <:+ (FileManager.relativeText names).toList ↔ tmpSuffix <:+ names.getLastD [] := by
  obtain ⟨init, last, rfl⟩ := (List.eq_nil_or_concat' names).resolve_left hne
  rw [List.getLastD_concat]
  by_cases hinit : init = []
  · subst hinit
    rw [List.nil_append, relativeText_singleton]
  · rw [relativeText_concat init last hinit]
    constructor
    · intro h
      obtain h' | h' := List.suffix_or_suffix_of_suffix h
        (List.suffix_append (FileManager.relativeText init).toList ('/' :: last))
      · rcases List.suffix_cons_iff.mp h' with heq | h'
        · exact absurd heq (by simp [tmpSuffix])
        · exact h'
      · -- a separator would have to be in it
        have hsep : '/' ∈ tmpSuffix := h'.subset List.mem_cons_self
        exact absurd hsep (by decide)
    · intro h
      exact (h.trans (List.suffix_cons '/' last)).trans (List.suffix_append _ _)

end Names

/-! ### What a listing lists -/

section Listings

variable {sha256 : Bytes → String} {fm : FileManager} {fs : FileSystem} {namePrefix : String}
  {recursive : Bool}

theorem listed_iff {names : List Name} : Listed namePrefix recursive names ↔
    (recursive = true → ¬ (tmpSuffix <:+ names.getLastD [] ∧ names.getLastD [] ≠ tmpSuffix)) ∧
      HasPrefix namePrefix names := by
  rw [Listed, extension_eq_tmpSuffix_iff, not_and]
  rfl

/-- One round of either loop. -/
theorem listEntry_eq_some_iff {root : Loc} {names : List Name} {x : Node} {r : Option FileInfo}
    (h : fm.listEntry sha256 fs namePrefix recursive root (names, x) = .ok r)
    (relativePath : String) (fileSize : UInt64) :
    (∃ info, r = some info ∧ info.relativePath = relativePath ∧ info.fileSize = fileSize) ↔
      ∃ b, x = .file b ∧ Listed namePrefix recursive names ∧
        FileManager.relativeText names = relativePath ∧ UInt64.ofNat b.length = fileSize := by
  unfold FileManager.listEntry at h
  cases hstat : fs.os.fails .stat (root ++ names) with
  | true => exact absurd h (by simp [hstat])
  | false =>
    simp only [hstat, Bool.false_eq_true, if_false, pure_bind] at h
    cases x with
    | dir =>
      simp only at h
      split at h
      · exact absurd h (by simp)
      · rw [← Except.ok.inj h]
        simp
    | file b =>
      simp only [Bool.and_eq_true, decide_eq_true_eq, Bool.not_eq_true',
        List.isEmpty_eq_false_iff] at h
      split at h
      · next hskip =>
        have hnot : ¬ Listed namePrefix recursive names := fun hl => hl.1 hskip
        rw [← Except.ok.inj h]
        simp [hnot]
      split at h
      · next hother =>
        have hnot : ¬ Listed namePrefix recursive names :=
          fun hl => hother.2 (hl.2 hother.1)
        rw [← Except.ok.inj h]
        simp [hnot]
      · next hskip hother =>
        rw [not_and, not_not] at hother
        have hlisted : Listed namePrefix recursive names := ⟨hskip, hother⟩
        obtain ⟨mtime, -, h⟩ := Except.bind_eq_ok_iff.mp h
        -- only the loop over the root itself hashes the file
        split at h
        · rw [← Except.ok.inj h]
          simp [hlisted]
        · obtain ⟨hash, -, h⟩ := Except.bind_eq_ok_iff.mp h
          rw [← Except.ok.inj h]
          simp [hlisted]

/-- **What a listing lists**: the files below the root, or in it, that are not skipped. -/
theorem lists_listFiles_iff (htree : fs.Tree) (hroot : fs.stat fm.root = .dir)
    {infos : List FileInfo} (h : fm.listFiles sha256 fs namePrefix recursive = .ok infos)
    (relativePath : String) (fileSize : UInt64) :
    Lists infos relativePath fileSize ↔
      ∃ names b, names ≠ [] ∧ fs.node (fs.locate fm.root ++ names) = some (.file b) ∧
        (recursive = true ∨ names.length = 1) ∧ Listed namePrefix recursive names ∧
        FileManager.relativeText names = relativePath ∧ UInt64.ofNat b.length = fileSize := by
  unfold FileManager.listFiles at h
  have hfound : existsOrThrow fs fm.storageRoot.toList = .ok true := by
    simp [existsOrThrow, FileManager.cStr_storageRoot, hroot]
  simp only [hfound, Except.ok_bind, Bool.not_true, Bool.false_eq_true, if_false,
    FileManager.cStr_storageRoot] at h
  split at h
  · exact absurd h (by simp)
  obtain ⟨rounds, hrounds, h⟩ := Except.bind_eq_ok_iff.mp h
  obtain rfl := Except.ok.inj h
  constructor
  · rintro ⟨info, hinfo, hpath, hsize⟩
    simp only [List.mem_filterMap, id_eq, exists_eq_right] at hinfo
    obtain ⟨⟨names, x⟩, hentry, hround⟩ := (Except.mem_of_mapM_eq_ok hrounds).mp hinfo
    obtain ⟨hbelow, hdepth⟩ := List.mem_filter.mp hentry
    obtain ⟨b, rfl, hlisted, hpath, hsize⟩ :=
      (listEntry_eq_some_iff hround relativePath fileSize).mp ⟨info, rfl, hpath, hsize⟩
    have hne := (FileSystem.mem_entriesBelow.mp hbelow).1
    refine ⟨names, b, hne, (htree.mem_entriesBelow_file hne).mp hbelow, ?_, hlisted, hpath, hsize⟩
    simpa using hdepth
  · rintro ⟨names, b, hne, hnode, hdepth, hlisted, hpath, hsize⟩
    have hentry : (names, Node.file b) ∈ (fs.entriesBelow (fs.locate fm.root)).filter
        fun e => recursive || e.1.length = 1 := by
      refine List.mem_filter.mpr ⟨(htree.mem_entriesBelow_file hne).mpr hnode, ?_⟩
      simpa using hdepth
    -- the loop has returned from this round too
    obtain ⟨r, hround⟩ := Except.returns_mapM.mp ⟨rounds, hrounds⟩ _ hentry
    obtain ⟨info, rfl, hinfo⟩ :=
      (listEntry_eq_some_iff hround relativePath fileSize).mpr ⟨b, rfl, hlisted, hpath, hsize⟩
    refine ⟨info, ?_, hinfo⟩
    simp only [List.mem_filterMap, id_eq, exists_eq_right]
    exact (Except.mem_of_mapM_eq_ok hrounds).mpr ⟨_, hentry, hround⟩

/-- **When the listings agree.** On a tree, if both listings return, they agree exactly when
no file that matches the prefix is stray. -/
theorem listingsAgree_iff (htree : fs.Tree) (hroot : fs.stat fm.root = .dir)
    {direct deep : List FileInfo} (hdirect : fm.listFiles sha256 fs namePrefix false = .ok direct)
    (hdeep : fm.listFiles sha256 fs namePrefix true = .ok deep) :
    ListingsAgree sha256 fm fs namePrefix ↔
      ∀ names b, fs.node (fs.locate fm.root ++ names) = some (.file b) →
        HasPrefix namePrefix names → ¬ StrayName names := by
  have hlistsDirect := lists_listFiles_iff htree hroot hdirect
  have hlistsDeep := lists_listFiles_iff htree hroot hdeep
  have hnames : ∀ {names b}, fs.node (fs.locate fm.root ++ names) = some (.file b) →
      ∀ n ∈ names, FileName n := by
    intro names b hnode n hn
    exact htree.named _ (by rw [hnode]; simp) n (List.mem_append_right _ hn)
  constructor
  · rintro hagree names b hnode hmatches ⟨hends, hshows⟩
    obtain ⟨hsame, hclean⟩ := hagree direct deep hdirect hdeep
    have hne : names ≠ [] := by
      rintro rfl
      exact absurd (List.suffix_nil.mp hends) (by decide)
    -- one of the two listings has it
    obtain ⟨info, hinfo, hpath, -⟩ : Lists (direct ++ deep) (FileManager.relativeText names)
        (UInt64.ofNat b.length) := by
      obtain hlen | heq := hshows
      · obtain ⟨info, hinfo, hentry⟩ := (hlistsDirect _ _).mpr
          ⟨names, b, hne, hnode, .inr hlen, listed_iff.mpr ⟨by simp, hmatches⟩, rfl, rfl⟩
        exact ⟨info, List.mem_append_left _ hinfo, hentry⟩
      · obtain ⟨info, hinfo, hentry⟩ := (hlistsDeep _ _).mpr
          ⟨names, b, hne, hnode, .inl rfl, listed_iff.mpr ⟨fun _ h => h.2 heq, hmatches⟩, rfl, rfl⟩
        exact ⟨info, List.mem_append_right _ hinfo, hentry⟩
    refine hclean info hinfo ?_
    rw [hpath]
    exact (tmpSuffix_suffix_relativeText_iff hne).mpr hends
  · intro hstray direct' deep' hdirect' hdeep'
    obtain rfl := Except.ok.inj (hdirect.symm.trans hdirect')
    obtain rfl := Except.ok.inj (hdeep.symm.trans hdeep')
    refine ⟨fun rel size => ⟨fun h => ?_, fun h => ?_⟩, fun info hinfo hends => ?_⟩
    · obtain ⟨names, b, hne, hnode, hdepth, hlisted, rfl, hsize⟩ := (hlistsDirect rel size).mp h
      have hlen : names.length = 1 := hdepth.resolve_left (by simp)
      have hmatches := (listed_iff.mp hlisted).2
      refine ⟨(hlistsDeep _ _).mpr ⟨names, b, hne, hnode, .inl rfl, listed_iff.mpr ⟨?_, hmatches⟩,
        rfl, hsize⟩, (not_mem_relativeText_iff hne (hnames hnode)).mpr hlen⟩
      exact fun _ hskip => hstray names b hnode hmatches ⟨hskip.1, .inl hlen⟩
    · obtain ⟨h, hsep⟩ := h
      obtain ⟨names, b, hne, hnode, -, hlisted, rfl, hsize⟩ := (hlistsDeep rel size).mp h
      have hlen := (not_mem_relativeText_iff hne (hnames hnode)).mp hsep
      exact (hlistsDirect _ _).mpr ⟨names, b, hne, hnode, .inr hlen,
        listed_iff.mpr ⟨by simp, (listed_iff.mp hlisted).2⟩, rfl, hsize⟩
    · -- what either listing has under such a name is stray
      rcases List.mem_append.mp hinfo with hinfo | hinfo
      · obtain ⟨names, b, hne, hnode, hdepth, hlisted, hpath, -⟩ :=
          (hlistsDirect _ _).mp ⟨info, hinfo, rfl, rfl⟩
        rw [← hpath, tmpSuffix_suffix_relativeText_iff hne] at hends
        exact hstray names b hnode (listed_iff.mp hlisted).2
          ⟨hends, .inl (hdepth.resolve_left (by simp))⟩
      · obtain ⟨names, b, hne, hnode, -, hlisted, hpath, -⟩ :=
          (hlistsDeep _ _).mp ⟨info, hinfo, rfl, rfl⟩
        obtain ⟨hskip, hmatches⟩ := listed_iff.mp hlisted
        rw [← hpath, tmpSuffix_suffix_relativeText_iff hne] at hends
        refine hstray names b hnode hmatches ⟨hends, .inr ?_⟩
        by_contra hother
        exact hskip rfl ⟨hends, hother⟩

end Listings

/-- No file is stray. -/
def Tidy (fm : FileManager) (fs : FileSystem) : Prop :=
  ∀ l b, fs.node l = some (.file b) → ¬ Stray fm fs l

/-- A listing that returned something has found the root to be a directory. -/
theorem listFiles_of_no_root {sha256 : Bytes → String} {fm : FileManager} {fs : FileSystem}
    {namePrefix : String} {recursive : Bool} {infos : List FileInfo}
    (h : fm.listFiles sha256 fs namePrefix recursive = .ok infos)
    (hroot : fs.stat fm.root ≠ .dir) : infos = [] := by
  unfold FileManager.listFiles existsOrThrow at h
  simp only [FileManager.cStr_storageRoot] at h
  cases hs : fs.stat fm.root with
  | dir => exact absurd hs hroot
  | notFound =>
    simp only [hs, Except.ok_bind, Bool.not_false, if_true] at h
    exact (Except.ok.inj h).symm
  | failed => exact absurd h (by simp [hs])
  | file b => exact absurd h (by simp [hs])

/-- **The listings of a tidy store agree**, whatever the prefix. -/
theorem listingsAgree_of_tidy {fm : FileManager} {fs : FileSystem} (htree : fs.Tree)
    (htidy : Tidy fm fs) (sha256 : Bytes → String) (namePrefix : String) :
    ListingsAgree sha256 fm fs namePrefix := by
  by_cases hroot : fs.stat fm.root = .dir
  · intro direct deep hdirect hdeep
    refine (listingsAgree_iff htree hroot hdirect hdeep).mpr ?_ direct deep hdirect hdeep
    exact fun names b hnode _ hname => htidy _ b hnode ⟨names, rfl, hname⟩
  · -- a root that is not there has no files
    intro direct deep hdirect hdeep
    obtain rfl := listFiles_of_no_root hdirect hroot
    obtain rfl := listFiles_of_no_root hdeep hroot
    simp [Lists]

/-! ### What a frame writes -/

/-- The frame makes the session write to the disk: it completes an upload, or it is a block
whose hash matches. -/
def WritesToDisk (env : Env) (srv : Server) (frame : WireFrame) : Prop :=
  match uploadAfter env srv frame with
  | some u => u.received = u.totalSize
  | none =>
    match incoming env.proto frame with
    | .deltaSyncBlockData m => env.sha256 m.data = m.strongHash
    | _ => False

/-- **A settled frame**: if it makes the session write, neither the file of its path nor the
scratch file would be stray. -/
def Settled (env : Env) (srv : Server) (frame : WireFrame) : Prop :=
  WritesToDisk env srv frame → ∀ p, srv.writes env frame = some p →
    ∀ l ∈ footprint env.fm srv.fs p, ¬ Stray env.fm srv.fs l

section Steps

variable {env : Env} {srv : Server} {frame : WireFrame} {p : String} {t : Text}

/-- A frame that leads to no upload and writes is a block. -/
theorem exists_block (hupload : uploadAfter env srv frame = none)
    (h : srv.writes env frame = some p) :
    ∃ m, incoming env.proto frame = .deltaSyncBlockData m ∧ m.relativePath = p ∧
      (Server.step env srv frame).1.fs =
        (srv.session.deltaSyncHandler.handleBlockData env.sha256 env.fm srv.fs p m.blockIndex
          m.blockOffset m.data m.strongHash (srv.isFinal m.data)).fs := by
  unfold uploadAfter at hupload
  split at hupload
  · exact absurd hupload (by simp)
  next hidle =>
  rw [Server.writes, if_neg hidle] at h
  have hdispatch := dispatch_incoming env srv frame
  cases hin : incoming env.proto frame with
  | deltaSyncBlockData m =>
    rw [hin] at h hdispatch
    obtain rfl := Option.some.inj h
    refine ⟨m, rfl, rfl, ?_⟩
    rw [Server.step, if_neg hidle, hdispatch.2]
    exact (fs_handleDeltaSyncBlockData hdispatch.1).1
  | zeroCopyUploadRequest m =>
    rw [hin] at hupload
    exact absurd hupload (by simp)
  | clientHello | negotiationRequest | zeroCopyDownloadRequest | deltaSyncSignatureRequest
  | listFilesRequest | malformed =>
    rw [hin] at h
    exact absurd h (by simp)

/-- A frame that does not make the session write leaves the store as it is. -/
theorem fs_step_of_not_writesToDisk (h : ¬ WritesToDisk env srv frame) :
    (Server.step env srv frame).1.fs = srv.fs := by
  unfold WritesToDisk at h
  cases hupload : uploadAfter env srv frame with
  | some u =>
    simp only [hupload] at h
    obtain ⟨srv', out, hfs, rfl, hstep, -⟩ := step_of_uploadAfter hupload
    rw [hstep, ← hfs, Server.uploadLoop]
    split
    · rfl
    · rw [Server.finishUpload]
      simp only [h, if_false]
      rfl
  | none =>
    cases hwrites : srv.writes env frame with
    | none => exact (fs_step_of_query hwrites).1
    | some p =>
      obtain ⟨m, hin, -, hfs⟩ := exists_block hupload hwrites
      simp only [hupload, hin] at h
      -- the block is refused for its hash
      rw [hfs, DeltaSyncHandler.handleBlockData, if_pos h]

theorem stray_congr {fs fs' : FileSystem} {fm : FileManager} (h : fs'.os = fs.os) (l : Loc) :
    Stray fm fs' l ↔ Stray fm fs l := by
  rw [Stray, Stray, FileSystem.locate_congr h]

/-- **Disk calls at places that are not stray** keep a store tidy. -/
theorem Tidy.edits {fm : FileManager} {fs fs' : FileSystem} {S : Set Loc} (h : Tidy fm fs)
    (hedits : fs.Edits S fs') (hS : ∀ l ∈ S, ¬ Stray fm fs l) : Tidy fm fs' := by
  have hagree := hedits.filesAgree
  intro l b hnode hstray
  rw [stray_congr hagree.os] at hstray
  exact h l b ((hagree.file l (fun hl => hS l hl hstray) b).mp hnode) hstray

/-- **A settled frame keeps a store tidy**, and a tree. -/
theorem tidy_step (htidy : Tidy env.fm srv.fs) (hsettled : Settled env srv frame) :
    Tidy env.fm (Server.step env srv frame).1.fs := by
  by_cases hdisk : WritesToDisk env srv frame
  · cases hwrites : srv.writes env frame with
    | none =>
      rw [(fs_step_of_query hwrites).1]
      exact htidy
    | some p => exact htidy.edits (edits_step hwrites) (hsettled hdisk p hwrites)
  · rw [fs_step_of_not_writesToDisk hdisk]
    exact htidy

theorem tree_step (htree : srv.fs.Tree) : (Server.step env srv frame).1.fs.Tree := by
  cases hwrites : srv.writes env frame with
  | none =>
    rw [(fs_step_of_query hwrites).1]
    exact htree
  | some p => exact (edits_step hwrites).tree htree

end Steps

/-! ### Reachable stores -/

/-- The stores that sessions come to from `fs` when every frame that is handled meets `P`.

A session handles a frame (`frame`), or is in the middle of one (`during`): some of its disk
calls have been made, which make directories and write, or move away, the two files of its path.
Between them any number of other sessions can make theirs, and each goes on from the store that
the others have left. A client that leaves ends the loop of its upload, in which data is still
missing (`missing_run`). -/
inductive Reached (env : Env) (P : Server → WireFrame → Prop) (fs : FileSystem) :
    FileSystem → Prop
  | start : Reached env P fs fs
  | frame {srv : Server} {frame : WireFrame} (h : Reached env P fs srv.fs)
      (hup : srv.crash = none) (hP : P srv frame) :
      Reached env P fs (Server.step env srv frame).1.fs
  | during {srv : Server} {frame : WireFrame} {p : String} {fs' : FileSystem}
      (h : Reached env P fs srv.fs) (hP : P srv frame) (hdisk : WritesToDisk env srv frame)
      (hwrites : srv.writes env frame = some p)
      (hcalls : srv.fs.Edits (footprint env.fm srv.fs p) fs') : Reached env P fs fs'
  | leave {srv : Server} (h : Reached env P fs srv.fs)
      (hmissing : srv.uploading = true →
        srv.session.uploadState.received < srv.session.uploadState.totalSize) :
      Reached env P fs (Server.onEof env srv).1.fs

section Reached

variable {env : Env} {srv : Server} {fs fs' : FileSystem}

/-- In the loop of an upload data is missing, over a run of any length. -/
theorem missing_run {frames : List WireFrame}
    (h : srv.uploading = true →
      srv.session.uploadState.received < srv.session.uploadState.totalSize) :
    (Server.run env srv frames).1.uploading = true →
      (Server.run env srv frames).1.session.uploadState.received <
        (Server.run env srv frames).1.session.uploadState.totalSize := by
  refine Server.run_induction (J := fun s => s.uploading = true →
    s.session.uploadState.received < s.session.uploadState.totalSize) h ?_
  intro s frame _ hs hup
  cases hupload : uploadAfter env s frame with
  | some u =>
    -- the loop only reads on for data that is missing
    obtain ⟨s', out, -, -, hstep, -⟩ := step_of_uploadAfter hupload
    rw [hstep] at hup ⊢
    unfold Server.uploadLoop at hup ⊢
    split at hup
    · next hmore =>
      rw [if_pos hmore]
      exact hmore
    · exact absurd (uploading_finishUpload.symm.trans hup) (by simp)
  | none =>
    have hidle : s.uploading = false := by
      unfold uploadAfter at hupload
      split at hupload
      · exact absurd hupload (by simp)
      · simpa using ‹¬ s.uploading = true›
    cases hwrites : s.writes env frame with
    | none => exact absurd ((fs_step_of_query hwrites).2.symm.trans hup) (by simp)
    | some p =>
      obtain ⟨m, hin, -⟩ := exists_block hupload hwrites
      have hdispatch := dispatch_incoming env s frame
      rw [hin] at hdispatch
      rw [Server.step_of_idle hidle, hdispatch.2,
        (fs_handleDeltaSyncBlockData hdispatch.1).2, hidle] at hup
      exact absurd hup (by simp)

/-- A client that leaves does not change the store. -/
theorem fs_onEof (hmissing : srv.uploading = true →
    srv.session.uploadState.received < srv.session.uploadState.totalSize) :
    (Server.onEof env srv).1.fs = srv.fs := by
  unfold Server.onEof
  split
  · next hup =>
    have hne : srv.session.uploadState.received ≠ srv.session.uploadState.totalSize := by
      intro hc
      have hlt := hmissing hup
      rw [hc] at hlt
      exact absurd hlt (UInt64.lt_irrefl _)
    simp only [Server.finishUpload, hne, if_false]
    rfl
  · rfl

/-- **A tidy store stays tidy**, at every moment, when every frame is settled. -/
theorem Reached.tidy (htree : fs.Tree) (htidy : Tidy env.fm fs)
    (h : Reached env (Settled env) fs fs') : fs'.Tree ∧ Tidy env.fm fs' := by
  induction h with
  | start => exact ⟨htree, htidy⟩
  | frame _ _ hsettled ih => exact ⟨tree_step ih.1, tidy_step ih.2 hsettled⟩
  | during _ hsettled hdisk hwrites hcalls ih =>
    exact ⟨hcalls.tree ih.1, ih.2.edits hcalls (hsettled hdisk _ hwrites)⟩
  | leave _ hmissing ih =>
    rw [fs_onEof hmissing]
    exact ih

end Reached

/-- **Both listings show the same store.** From a tidy store, over any number of sessions
whose frames are all settled, the two listings agree in every store that is reached, in the
middle of a frame or after it, whatever the prefix. -/
theorem listings_agree_of_settled {env : Env} {fs fs' : FileSystem} (htree : fs.Tree)
    (htidy : Tidy env.fm fs) (h : Reached env (Settled env) fs fs') (namePrefix : String) :
    ListingsAgree env.sha256 env.fm fs' namePrefix :=
  listingsAgree_of_tidy (h.tidy htree htidy).1 (h.tidy htree htidy).2 env.sha256 namePrefix

/-! ### A client that synchronises a file in the root -/

theorem tree_emptyStore : emptyStore.Tree :=
  FileSystem.tree_single none (by decide) (by decide)

theorem tidy_emptyStore : Tidy storageEnv.fm emptyStore := by
  intro l b hnode
  rw [emptyStore, FileSystem.node_single] at hnode
  repeat' split at hnode
  all_goals simp at hnode

/-- The client sends `data` as the first block of `d/f`, with its hash. -/
def blockBelow (data : Bytes) : WireFrame :=
  message protobuf.deltaSyncBlockData .deltaSyncBlockData ⟨"d/f", 0, 0, data, sha256Hex data⟩

/-- A file in a directory below the root is settled, and so is its scratch file. -/
theorem settled_blockBelow (data : Bytes) :
    Settled storageEnv (Server.new 4096 emptyStore) (blockBelow data) := by
  rintro - p hwrites l ⟨t, ht, hl⟩
  have hwrites' : (Server.new 4096 emptyStore).writes storageEnv (blockBelow data) =
      some "d/f" := by
    simp [Server.writes, Server.new, blockBelow, storageEnv, incoming_deltaSyncBlockData]
  obtain rfl : "d/f" = p := Option.some.inj (hwrites'.symm.trans hwrites)
  obtain rfl : "s/d/f".toList = t :=
    Except.ok.inj
      ((by decide : storageEnv.fm.resolvePath "d/f" = .ok "s/d/f".toList).symm.trans ht)
  rintro ⟨names, hnames, hstray⟩
  -- below the root the two are `d/f` and `d/f.tmp`
  rcases hl with ⟨-, rfl⟩ | ⟨-, rfl⟩
  · obtain rfl : names = [['d'], ['f']] := (@List.append_cancel_left _ [['s']] _ _ hnames).symm
    revert hstray
    unfold StrayName
    decide
  · obtain rfl : names = [['d'], "f.tmp".toList] :=
      (@List.append_cancel_left _ [['s']] _ _ hnames).symm
    revert hstray
    unfold StrayName
    decide

/-- A client that has sent the first block of `d/f` leaves its scratch file, which neither
listing shows. -/
theorem listings_agree_below :
    ListingsAgree sha256Hex storageEnv.fm
      (Server.step storageEnv (Server.new 4096 emptyStore)
        (blockBelow (List.replicate 4096 7))).1.fs "" :=
  @listings_agree_of_settled storageEnv _ _ tree_emptyStore tidy_emptyStore
    (.frame .start rfl (settled_blockBelow _)) ""

/-- The store after a client has sent the first, full block of `f`. -/
def unfinished (data : Bytes) : FileSystem :=
  (Server.step storageEnv (Server.new 4096 emptyStore) (blockOfF 0 data)).1.fs

theorem unfinished_eq {data : Bytes} (hfull : data.length = 4096) :
    unfinished data = emptyStore.set [['s'], "f.tmp".toList] (.file data) := by
  have hoff : (0 : UInt64).toNat + data.length < maxOffset := by
    rw [hfull]
    decide
  have hdispatch := dispatch_incoming storageEnv (Server.new 4096 emptyStore) (blockOfF 0 data)
  rw [incoming_blockOfF] at hdispatch
  have hfinal : (Server.new 4096 emptyStore).isFinal data = false := by
    simp [Server.isFinal, Server.new, Session.new, hfull]
  have hcall := @DeltaSyncHandler.handleBlockData_of_ready sha256Hex _ _ _ _
    (Server.new 4096 emptyStore).session.deltaSyncHandler ready_emptyStore 0 _ _ hoff
  have hempty := tracks_emptyStore.scratch
  rw [unfinished, Server.step_of_idle rfl, hdispatch.2,
    (fs_handleDeltaSyncBlockData hdispatch.1).1, hfinal]
  rw [DeltaSyncHandler.merged, hempty] at hcall
  refine (congrArg DeltaSyncHandler.BlockOutcome.fs hcall).trans ?_
  rw [show (0 : UInt64).toNat = 0 from rfl, writeAt_zero_nil]
  rfl

theorem stat_root_unfinished (data : Bytes) :
    (emptyStore.set [['s'], "f.tmp".toList] (.file data)).stat storageEnv.fm.root = .dir := by
  have hnode : (emptyStore.set [['s'], "f.tmp".toList] (.file data)).node [['s']] = some .dir := by
    rw [FileSystem.node_set_of_ne (by decide), emptyStore, FileSystem.node_single]
    simp
  have hlocate : (emptyStore.set [['s'], "f.tmp".toList] (.file data)).locate
      storageEnv.fm.root = [['s']] := rfl
  have hquiet : (emptyStore.set [['s'], "f.tmp".toList] (.file data)).os.fails .stat [['s']] =
      false := rfl
  unfold FileSystem.stat
  rw [if_neg (by decide)]
  simp only [hlocate, hquiet, hnode, Bool.false_eq_true, if_false]

/-- With a block of `f` in its scratch file, both listings return. -/
theorem listFiles_unfinished (data : Bytes) (recursive : Bool) :
    (storageEnv.fm.listFiles sha256Hex
      (emptyStore.set [['s'], "f.tmp".toList] (.file data)) "" recursive).Returns := by
  have hnode : (emptyStore.set [['s'], "f.tmp".toList] (.file data)).node
      [['s'], "f.tmp".toList] = some (.file data) :=
    FileSystem.node_set_self (FileSystem.node_single_ne_dir _ _ _ _)
  have hstat : (emptyStore.set [['s'], "f.tmp".toList] (.file data)).stat
      (cStr "s/f.tmp".toList) = .file data :=
    FileSystem.stat_of_node (by decide) (by decide) rfl hnode
  have hentries : (emptyStore.set [['s'], "f.tmp".toList] (.file data)).entriesBelow [['s']] =
      [(["f.tmp".toList], .file data)] := rfl
  have hresolves : storageEnv.fm.resolvePath (FileManager.relativeText ["f.tmp".toList]) =
      .ok "s/f.tmp".toList := by decide
  have hroot := stat_root_unfinished data
  rw [listFiles_returns, ListableRoot, FileManager.cStr_storageRoot]
  refine ⟨by rw [hroot]; simp, fun _ => ⟨hroot, rfl, ?_⟩⟩
  intro e he _
  rw [show (emptyStore.set [['s'], "f.tmp".toList] (.file data)).locate storageEnv.fm.root =
    [['s']] from rfl, hentries] at he
  obtain rfl := List.mem_singleton.mp he
  refine ⟨rfl, fun _ => ⟨⟨_, hresolves, by rw [hstat]; simp⟩, fun _ => ⟨_, hresolves, ?_⟩⟩⟩
  intro n hn
  simp only [FileSystem.openRead, hstat] at hn
  split at hn
  · exact absurd hn (by simp)
  · rw [← Option.some.inj hn]
    exact ⟨by simp, rfl⟩

theorem reached_unfinished (data : Bytes) :
    Reached storageEnv (fun _ _ => True) emptyStore (unfinished data) := by
  have hstart : Reached storageEnv (fun _ _ => True) emptyStore (Server.new 4096 emptyStore).fs :=
    .start
  exact hstart.frame rfl trivial

/-- The listing of the root shows `f.tmp`, and the recursive listing shows nothing. -/
theorem not_listingsAgree_of_full {data : Bytes} (hfull : data.length = 4096) :
    ¬ ListingsAgree sha256Hex storageEnv.fm (unfinished data) "" := by
  have htree : (unfinished data).Tree := tree_step tree_emptyStore
  rw [unfinished_eq hfull] at htree ⊢
  obtain ⟨direct, hdirect⟩ := listFiles_unfinished data false
  obtain ⟨deep, hdeep⟩ := listFiles_unfinished data true
  rw [listingsAgree_iff htree (stat_root_unfinished data) hdirect hdeep]
  intro h
  refine h ["f.tmp".toList] data (FileSystem.node_set_self ?_) (fun hne => absurd rfl hne) ?_
  · exact FileSystem.node_single_ne_dir _ _ _ _
  · exact ⟨by decide, .inl rfl⟩

/-- A client that sends the first, full block of `f` leaves a store in which the listing of
the root shows its scratch file. -/
theorem not_listings_agree_unfinished :
    Reached storageEnv (fun _ _ => True) emptyStore (unfinished (List.replicate 4096 1)) ∧
      ¬ ListingsAgree sha256Hex storageEnv.fm (unfinished (List.replicate 4096 1)) "" :=
  ⟨reached_unfinished _, not_listingsAgree_of_full List.length_replicate⟩

end AdaptiveSync
